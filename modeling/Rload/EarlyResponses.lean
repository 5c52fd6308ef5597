import Rload.RunInvariants

/-!
# Responses to requests that were not sent

Bytes that arrive before the first byte of a request is written go through its decoder all
the same. Where none arrive so early, each response that is counted answers a request that
was started.
-/

namespace Rload
open Connection

namespace Happening

/-- A response is counted whose request was not started. -/
def isEarlyAnswer : Happening → Bool
  | .answered _ started => !started
  | _ => false

/-- Bytes arrive whose request was not started. -/
def isEarlyArrival : Happening → Bool
  | .received _ started => !started
  | _ => false

end Happening

namespace Connection

/-- Each response that was counted is for a request that had been started. -/
def CountsStarted (c : Connection) : Prop := ∀ h ∈ c.history, h.isEarlyAnswer = false

/-- No bytes have arrived while the current request was not started. -/
def Quiet (c : Connection) : Prop := ∀ h ∈ c.history, h.isEarlyArrival = false

instance (c : Connection) : Decidable c.CountsStarted :=
  inferInstanceAs (Decidable (∀ h ∈ c.history, h.isEarlyAnswer = false))

instance (c : Connection) : Decidable c.Quiet :=
  inferInstanceAs (Decidable (∀ h ∈ c.history, h.isEarlyArrival = false))

/-- The decoder has seen nothing of a request that is not started. -/
def Fresh (c : Connection) : Prop := c.started = none → c.decoder = freshDecoder c.method

variable {t : ℕ} {c c' : Connection}

@[simp] theorem hear_started (data : List UInt8) (eof : Bool) (c : Connection) :
    (c.hear data eof).started = c.started := by
  unfold hear
  split <;> rfl

@[simp] theorem hear_method (data : List UInt8) (eof : Bool) (c : Connection) :
    (c.hear data eof).method = c.method := by
  unfold hear
  split <;> rfl

theorem hear_decoder (data : List UInt8) (eof : Bool) (c : Connection) :
    (c.hear data eof).decoder = (c.decoder.feed data eof).2 := rfl

theorem hear_history (data : List UInt8) (eof : Bool) (c : Connection) :
    (c.hear data eof).history =
      if data = [] then c.history else .received data c.started.isSome :: c.history := by
  unfold hear
  split <;> rfl

/-- Nothing is decoded without a byte. -/
theorem feed_new_nil (noBody eof : Bool) :
    (ResponseDecoder.new noBody).feed [] eof =
      (if eof then .error (invalidResponse "headers are incomplete") else .ok none,
        .new noBody) := rfl

/-- The bytes of a quiet connection are for a started request. -/
theorem Quiet.of_hear {data : List UInt8} {eof : Bool} (h : (c.hear data eof).Quiet) :
    c.Quiet ∧ (data = [] ∨ c.started.isSome = true) := by
  rw [Quiet, hear_history] at h
  by_cases hdata : data = []
  · rw [if_pos hdata] at h
    exact ⟨h, Or.inl hdata⟩
  · rw [if_neg hdata, List.forall_mem_cons] at h
    exact ⟨h.2, Or.inr (by simpa [Happening.isEarlyArrival] using h.1)⟩

theorem Fresh.hear {data : List UInt8} {eof : Bool} (h : c.Fresh)
    (hdata : data = [] ∨ c.started.isSome = true) : (c.hear data eof).Fresh := by
  intro hnone
  rw [hear_started] at hnone
  cases hdata with
  | inl hnil =>
    rw [hear_decoder, hear_method, h hnone, hnil, freshDecoder, feed_new_nil]
  | inr hsome =>
    rw [hnone] at hsome
    cases hsome

/-- A response needs a started request, where no byte comes too early. -/
theorem Fresh.started_of_decoded {data : List UInt8} {eof : Bool} {parsed : ParsedResponse}
    (h : c.Fresh) (hdata : data = [] ∨ c.started.isSome = true)
    (hdecoded : c.decoded data eof = .ok (some parsed)) : c.started.isSome = true := by
  cases hdata with
  | inr hsome => exact hsome
  | inl hnil =>
    cases hs : c.started with
    | some time => rfl
    | none =>
      rw [decoded, h hs, hnil, freshDecoder, feed_new_nil] at hdecoded
      cases eof <;> cases hdecoded

/-- What quiet connections keep. -/
def Punctual (c : Connection) : Prop := c.Quiet → c.CountsStarted ∧ c.Fresh

theorem Punctual.of_same (h : c.Punctual) (hhistory : c'.history = c.history)
    (hfresh : c.Fresh → c'.Fresh) : c'.Punctual := by
  intro hquiet
  rw [Quiet, hhistory] at hquiet
  obtain ⟨hcounts, hc⟩ := h hquiet
  refine ⟨?_, hfresh hc⟩
  rw [CountsStarted, hhistory]
  exact hcounts

theorem Punctual.of_cons {happening : Happening} (h : c.Punctual)
    (hhistory : c'.history = happening :: c.history) (hanswer : happening.isEarlyAnswer = false)
    (hfresh : c.Fresh → c'.Fresh) : c'.Punctual := by
  intro hquiet
  rw [Quiet, hhistory, List.forall_mem_cons] at hquiet
  obtain ⟨hcounts, hc⟩ := h hquiet.2
  refine ⟨?_, hfresh hc⟩
  rw [CountsStarted, hhistory, List.forall_mem_cons]
  exact ⟨hanswer, hcounts⟩

theorem Punctual.of_attempts (h : c.Punctual) (tried : ℕ) {made limited : ℕ} :
    (attempts tried made limited c).Punctual := by
  have hmem : ∀ happening ∈ List.replicate tried Happening.attempted,
      happening.isEarlyAnswer = false ∧ happening.isEarlyArrival = false := by
    intro happening hmem
    rw [List.eq_of_mem_replicate hmem]
    exact ⟨rfl, rfl⟩
  intro hquiet
  rw [Quiet, attempts, List.forall_mem_append] at hquiet
  obtain ⟨hcounts, hc⟩ := h hquiet.2
  refine ⟨?_, hc⟩
  rw [CountsStarted, attempts, List.forall_mem_append]
  exact ⟨fun happening h => (hmem happening h).1, hcounts⟩

theorem Punctual.hear {data : List UInt8} {eof : Bool} (h : c.Punctual) :
    (c.hear data eof).Punctual := by
  intro hquiet
  obtain ⟨hc, hdata⟩ := hquiet.of_hear
  obtain ⟨hcounts, hfresh⟩ := h hc
  refine ⟨?_, hfresh.hear hdata⟩
  rw [CountsStarted, hear_history]
  split
  · exact hcounts
  · exact List.forall_mem_cons.mpr ⟨rfl, hcounts⟩

theorem Punctual.answer {data : List UInt8} {eof : Bool} {parsed : ParsedResponse}
    (h : c.Punctual) (hdecoded : c.decoded data eof = .ok (some parsed)) :
    (complete (c.hear data eof)).Punctual := by
  intro hquiet
  have hheard : (c.hear data eof).Quiet := fun h hmem => hquiet h (List.mem_cons_of_mem _ hmem)
  obtain ⟨hc, hdata⟩ := hheard.of_hear
  obtain ⟨hcounts, hfresh⟩ := h.hear hheard
  have hstarted := (h hc).2.started_of_decoded hdata hdecoded
  have hanswered : (Happening.answered (c.hear data eof).entry
      (c.hear data eof).started.isSome).isEarlyAnswer = false := by
    rw [hear_started, hstarted]
    rfl
  have hall : ∀ h ∈ (complete (c.hear data eof)).history, h.isEarlyAnswer = false :=
    List.forall_mem_cons.mpr ⟨hanswered, hcounts⟩
  exact ⟨hall, hfresh⟩

theorem invariant_punctual : Connection.Invariant fun _ c => c.Punctual where
  time t t' c _ h := h
  move t c c' h hmove := by
    cases hmove with
    | watch interest => exact h.of_same rfl id
    | hear data eof => exact h.hear
    | awaitPace hpace hearly =>
      rw [Connection.awaitPace]
      split
      · exact h
      · exact h.of_same rfl id
    | begin hpace =>
      rw [Connection.begin]
      split
      · exact h.of_cons rfl rfl fun _ hnone => by cases hnone
      · exact h.of_same rfl id
    | advance hstarted hpos hle => exact h.of_cons rfl rfl id
    | @attempts tried made limited hspends => exact h.of_attempts tried
    | clearReadBytes => exact h.of_same rfl id
    | clearRecoveryAttempts => exact h.of_same rfl id
    | defer hstarted hpace => exact h.of_same rfl id
    | finish => exact h.of_same rfl id
    | opened hassign addressIndex =>
      cases hassign with
      | next => exact h.of_cons rfl rfl id
      | retry =>
        have hretried : (toRetry c).Punctual := h.of_cons rfl rfl id
        exact hretried.of_cons rfl rfl id
      | recover =>
        have hrestarted : (toRecover c).Punctual := h.of_cons rfl rfl fun _ _ => rfl
        exact hrestarted.of_cons rfl rfl id
      | resume hre =>
        have hreconnected : (toResume c).Punctual := h.of_cons rfl rfl id
        exact hreconnected.of_cons rfl rfl id
    | answer hdata hdecoded => exact h.answer hdecoded
    | next drawn =>
      have hreplaced : (rewind c).Punctual := h.of_cons rfl rfl id
      exact hreplaced.of_cons rfl rfl fun _ _ => rfl
  connected addresses limit tls drawn addressIndex t := by
    intro _
    refine ⟨?_, fun _ => rfl⟩
    simp [CountsStarted, connected, Happening.isEarlyAnswer]

end Connection

namespace RunInput

/-- In every run a connection that no byte reaches before its request is started counts
responses to started requests only. -/
theorem started_answered (input : RunInput) (schedule : List ℕ) :
    ∀ w ∈ (input.after schedule).components, ∀ c ∈ w.connections,
      c.Quiet → c.CountsStarted := by
  intro w hw c hc hquiet
  exact (input.forall_connection invariant_punctual schedule w hw c hc hquiet).1

theorem started_answered_sample :
    (promptRun.after (List.replicate 13 0)).components.length = 1 ∧
      ∀ w ∈ (promptRun.after (List.replicate 13 0)).components, ∀ c ∈ w.connections,
        c.completed = 2 ∧ c.CountsStarted := by
  have hquiet : (promptRun.after (List.replicate 13 0)).components.length = 1 ∧
      ∀ w ∈ (promptRun.after (List.replicate 13 0)).components, ∀ c ∈ w.connections,
        c.completed = 2 ∧ c.Quiet := by
    decide +kernel
  refine ⟨hquiet.1, fun w hw c hc => ⟨(hquiet.2 w hw c hc).1, ?_⟩⟩
  exact started_answered promptRun _ w hw c hc (hquiet.2 w hw c hc).2

/-- One request in a second, and a server that answers at once and once more. -/
def pacedRun : RunInput :=
  plain (.requests 2) 1 ((RequestSequence.inOrder [getRoot]).withRate (some 1) 0) none
    fun _ => promptReply

/-- The second response comes a second before its request may be written, and counts. -/
theorem early_response_counted :
    ¬ ∀ (input : RunInput) (schedule : List ℕ), input.prepared.config.validate = .ok () →
      ∀ w ∈ (input.after schedule).components, ∀ c ∈ w.connections, c.CountsStarted := by
  intro h
  have hcounts := h pacedRun (List.replicate 10 0) rfl
  exact absurd hcounts (by decide +kernel)

end RunInput

end Rload
