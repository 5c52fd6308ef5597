import Rload.AnsweredRequests
import Rload.PacedRequests

/-!
# Latencies of paced requests

The latency of a response is measured from the time at which the request was begun. It is the
time since the slot of the request where the request was begun at its slot, and there alone.
-/

namespace Rload
open StatefulPrograms

namespace RequestSequence

variable {s s' : RequestSequence} {issued : List Drawn}

/-- The draws of the sequence get slots. -/
def IsPaced (s : RequestSequence) : Prop :=
  s.pacer.isSome ∨ s.timestampPacer.isSome ∨ s.stagePacer.isSome

theorem IsPaced.next (h : s.IsPaced) {now : ℕ} {drawn : Drawn}
    (hnext : s.next now = .ok (drawn, s')) : drawn.notBefore.isSome ∧ s'.IsPaced := by
  obtain ⟨⟨index, s₁⟩, hselect, hnext⟩ := ok_of_bind hnext
  obtain ⟨entry, -, hnext⟩ := ok_of_bind hnext
  obtain ⟨⟨scheduled, s₂⟩, hreserve, hnext⟩ := ok_of_bind hnext
  obtain ⟨method, -, hnext⟩ := ok_of_bind hnext
  cases hnext
  obtain ⟨hpacer, htimestamp, hstage⟩ := select_pacers hselect
  have h₁ : s₁.IsPaced := by rwa [IsPaced, hpacer, htimestamp, hstage]
  unfold reserve at hreserve
  split at hreserve
  · obtain ⟨⟨time, pacer⟩, -, hreserve⟩ := ok_of_bind hreserve
    cases hreserve
    exact ⟨rfl, Or.inl rfl⟩
  · obtain ⟨timestamp, -, hreserve⟩ := ok_of_bind hreserve
    obtain ⟨⟨time, pacer⟩, -, hreserve⟩ := ok_of_bind hreserve
    cases hreserve
    exact ⟨rfl, Or.inr (Or.inl rfl)⟩
  · obtain ⟨⟨time, pacer⟩, -, hreserve⟩ := ok_of_bind hreserve
    cases hreserve
    exact ⟨rfl, Or.inr (Or.inr rfl)⟩
  · rename_i hpacer htimestamp hstage
    rw [IsPaced, hpacer, htimestamp, hstage] at h₁
    simp at h₁

theorem IsPaced.issues (h : s.IsPaced) (hissues : s.Issues issued s') :
    (∀ drawn ∈ issued, drawn.notBefore.isSome) ∧ s'.IsPaced := by
  induction hissues with
  | refl => exact ⟨List.forall_mem_nil _, h⟩
  | draw _ hnext ih =>
    obtain ⟨hslot, hpaced⟩ := ih.2.next hnext
    exact ⟨List.forall_mem_cons.mpr ⟨hslot, ih.1⟩, hpaced⟩

end RequestSequence

namespace Connection

/-- What a latency is measured from is not in the future. -/
structure Measured (t : ℕ) (c : Connection) : Prop where
  started_le : ∀ started ∈ c.started, started ≤ t
  connectedAt_le : c.connectedAt ≤ t

variable {t : ℕ} {c c' : Connection}

theorem Measured.of_same (h : c.Measured t) (hstarted : c'.started = c.started)
    (hconnected : c'.connectedAt = c.connectedAt) : c'.Measured t :=
  ⟨hstarted ▸ h.started_le, hconnected ▸ h.connectedAt_le⟩

theorem measured_invariant : Invariant Measured where
  time t t' c hle h :=
    ⟨fun started hstarted => (h.started_le started hstarted).trans hle, h.connectedAt_le.trans hle⟩
  move t c c' h hmove := by
    cases hmove with
    | hear data eof =>
      have hkept := readFrame_hear data eof c
      exact h.of_same (congrArg (·.started) hkept) (congrArg (·.connectedAt) hkept)
    | awaitPace =>
      rw [Connection.awaitPace]
      split
      · exact h
      · exact ⟨h.started_le, h.connectedAt_le⟩
    | begin =>
      rw [Connection.begin]
      split
      · refine ⟨?_, h.connectedAt_le⟩
        rintro started ⟨⟩
        exact le_rfl
      · exact ⟨h.started_le, h.connectedAt_le⟩
    | opened hassign =>
      cases hassign with
      | next => exact ⟨h.started_le, le_rfl⟩
      | retry => exact ⟨h.started_le, le_rfl⟩
      | recover => exact ⟨fun _ h => absurd h (Option.not_mem_none _), le_rfl⟩
      | resume => exact ⟨h.started_le, le_rfl⟩
    | @answer data eof =>
      have hkept := readFrame_hear data eof c
      exact h.of_same (congrArg (·.started) hkept) (congrArg (·.connectedAt) hkept)
    | next drawn => exact ⟨fun _ h => absurd h (Option.not_mem_none _), h.connectedAt_le⟩
    | _ => exact ⟨h.started_le, h.connectedAt_le⟩
  connected addresses limit tls drawn addressIndex t :=
    ⟨fun _ h => absurd h (Option.not_mem_none _), le_rfl⟩

/-- The request was begun at the time; one that was answered without being begun counts as
begun when its transport was opened. -/
def BegunAt (time : ℕ) (c : Connection) : Prop :=
  c.started = some time ∨ c.started = none ∧ c.connectedAt = time

theorem begunAt_iff {time : ℕ} : c.BegunAt time ↔ c.started.getD c.connectedAt = time := by
  unfold BegunAt
  cases c.started with
  | none => simp
  | some started => simp

theorem Measured.le (h : c.Measured t) : c.started.getD c.connectedAt ≤ t := by
  cases hstarted : c.started with
  | none => exact h.connectedAt_le
  | some started => exact h.started_le started hstarted

theorem Answers.latency_eq {response : CompletedResponse} (h : Answers t c c' response) :
    response.latency = t - c.started.getD c.connectedAt := by
  have hkept := h.kept
  have hstarted : c'.started = c.started := congrArg (·.started) hkept
  have hconnected : c'.connectedAt = c.connectedAt := congrArg (·.connectedAt) hkept
  rw [← hstarted, ← hconnected]
  cases h with
  | mk => rfl

end Connection

namespace RunInput
open Connection

/-- In every run with a pacer, every request that is answered has a slot, and the latency that is
recorded is the time since the slot if and only if the request was begun at the slot. -/
theorem latencies_scheduled_iff (input : RunInput) (hpaced : input.prepared.sequence.IsPaced)
    (schedule : List ℕ) :
    ∀ a ∈ input.answers schedule, ∃ slot, a.connection.notBefore = some slot ∧
      ((a.response.latency : ℤ) = a.time - slot ↔ a.connection.BegunAt slot) := by
  intro a ha
  obtain ⟨issued, sequence, hissues, hdrawn⟩ := input.exists_issued ha
  obtain ⟨slot, hslot⟩ := Option.isSome_iff_exists.mp ((hpaced.issues hissues).1 _ hdrawn)
  refine ⟨slot, hslot, ?_⟩
  have hmeasured := (input.forall_answer measured_invariant a ha).le
  obtain ⟨before, i, w, -, hw, hanswer⟩ := input.exists_answer ha
  obtain ⟨token, c, d₁, hc, hreads⟩ := Worker.reads_of_answer hanswer
  have hlatency := hreads.connection_eq ▸ hreads.answers.latency_eq
  rw [begunAt_iff, hlatency]
  omega

theorem latencies_scheduled_sample :
    (secondsRun.answers (List.replicate 16 0)).length = 2 ∧
      ∀ a ∈ secondsRun.answers (List.replicate 16 0), ∃ slot, a.connection.notBefore = some slot ∧
        ((a.response.latency : ℤ) = a.time - slot ↔ a.connection.BegunAt slot) :=
  ⟨by decide +kernel, latencies_scheduled_iff secondsRun (Or.inl rfl) _⟩

/-- A paced request on a machine where every call takes a millisecond. -/
def slowRun : RunInput :=
  plain (.requests 1) 1 ((RequestSequence.inOrder [getRoot]).withRate (some 1) 0) none
    fun _ => { promptReply with elapsed := 10 ^ 6 }

/-- The slot of the request is at 3 ms, it is begun at 10 ms and answered at 15 ms, and its
latency is 5 ms. -/
theorem late_latency_shortened :
    ¬ ∀ (input : RunInput) (schedule : List ℕ), input.prepared.config.validate = .ok () →
      input.prepared.sequence.IsPaced → ∀ a ∈ input.answers schedule, ∀ slot,
        a.connection.notBefore = some slot → (a.response.latency : ℤ) = a.time - slot := by
  intro h
  have hlate : ∃ a ∈ slowRun.answers (List.replicate 6 0),
      a.connection.notBefore = some 3000000 ∧ a.time = 15000000 ∧
        a.response.latency = 5000000 := by
    decide +kernel
  obtain ⟨a, ha, hslot, htime, hlatency⟩ := hlate
  have hscheduled := h slowRun _ rfl (Or.inl rfl) a ha _ hslot
  rw [htime, hlatency] at hscheduled
  omega

end RunInput

end Rload
