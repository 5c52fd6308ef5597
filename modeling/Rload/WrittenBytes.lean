import Rload.RunInvariants

/-!
# The bytes on a transport

What was written to a transport is, for each request that it carried, the part of the request
that its write offset had reached when it was answered. The requests are on the transport as
a whole if and only if each was answered after it was written completely and the transport
was opened for a request from its start.
-/

namespace Rload
open Connection

section Parts

variable {α : Type}

/-- The written parts of requests, with the lengths of the parts. -/
def parts (requests : List (List α × ℕ)) : List α := (requests.map fun r => r.1.take r.2).flatten

def wholes (requests : List (List α × ℕ)) : List α := (requests.map Prod.fst).flatten

/-- The parts are parts. -/
def Within (requests : List (List α × ℕ)) : Prop := ∀ r ∈ requests, r.2 ≤ r.1.length

def Whole (requests : List (List α × ℕ)) : Prop := ∀ r ∈ requests, r.2 = r.1.length

theorem parts_append (requests : List (List α × ℕ)) (r : List α × ℕ) :
    parts (requests ++ [r]) = parts requests ++ r.1.take r.2 := by
  simp [parts]

theorem parts_of_whole {requests : List (List α × ℕ)} (h : Whole requests) :
    parts requests = wholes requests := by
  induction requests with
  | nil => rfl
  | cons r requests ih =>
    rw [Whole, List.forall_mem_cons] at h
    simp only [parts, wholes, List.map_cons, List.flatten_cons, h.1, List.take_length] at ih ⊢
    rw [ih h.2]

theorem length_parts_le (requests : List (List α × ℕ)) :
    (parts requests).length ≤ (wholes requests).length := by
  induction requests with
  | nil => exact le_rfl
  | cons r requests ih =>
    simp only [parts, wholes, List.map_cons, List.flatten_cons, List.length_append,
      List.length_take] at ih ⊢
    omega

/-- Only whole requests are as long as they are. -/
theorem whole_of_length_eq {requests : List (List α × ℕ)} (hwithin : Within requests)
    (h : (wholes requests).length ≤ (parts requests).length) : Whole requests := by
  induction requests with
  | nil => exact fun r hr => absurd hr List.not_mem_nil
  | cons r requests ih =>
    rw [Within, List.forall_mem_cons] at hwithin
    have hle := length_parts_le requests
    simp only [parts, wholes, List.map_cons, List.flatten_cons, List.length_append,
      List.length_take] at h hle ih
    rw [Whole, List.forall_mem_cons]
    exact ⟨by omega, ih hwithin.2 (by omega)⟩

end Parts

/-- What happened on the current transport: the write offset at which it was opened, the bytes
that were written, and the requests that were answered and replaced by the next one, with
their write offsets at that time. -/
structure TransportLog where
  openedAt : ℕ
  written : List UInt8
  replaced : List (List UInt8 × ℕ)
  deriving DecidableEq

def Happening.record : Happening → TransportLog → TransportLog
  | .opened left _, _ => ⟨left.writeOffset, [], []⟩
  | .wrote bytes _, l => { l with written := l.written ++ bytes }
  | .replaced request writeOffset, l =>
    { l with replaced := l.replaced ++ [(request, writeOffset)] }
  | _, l => l

namespace Connection

def log (c : Connection) : TransportLog := c.history.foldr Happening.record ⟨0, [], []⟩

/-- The bytes on the transport are the requests that were answered on it, then the current
request up to its write offset. -/
def StreamsWhole (c : Connection) : Prop :=
  c.log.written = wholes c.log.replaced ++ c.request.take c.writeOffset

/-- The transport was opened for a request from its start, and each request that made room for
the next one had been written completely. -/
def WritesOut (c : Connection) : Prop := c.log.openedAt = 0 ∧ Whole c.log.replaced

instance (c : Connection) : Decidable c.StreamsWhole :=
  inferInstanceAs (Decidable (c.log.written =
    wholes c.log.replaced ++ c.request.take c.writeOffset))

/-- The requests that the transport carried, with what was written of them. -/
def carried (c : Connection) : List (List UInt8 × ℕ) :=
  c.log.replaced ++ [(c.request, c.writeOffset)]

/-- What is on the transport in any case. -/
structure Streams (c : Connection) : Prop where
  within : Within c.carried
  opened_le : c.log.openedAt ≤ (parts c.carried).length
  written_eq : c.log.written = (parts c.carried).drop c.log.openedAt

variable {c c' : Connection}

theorem Streams.of_same (h : c.Streams) (hlog : c'.log = c.log) (hrequest : c'.request = c.request)
    (hoffset : c'.writeOffset = c.writeOffset) : c'.Streams := by
  have hcarried : c'.carried = c.carried := by rw [carried, carried, hlog, hrequest, hoffset]
  exact ⟨hcarried ▸ h.within, by rw [hcarried, hlog]; exact h.opened_le,
    by rw [hcarried, hlog]; exact h.written_eq⟩

theorem streams_opened {writeOffset : ℕ} (hlog : c.log = ⟨writeOffset, [], []⟩)
    (hoffset : c.writeOffset = writeOffset) (hle : writeOffset ≤ c.request.length) : c.Streams := by
  have hcarried : c.carried = [(c.request, writeOffset)] := by
    rw [carried, hlog, hoffset]
    rfl
  refine ⟨?_, ?_, ?_⟩
  · rw [hcarried]
    exact List.forall_mem_singleton.mpr hle
  · rw [hcarried, hlog]
    simp [parts, hle]
  · rw [hcarried, hlog]
    simp [parts]

theorem Streams.advance (h : c.Streams) {now n : ℕ} (hle : c.writeOffset + n ≤ c.request.length) :
    (c.advanceOffset now n).Streams := by
  have hparts : parts (c.advanceOffset now n).carried =
      parts c.carried ++ (c.request.drop c.writeOffset).take n := by
    rw [carried, carried, parts_append, parts_append, List.append_assoc, ← List.take_add]
    rfl
  refine ⟨?_, ?_, ?_⟩
  · have hwithin := h.within
    rw [Within, carried, List.forall_mem_append, List.forall_mem_singleton] at hwithin ⊢
    exact ⟨hwithin.1, hle⟩
  · rw [hparts, List.length_append]
    exact h.opened_le.trans (Nat.le_add_right _ _)
  · have hwritten : (c.advanceOffset now n).log.written =
        c.log.written ++ (c.request.drop c.writeOffset).take n := rfl
    rw [hparts, hwritten, h.written_eq]
    exact (List.drop_append_of_le_length h.opened_le).symm

theorem Streams.next (h : c.Streams) (drawn : Drawn) :
    (unstart (install drawn (rewind c))).Streams := by
  have hcarried : (unstart (install drawn (rewind c))).carried =
      c.carried ++ [(drawn.request, 0)] := rfl
  have hparts : parts (c.carried ++ [(drawn.request, 0)]) = parts c.carried := by
    rw [parts_append, List.take_zero, List.append_nil]
  refine ⟨?_, ?_, ?_⟩
  · rw [hcarried, Within, List.forall_mem_append, List.forall_mem_singleton]
    exact ⟨h.within, Nat.zero_le _⟩
  · rw [hcarried, hparts]
    exact h.opened_le
  · rw [hcarried, hparts]
    exact h.written_eq

theorem Streams.offset_le (h : c.Streams) : c.writeOffset ≤ c.request.length :=
  h.within (c.request, c.writeOffset) (List.mem_append_right _ List.mem_cons_self)

theorem log_attempts (tried made limited : ℕ) (c : Connection) :
    (attempts tried made limited c).log = c.log := by
  have hfold : ∀ l, List.foldr Happening.record l (List.replicate tried .attempted) = l := by
    intro l
    induction tried with
    | zero => rfl
    | succ tried ih => exact ih
  rw [log, attempts, List.foldr_append, hfold]
  rfl

theorem invariant_streams : Connection.Invariant fun _ c => c.Streams where
  time t t' c _ h := h
  move t c c' h hmove := by
    cases hmove with
    | watch interest => exact h.of_same rfl rfl rfl
    | hear data eof =>
      rw [Connection.hear]
      split
      · exact h.of_same rfl rfl rfl
      · exact h.of_same rfl rfl rfl
    | awaitPace hpace hearly =>
      rw [Connection.awaitPace]
      split
      · exact h
      · exact h.of_same rfl rfl rfl
    | begin hpace =>
      rw [Connection.begin]
      split
      · exact h.of_same rfl rfl rfl
      · exact h.of_same rfl rfl rfl
    | advance hstarted hpos hle => exact h.advance hle
    | @attempts tried made limited hspends =>
      exact h.of_same (log_attempts tried made limited c) rfl rfl
    | clearReadBytes => exact h.of_same rfl rfl rfl
    | clearRecoveryAttempts => exact h.of_same rfl rfl rfl
    | defer hstarted hpace => exact h.of_same rfl rfl rfl
    | finish => exact h.of_same rfl rfl rfl
    | opened hassign addressIndex =>
      cases hassign with
      | next => exact streams_opened rfl rfl h.offset_le
      | retry => exact streams_opened rfl rfl h.offset_le
      | recover => exact streams_opened rfl rfl (Nat.zero_le _)
      | resume hre => exact streams_opened rfl rfl h.offset_le
    | answer hdata hdecoded =>
      rw [Connection.hear]
      split
      · exact h.of_same rfl rfl rfl
      · exact h.of_same rfl rfl rfl
    | next drawn => exact h.next drawn
  connected addresses limit tls drawn addressIndex t := streams_opened rfl rfl (Nat.zero_le _)

/-- The bytes are whole requests exactly where each was written out. -/
theorem Streams.whole_iff (h : c.Streams) : c.StreamsWhole ↔ c.WritesOut := by
  have hparts : parts c.carried = parts c.log.replaced ++ c.request.take c.writeOffset :=
    parts_append _ _
  rw [StreamsWhole, h.written_eq, hparts]
  constructor
  · intro heq
    have hlength := congrArg List.length heq
    have hle := length_parts_le c.log.replaced
    have hopened := h.opened_le
    simp only [hparts, List.length_drop, List.length_append] at hlength hopened
    have hwithin := h.within
    rw [Within, carried, List.forall_mem_append] at hwithin
    exact ⟨by omega, whole_of_length_eq hwithin.1 (by omega)⟩
  · rintro ⟨hopened, hwhole⟩
    rw [hopened, List.drop_zero, parts_of_whole hwhole]

end Connection

namespace RunInput

/-- In every run the bytes on the transport of a connection are the requests that were
answered on it and the written part of the current one if and only if each of them had been
written completely. -/
theorem streams_whole_iff (input : RunInput) (schedule : List ℕ) :
    ∀ w ∈ (input.after schedule).components, ∀ c ∈ w.connections,
      c.StreamsWhole ↔ c.WritesOut :=
  fun w hw c hc => (input.forall_connection invariant_streams schedule w hw c hc).whole_iff

theorem streams_whole_iff_sample :
    (promptRun.after (List.replicate 13 0)).components.length = 1 ∧
      ∀ w ∈ (promptRun.after (List.replicate 13 0)).components, ∀ c ∈ w.connections,
        c.StreamsWhole ∧ c.WritesOut := by
  have hwhole : (promptRun.after (List.replicate 13 0)).components.length = 1 ∧
      ∀ w ∈ (promptRun.after (List.replicate 13 0)).components, ∀ c ∈ w.connections,
        c.StreamsWhole := by
    decide +kernel
  refine ⟨hwhole.1, fun w hw c hc => ⟨hwhole.2 w hw c hc, ?_⟩⟩
  exact (streams_whole_iff promptRun _ w hw c hc).mp (hwhole.2 w hw c hc)

/-- A server that answers after the first five bytes of each request. -/
def hastyRun : RunInput :=
  plain (.requests 2) 1 (.inOrder [getRoot]) none fun _ => { promptReply with writes := [.ok 5] }

/-- The second request begins while most of the first is not sent. -/
theorem streams_cut_short :
    ¬ ∀ (input : RunInput) (schedule : List ℕ), input.prepared.config.validate = .ok () →
      ∀ w ∈ (input.after schedule).components, ∀ c ∈ w.connections, c.StreamsWhole := by
  intro h
  have hwhole := h hastyRun (List.replicate 6 0) rfl
  exact absurd hwhole (by decide +kernel)

end RunInput

end Rload
