import Rload.RunInputs
import Rload.SoundWorkers
import Rload.WrittenBytes

/-!
# Runs without panics

However a run was started, whatever its server does and however its workers take turns, a worker
that does not finish has ended by an error of the library. The exceptions are random orders, whose
random numbers might never get to a bound, gaps between timestamps that are no duration, and
pacers that get to the last instant.
-/

namespace Rload.RunInput

variable (input : RunInput)

/-- Where the sequence is ready, no worker panics and what it needs is there. -/
theorem safe_of_ready {options : ReplayOptions} (hready : input.prepared.sequence.Ready options)
    (schedule : List ℕ) :
    (∀ w ∈ (input.after schedule).components,
      (∀ halt, w.phase = .finished (.error halt) →
        (∃ e, halt = .error e) ∨ options.MayHalt halt) ∧
      ∀ c ∈ w.connections, c.writeOffset ≤ c.request.length ∧ IsText c.request c.uri) ∧
    (input.after schedule).shared.Ready options := by
  obtain ⟨-, hworkers⟩ := input.intact hready.sound schedule
  refine ⟨fun w hw => ⟨fun halt hphase => ?_, fun c hc => ⟨?_, ?_⟩⟩, ?_⟩
  · refine ((hworkers w hw).halted halt hphase).imp_left fun hexpected => ?_
    cases halt with
    | error e => exact ⟨e, rfl⟩
    | panic message => cases hexpected
    | diverge => cases hexpected
  · exact (input.forall_connection Connection.invariant_streams schedule w hw c hc).offset_le
  · exact ((hworkers w hw).connections c hc).text
  · exact hready.reaches (input.shared_reach schedule)

/-- Workers end by errors of the library alone, and what they index and slice is there: the rest of
a request, the text of its URI, and all that the next draw needs. -/
theorem no_worker_panics {t : Target} {config : RunConfig} {method : Method}
    {request : RequestInput} {seed : UInt64} {now : ℕ} (hchecked : request.Checked t)
    (hprepared : prepareRun t config method request seed now = .ok (some input.prepared))
    (schedule : List ℕ) :
    (∀ w ∈ (input.after schedule).components,
      (∀ halt, w.phase = .finished (.error halt) →
        (∃ e, halt = .error e) ∨ request.options.MayHalt halt) ∧
      ∀ c ∈ w.connections, c.writeOffset ≤ c.request.length ∧ IsText c.request c.uri) ∧
    (input.after schedule).shared.Ready request.options :=
  input.safe_of_ready (ready_prepareRun hchecked hprepared) schedule

/-- The request of a log with one line. -/
def oneLineRequest : ReplayRequest := ⟨.get, ['/'], none, some 971211336000000⟩

/-- The request of that log, to a server on a host without polls. -/
def unservedRun : RunInput where
  prepared := {
    config := { limit := .requests 1, connections := 1, threads := 1, timeout := 10 ^ 9 }
    sequence := .inOrder [hostTarget.encodedReplayRequest oneLineRequest]
    filteredReplayEntries := 0
    replayRate := none
    replayEntries := 1
    configuredReplayRounds := none }
  addresses := [{ ip := 0, port := 80 }]
  tls := false
  surroundings := fun _ _ => { fault := some ⟨.other, "too many open files"⟩ }
  started := 0

theorem no_worker_panics_sample :
    RequestInput.ofAccessLog true (.ok AccessLog.rootLog) {} none ⟨[], []⟩ =
      .ok (.replay [oneLineRequest] {} none 0) ∧
    ∀ w ∈ (unservedRun.after [0]).components, ∀ halt, w.phase = .finished (.error halt) →
      ∃ e, halt = .error e := by
  have hread : RequestInput.ofAccessLog true (.ok AccessLog.rootLog) {} none ⟨[], []⟩ =
      .ok (.replay [oneLineRequest] {} none 0) := by
    have hlog : AccessLog.read true (.ok AccessLog.rootLog) = .ok ⟨[oneLineRequest], 0⟩ := by
      decide +kernel
    rw [RequestInput.ofAccessLog, hlog]
    rfl
  have hchecked : (RequestInput.replay [oneLineRequest] {} none 0).Checked hostTarget :=
    ⟨List.cons_ne_nil _ _, List.forall_mem_singleton.mpr (by decide), nofun, nofun⟩
  have hprepared : prepareRun hostTarget unservedRun.prepared.config .get
      (.replay [oneLineRequest] {} none 0) 0 0 = .ok (some unservedRun.prepared) := rfl
  have hpanics := no_worker_panics unservedRun hchecked hprepared [0]
  refine ⟨hread, fun w hw halt hphase => ?_⟩
  obtain herror | ⟨horder, -⟩ | ⟨htimestamps, -⟩ | ⟨hpaced, -⟩ := (hpanics.1 w hw).1 halt hphase
  · exact herror
  · exact absurd rfl horder
  · cases htimestamps
  · simp [ReplayOptions.IsPaced, RequestInput.options] at hpaced

end Rload.RunInput
