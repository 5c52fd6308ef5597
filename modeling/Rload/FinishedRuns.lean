import Rload.CompletedRounds
import Rload.EndedRuns
import Rload.EndlessSchedules
import Rload.PanicFreeRuns

/-!
# Runs that finish

A run without a pacer comes to its result, whatever its server does and however its workers take
turns, if time passes for the workers that have not ended. No further turn changes the result.
-/

namespace Rload

/-- The deadlines of some limits are over at some time. -/
theorem exists_last (limits : List ConnectionLimit) :
    ∃ last, ∀ limit ∈ limits, ∀ deadline, limit = .deadline deadline → deadline ≤ last := by
  induction limits with
  | nil => exact ⟨0, List.forall_mem_nil _⟩
  | cons limit limits ih =>
    obtain ⟨last, hlast⟩ := ih
    refine ⟨max (limit.deadline?.getD 0) last, List.forall_mem_cons.mpr ⟨?_, ?_⟩⟩
    · rintro deadline rfl
      exact le_max_left _ _
    · intro limit' hmem deadline hlimit
      exact (hlast limit' hmem deadline hlimit).trans (le_max_right _ _)

namespace Worker

variable {w : Worker}

theorem shareStep_phase (h : w.phase.isFinished = true) (sequence : RequestSequence) :
    (w.shareStep sequence).1.phase = w.phase := by
  have hsharing : (w.sharing sequence).phase.isFinished = true := h
  have hstep := step_of_finished hsharing
  show (w.sharing sequence).step.phase = w.phase
  rw [hstep]
  rfl

theorem shareStep_result (h : w.phase.isFinished = true) (sequence : RequestSequence) :
    (w.shareStep sequence).1.result? = w.result? := by
  rw [result?, shareStep_phase h, result?]

/-- A worker that has ended, but not by running forever, has a result. -/
theorem isSome_result (h : w.phase.isFinished = true)
    (hends : w.phase ≠ .finished (.error .diverge)) : w.result?.isSome := by
  unfold result?
  cases hphase : w.phase with
  | finished result =>
    cases result with
    | ok summary => rfl
    | error halt =>
      cases halt with
      | error e => rfl
      | panic message => rfl
      | diverge => exact absurd hphase hends
  | _ =>
    rw [hphase] at h
    cases h

end Worker

namespace RunInput

variable (input : RunInput)

/-- The run after the first `k` turns of an endless schedule. -/
def atTurn (schedule : ℕ → ℕ) (k : ℕ) : LoadRun := input.after ((List.range k).map schedule)

/-- Every time passes for each worker that does not end before. -/
def TimePasses (schedule : ℕ → ℕ) : Prop :=
  ∀ bound, ∃ k, ∀ w ∈ (input.atTurn schedule k).components,
    w.phase.isFinished = true ∨ bound ≤ w.world.clock

/-- No draw runs forever. -/
def DrawsReturn : Prop :=
  ∀ s, input.prepared.sequence.Reaches s → ∀ now, s.next now ≠ .error .diverge

variable {input} {schedule : ℕ → ℕ}

theorem invariant_some_limits : Worker.Invariant fun w => ∃ limits ∈ input.limits,
    (w.connections.map (·.limit) ++ w.phase.pending).Sublist limits where
  sharing w sequence h := by
    obtain ⟨limits, hmem, hsublist⟩ := h
    exact ⟨limits, hmem, (Worker.invariant_limits limits).sharing w sequence hsublist⟩
  move w w' hrunning h hmove := by
    obtain ⟨limits, hmem, hsublist⟩ := h
    exact ⟨limits, hmem, (Worker.invariant_limits limits).move w w' hrunning hsublist hmove⟩

theorem exists_onTime (hunpaced : input.prepared.sequence.Unpaced) :
    ∃ last, ∀ turns, ∀ w ∈ (input.after turns).components, w.OnTime last := by
  obtain ⟨last, hlast⟩ := exists_last input.limits.flatten
  refine ⟨last, fun turns w hw => ?_⟩
  obtain ⟨hpaced, htimekeeping⟩ := input.timekeeping turns w hw
  refine ⟨hpaced, htimekeeping, ?_, input.inOrder turns w hw,
    (input.unpaced hunpaced turns).2 w hw, ?_⟩
  · exact input.forall_worker Worker.invariant_tallies
      (fun limits _ worker => Worker.tallies_new _ _ _ _ _) turns w hw
  · obtain ⟨limits, hmem, hsublist⟩ := input.forall_worker invariant_some_limits
      (fun limits hmem worker => ⟨limits, hmem, List.Sublist.refl _⟩) turns w hw
    intro limit hlimit
    exact hlast limit (List.mem_flatten.mpr ⟨limits, hmem, hsublist.subset hlimit⟩)

/-- The path of a worker. -/
abbrev IsPath (input : RunInput) (schedule : ℕ → ℕ) (i : ℕ) (x : ℕ → Worker) : Prop :=
  SharedResource.IsPath Worker.shareStep input.start schedule i x

theorem endlessRun_of_isPath {last i : ℕ} {x : ℕ → Worker} (h : input.IsPath schedule i x)
    (hunpaced : input.prepared.sequence.Unpaced)
    (honTime : ∀ turns, ∀ w ∈ (input.after turns).components, w.OnTime last)
    (hpasses : input.TimePasses schedule) :
    EndlessRun (Worker.Steps last) (·.world.clock) (·.phase.isFinished = true) x where
  next k := by
    refine (h.next k).imp_right fun hmoves => ⟨honTime _ _ (h.mem_components k), _, ?_, hmoves⟩
    exact (input.unpaced hunpaced ((List.range k).map schedule)).1
  passes bound k := by
    obtain ⟨j, hj⟩ := hpasses bound
    refine ⟨max j k, le_max_right j k, ?_⟩
    refine h.keeps (P := fun w => w.phase.isFinished = true ∨ bound ≤ w.world.clock) ?_
      (le_max_left j k) (hj _ (h.mem_components j))
    rintro w sequence (hfinished | hbound)
    · exact Or.inl (Worker.shareStep_phase hfinished sequence ▸ hfinished)
    · exact Or.inr (hbound.trans (w.sharing sequence).step_clock_le)

theorem early_of_isPath {i : ℕ} {x : ℕ → Worker} (h : input.IsPath schedule i x) :
    (x 0).Early := by
  have hmem : x 0 ∈ input.start.components := h.mem_components 0
  rw [start_components, List.mem_map] at hmem
  obtain ⟨⟨limits, worker⟩, -, hnew⟩ := hmem
  rw [← hnew]
  trivial

theorem exists_finished (hunpaced : input.prepared.sequence.Unpaced)
    (hpasses : input.TimePasses schedule) :
    ∃ n, ∀ m, n ≤ m → ∀ w ∈ (input.atTurn schedule m).components,
      w.phase.isFinished = true := by
  obtain ⟨last, honTime⟩ := exists_onTime hunpaced
  refine SharedResource.exists_forall_components (fun w sequence hfinished => ?_)
    fun i x hx => ?_
  · rw [Worker.shareStep_phase hfinished]
    exact hfinished
  · have hrun := endlessRun_of_isPath hx hunpaced honTime hpasses
    obtain ⟨k, -, hk⟩ := Worker.early_leadsTo hrun 0 (early_of_isPath hx)
    exact ⟨k, hk⟩

theorem results_atTurn {n : ℕ} (hfinished : ∀ m, n ≤ m →
      ∀ w ∈ (input.atTurn schedule m).components, w.phase.isFinished = true)
    {m : ℕ} (hm : n ≤ m) :
    (input.atTurn schedule m).components.map Worker.result? =
      (input.atTurn schedule n).components.map Worker.result? := by
  induction m, hm using Nat.le_induction with
  | base => rfl
  | succ m hm ih =>
    have hturn : input.atTurn schedule (m + 1) =
        (input.atTurn schedule m).turn Worker.shareStep (schedule m) :=
      SharedResource.atTurn_succ
    rw [hturn, SharedResource.map_turn, ih]
    exact fun w hw sequence => Worker.shareStep_result (hfinished m hm w hw) sequence

theorem outcome_eq (prepared : PreparedRun) (r : LoadRun) : r.outcome prepared =
    ((r.components.map Worker.result?).mapM id).map fun results =>
      (mergeAll {} results).map (completeSummary prepared) := by
  rw [LoadRun.outcome, List.mapM_map]
  rfl

theorem sound_of_drawsReturn {options : ReplayOptions}
    (hready : input.prepared.sequence.Ready options) (hdraws : input.DrawsReturn) :
    input.prepared.sequence.Sound (· ≠ .diverge) := by
  intro s hreach now
  refine ⟨(hready.sound s hreach now).1, fun halt hnext hdiverge => ?_⟩
  rw [hdiverge] at hnext
  exact hdraws s hreach now hnext

/-- Draws in the order of the entries return. -/
theorem drawsReturn_of_sequential {options : ReplayOptions}
    (hready : input.prepared.sequence.Ready options) (horder : options.order = .sequential) :
    input.DrawsReturn := by
  intro s hreach now hdiverge
  obtain ⟨hrandom, -⟩ | ⟨-, hpanic⟩ | ⟨-, hpanic⟩ := (hready.sound s hreach now).2 _ hdiverge
  · exact hrandom horder
  · cases hpanic
  · cases hpanic

/-- A run without a pacer comes to a result and keeps it, whatever the outside answers, if time
passes for the workers that go on and no draw runs forever. -/
theorem unpaced_runs_finish (input : RunInput) {t : Target} {config : RunConfig} {method : Method}
    {request : RequestInput} {seed : UInt64} {now : ℕ} (hchecked : request.Checked t)
    (hprepared : prepareRun t config method request seed now = .ok (some input.prepared))
    (hunpaced : input.prepared.sequence.Unpaced) (hdraws : input.DrawsReturn)
    {schedule : ℕ → ℕ} (hpasses : input.TimePasses schedule) :
    ∃ n result, ∀ m, n ≤ m →
      (input.atTurn schedule m).outcome input.prepared = some result := by
  obtain ⟨n, hfinished⟩ := exists_finished hunpaced hpasses
  have hsound := sound_of_drawsReturn (ready_prepareRun hchecked hprepared) hdraws
  have hsome : ∀ w ∈ (input.atTurn schedule n).components, w.result?.isSome = true := by
    intro w hw
    obtain ⟨-, hworkers⟩ := input.intact hsound ((List.range n).map schedule)
    refine Worker.isSome_result (hfinished n le_rfl w hw) fun hdiverge => ?_
    obtain herror | hallowed := (hworkers w hw).halted _ hdiverge
    · cases herror
    · exact hallowed rfl
  have hresults : ∃ results, (input.atTurn schedule n).components.mapM Worker.result? =
      some results := by
    rw [JsonDocuments.mapM_eq_ite, if_pos hsome]
    exact ⟨_, rfl⟩
  obtain ⟨results, hresults⟩ := hresults
  refine ⟨n, (mergeAll {} results).map (completeSummary input.prepared), fun m hm => ?_⟩
  rw [outcome_eq, results_atTurn hfinished hm, ← outcome_eq, LoadRun.outcome, hresults]
  rfl

/-- The request of the log to a server that answers at once. -/
def servedRun : RunInput :=
  { unservedRun with surroundings := fun _ _ => { promptReply with writes := [.ok 51] } }

theorem unpaced_runs_finish_sample : ∃ n result, ∀ m, n ≤ m →
    (servedRun.atTurn (fun _ => 0) m).outcome servedRun.prepared = some result := by
  have hchecked : (RequestInput.replay [oneLineRequest] {} none 0).Checked hostTarget :=
    ⟨List.cons_ne_nil _ _, List.forall_mem_singleton.mpr (by decide), nofun, nofun⟩
  have hprepared : prepareRun hostTarget servedRun.prepared.config .get
      (.replay [oneLineRequest] {} none 0) 0 0 = .ok (some servedRun.prepared) := rfl
  have hends : ∀ w ∈ (servedRun.atTurn (fun _ => 0) 9).components,
      w.phase.isFinished = true := by
    decide +kernel
  have hreturns := drawsReturn_of_sequential (ready_prepareRun hchecked hprepared) rfl
  exact unpaced_runs_finish servedRun hchecked hprepared ⟨rfl, rfl, rfl⟩ hreturns
    fun bound => ⟨9, fun w hw => Or.inl (hends w hw)⟩

end RunInput

end Rload
