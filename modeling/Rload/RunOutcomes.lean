import Rload.RequestAccounting

/-!
# What a run returns

A run returns once each of its workers has returned, and what it counts is the sum of what
they count.
-/

namespace Rload

variable {M : Type*} [AddCommMonoid M]

/-- A count of a summary that a merge adds up. -/
structure RunSummary.Additive (f : RunSummary → M) : Prop where
  empty : f {} = 0
  merge : ∀ s other, f (s.merge other) = f s + f other
  complete : ∀ prepared s, f (completeSummary prepared s) = f s

theorem mergeAll_sum {f : RunSummary → M} (hf : RunSummary.Additive f) {g : Worker → M}
    {ws : List Worker} (hg : ∀ w ∈ ws, ∀ s, w.phase = .finished (.ok s) → f s = g w)
    {results : List (Except RunError RunSummary)} (hresults : ws.mapM Worker.result? = some results)
    {summary merged : RunSummary} (hmerge : mergeAll summary results = .ok merged) :
    f merged = f summary + (ws.map g).sum ∧ ∀ w ∈ ws, ∃ s, w.phase = .finished (.ok s) := by
  induction ws generalizing results summary with
  | nil =>
    cases hresults
    cases hmerge
    exact ⟨(add_zero _).symm, fun w hw => absurd hw List.not_mem_nil⟩
  | cons w ws ih =>
    have hall := forall₂_mapM hresults
    cases results with
    | nil => cases hall
    | cons result results =>
      rw [List.forall₂_cons] at hall
      obtain ⟨hresult, hall⟩ := hall
      have hrest : ws.mapM Worker.result? = some results := by
        rw [List.mapM_cons, hresult] at hresults
        cases hws : ws.mapM Worker.result? with
        | none =>
          rw [hws] at hresults
          cases hresults
        | some results' =>
          rw [hws] at hresults
          cases hresults
          rfl
      cases result with
      | error e => cases hmerge
      | ok s =>
        have hphase := Worker.phase_of_result hresult
        obtain ⟨hsum, hreturned⟩ :=
          ih (fun w' hw' => hg w' (List.mem_cons_of_mem w hw')) hrest hmerge
        refine ⟨?_, List.forall_mem_cons.mpr ⟨⟨s, hphase⟩, hreturned⟩⟩
        rw [hsum, hf.merge, hg w List.mem_cons_self s hphase, List.map_cons, List.sum_cons,
          add_assoc]

namespace LoadRun

variable {prepared : PreparedRun} {r : LoadRun} {summary : RunSummary}

/-- The count of a run is the sum over its workers. -/
theorem outcome_sum {f : RunSummary → M} (hf : RunSummary.Additive f) {g : Worker → M}
    (h : r.outcome prepared = some (.ok summary))
    (hg : ∀ w ∈ r.components, ∀ s, w.phase = .finished (.ok s) → f s = g w) :
    f summary = (r.components.map g).sum ∧
      ∀ w ∈ r.components, ∃ s, w.phase = .finished (.ok s) := by
  unfold outcome at h
  cases hresults : r.components.mapM Worker.result? with
  | none =>
    rw [hresults] at h
    cases h
  | some results =>
    rw [hresults] at h
    cases hmerge : mergeAll {} results with
    | error e =>
      rw [Option.map_some, hmerge] at h
      cases h
    | ok merged =>
      rw [Option.map_some, hmerge] at h
      cases h
      obtain ⟨hsum, hreturned⟩ := mergeAll_sum hf hg hresults hmerge
      refine ⟨?_, hreturned⟩
      rw [hf.complete, hsum, hf.empty, zero_add]

end LoadRun

namespace Worker

theorem invariant_returned :
    Invariant fun w => ∀ s, w.phase = .finished (.ok s) → s = w.summary where
  sharing w sequence h := h
  move w w' hrunning h hmove := by
    intro s hs
    cases hmove with
    | halted hhalts =>
      rw [hhalts.phase_eq] at hs
      cases hs
    | ranOut hphase =>
      cases hs
      rfl
    | ended hphase =>
      cases hs
      rfl
    | idled hidles =>
      have hloops := hidles.loops_after
      rw [hs] at hloops
      cases hloops
    | @handled w₁ token c d hidles =>
      have hloops := hidles.loops_after
      rw [show w₁.phase = _ from hs] at hloops
      cases hloops
    | @expired w₁ token now t c d hidles =>
      have hloops := hidles.loops_after
      rw [show w₁.phase = _ from hs] at hloops
      cases hloops
    | _ => cases hs

end Worker

/-- The count of a run is the sum over the summaries of its workers, which have all returned. -/
theorem RunInput.outcome_sum (input : RunInput) {f : RunSummary → M}
    (hf : RunSummary.Additive f) (schedule : List ℕ) {summary : RunSummary}
    (h : (input.after schedule).outcome input.prepared = some (.ok summary)) :
    f summary = ((input.after schedule).components.map fun w => f w.summary).sum ∧
      ∀ w ∈ (input.after schedule).components, ∃ s, w.phase = .finished (.ok s) := by
  apply LoadRun.outcome_sum hf h
  have hreturned := input.forall_worker Worker.invariant_returned
    (fun limits _ worker s hs => by cases hs) schedule
  intro w hw s hs
  rw [hreturned w hw s hs]

end Rload
