import Rload.SharedResource
import Mathlib.Data.List.Induction

/-!
# Observed runs

In an observed run each component keeps what its steps have shown, the newest first. The run
itself is the same, so that an invariant may speak of all that was seen on the way.
-/

namespace Rload.SharedResource

variable {α σ β : Type} (step : α → σ → α × σ) (look : α → σ → List β)

/-- A step, with what is seen of it. -/
def observedStep (a : α × List β) (s : σ) : (α × List β) × σ :=
  (((step a.1 s).1, look a.1 s ++ a.2), (step a.1 s).2)

/-- Nothing is seen yet. -/
def unseen (e : SharedResource α σ) : SharedResource (α × List β) σ where
  components := e.components.map fun a => (a, [])
  shared := e.shared

def forget (e : SharedResource (α × List β) σ) : SharedResource α σ where
  components := e.components.map Prod.fst
  shared := e.shared

def observedRun (e : SharedResource α σ) (schedule : List ℕ) : SharedResource (α × List β) σ :=
  run (observedStep step look) e.unseen schedule

theorem forget_unseen (e : SharedResource α σ) : (e.unseen (β := β)).forget = e := by
  cases e with
  | mk components shared =>
    refine congrArg (SharedResource.mk · shared) ?_
    rw [unseen, List.map_map]
    exact List.map_id _

theorem forget_turn (e : SharedResource (α × List β) σ) (i : ℕ) :
    (turn (observedStep step look) e i).forget = turn step e.forget i := by
  rw [turn, turn, forget, forget, List.getElem?_map]
  cases e.components[i]? with
  | none => rfl
  | some a =>
    refine congrArg (SharedResource.mk · _) ?_
    exact List.map_set

theorem forget_run (e : SharedResource (α × List β) σ) (schedule : List ℕ) :
    (run (observedStep step look) e schedule).forget = run step e.forget schedule := by
  induction schedule generalizing e with
  | nil => rfl
  | cons i schedule ih => rw [run_cons, run_cons, ih, forget_turn]

/-- Nothing but the looks is added. -/
theorem forget_observedRun (e : SharedResource α σ) (schedule : List ℕ) :
    (observedRun step look e schedule).forget = run step e schedule := by
  rw [observedRun, forget_run, forget_unseen]

/-- What each component has to do with what was seen of it. -/
theorem forall_observed {P : α → List β → Prop}
    (hstep : ∀ a s seen, P a seen → P (step a s).1 (look a s ++ seen))
    {e : SharedResource α σ} (he : ∀ a ∈ e.components, P a []) (schedule : List ℕ) :
    ∀ a ∈ (observedRun step look e schedule).components, P a.1 a.2 := by
  apply forall_run (observedStep step look) (P := fun a => P a.1 a.2)
  · intro a s h
    exact hstep a.1 s a.2 h
  · intro a ha
    rw [unseen, List.mem_map] at ha
    obtain ⟨a, hmem, rfl⟩ := ha
    exact he a hmem

/-- What was seen was seen in some turn. -/
theorem exists_look {e : SharedResource α σ} {schedule : List ℕ} {a : α × List β}
    (ha : a ∈ (observedRun step look e schedule).components) {b : β} (hb : b ∈ a.2) :
    ∃ before i a', before ++ [i] <+: schedule ∧ (run step e before).components[i]? = some a' ∧
      b ∈ look a' (run step e before).shared := by
  induction schedule using List.reverseRecOn generalizing a with
  | nil =>
    obtain ⟨a, -, rfl⟩ := List.mem_map.mp ha
    cases hb
  | append_singleton schedule i ih =>
    have earlier : ∀ a ∈ (observedRun step look e schedule).components, b ∈ a.2 →
        ∃ before j a', before ++ [j] <+: schedule ++ [i] ∧
          (run step e before).components[j]? = some a' ∧
          b ∈ look a' (run step e before).shared := by
      intro a ha hb
      obtain ⟨before, j, a', hbefore, hlook⟩ := ih ha hb
      exact ⟨before, j, a', hbefore.trans (List.prefix_append schedule [i]), hlook⟩
    have hforget := forget_observedRun step look e schedule
    rw [observedRun, run, List.foldl_append] at ha
    change a ∈ (turn (observedStep step look) (observedRun step look e schedule) i).components at ha
    rw [turn] at ha
    cases hi : (observedRun step look e schedule).components[i]? with
    | none =>
      rw [hi] at ha
      exact earlier a ha hb
    | some a₀ =>
      rw [hi] at ha
      cases List.mem_or_eq_of_mem_set ha with
      | inl hmem => exact earlier a hmem hb
      | inr heq =>
        subst heq
        cases List.mem_append.mp hb with
        | inl hnew =>
          refine ⟨schedule, i, a₀.1, List.prefix_rfl, ?_, ?_⟩
          · rw [← hforget, forget, List.getElem?_map, hi]
            rfl
          · rw [← hforget]
            exact hnew
        | inr hold => exact earlier a₀ (List.mem_of_getElem? hi) hold

end Rload.SharedResource
