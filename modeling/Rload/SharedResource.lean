import Mathlib.Data.List.Basic
import Mathlib.Algebra.BigOperators.Group.List.Basic

/-!
# Components that take turns on a shared resource

A system of components and one shared value. In a turn one component makes its step, which
reads and writes the shared value; a schedule says whose turn it is, and every schedule is an
interleaving. What holds of each component, and what the components have in sum, is shown for
all schedules by a look at a single step.
-/

namespace Rload

/-- The components in their order, and what they share. -/
structure SharedResource (α σ : Type) where
  components : List α
  shared : σ

namespace SharedResource

variable {α σ : Type} (step : α → σ → α × σ)

def turn (e : SharedResource α σ) (i : ℕ) : SharedResource α σ :=
  match e.components[i]? with
  | none => e
  | some a => ⟨e.components.set i (step a e.shared).1, (step a e.shared).2⟩

def run (e : SharedResource α σ) (schedule : List ℕ) : SharedResource α σ :=
  schedule.foldl (turn step) e

@[simp] theorem run_cons (e : SharedResource α σ) (i : ℕ) (schedule : List ℕ) :
    run step e (i :: schedule) = run step (turn step e i) schedule := rfl

/-- The invariant rule: a turn of each component keeps `I`. -/
theorem run_invariant {I : SharedResource α σ → Prop}
    (hstep : ∀ e i a, I e → e.components[i]? = some a →
      I ⟨e.components.set i (step a e.shared).1, (step a e.shared).2⟩)
    {e : SharedResource α σ} (he : I e) (schedule : List ℕ) : I (run step e schedule) := by
  induction schedule generalizing e with
  | nil => exact he
  | cons i schedule ih =>
    apply ih
    rw [turn]
    cases ha : e.components[i]? with
    | none => exact he
    | some a => exact hstep e i a he ha

/-- What each step keeps of its own component, whatever is shared. -/
theorem forall_run {P : α → Prop} (hstep : ∀ a s, P a → P (step a s).1)
    {e : SharedResource α σ} (he : ∀ a ∈ e.components, P a) (schedule : List ℕ) :
    ∀ a ∈ (run step e schedule).components, P a := by
  apply run_invariant (I := fun e => ∀ a ∈ e.components, P a) step _ he
  intro e i a he ha b hb
  cases List.mem_or_eq_of_mem_set hb with
  | inl h => exact he b h
  | inr h => exact h ▸ hstep a e.shared (he a (List.mem_of_getElem? ha))

/-- The components stay in their places. -/
theorem forall₂_run {β : Type} {R : α → β → Prop} (hstep : ∀ a s b, R a b → R (step a s).1 b)
    {e : SharedResource α σ} {bs : List β} (he : List.Forall₂ R e.components bs)
    (schedule : List ℕ) : List.Forall₂ R (run step e schedule).components bs := by
  apply run_invariant (I := fun e => List.Forall₂ R e.components bs) step _ he
  intro e i a he ha
  rw [List.forall₂_iff_get] at he ⊢
  obtain ⟨hlen, hget⟩ := he
  refine ⟨by rw [List.length_set, hlen], ?_⟩
  intro j hj hj'
  rw [List.length_set] at hj
  obtain ⟨hi, hai⟩ := List.getElem?_eq_some_iff.mp ha
  have h := hget j hj hj'
  simp only [List.get_eq_getElem, List.getElem_set] at h ⊢
  split
  · rename_i hij
    subst hij
    exact hstep a e.shared _ (hai ▸ h)
  · exact h

/-- The condition holds before each turn of the schedule. -/
def everyTurn (p : α → σ → Bool) : SharedResource α σ → List ℕ → Bool
  | _, [] => true
  | e, i :: schedule =>
    e.components[i]?.all (p · e.shared) && everyTurn p (turn step e i) schedule

/-- What each step keeps of its own component, if the condition holds before it. -/
theorem forall_everyTurn {P : α → Prop} {p : α → σ → Bool}
    (hstep : ∀ a s, p a s → P a → P (step a s).1) {e : SharedResource α σ}
    (he : ∀ a ∈ e.components, P a) {schedule : List ℕ} (h : everyTurn step p e schedule) :
    ∀ a ∈ (run step e schedule).components, P a := by
  induction schedule generalizing e with
  | nil => exact he
  | cons i schedule ih =>
    rw [everyTurn, Bool.and_eq_true] at h
    refine ih ?_ h.2
    rw [turn]
    cases ha : e.components[i]? with
    | none => exact he
    | some a =>
      rw [ha] at h
      intro b hb
      cases List.mem_or_eq_of_mem_set hb with
      | inl hold => exact he b hold
      | inr hnew =>
        rw [hnew]
        exact hstep a e.shared h.1 (he a (List.mem_of_getElem? ha))

section Sums

variable {M : Type*} [AddCommMonoid M]

theorem sum_set (f : α → M) {as : List α} {i : ℕ} {a : α} (h : as[i]? = some a) (b : α) :
    ((as.set i b).map f).sum + f a = (as.map f).sum + f b := by
  induction as generalizing i with
  | nil => cases h
  | cons x as ih =>
    cases i with
    | zero =>
      obtain rfl : x = a := by simpa using h
      simp only [List.set_cons_zero, List.map_cons, List.sum_cons]
      ac_rfl
    | succ i =>
      simp only [List.set_cons_succ, List.map_cons, List.sum_cons, add_assoc]
      rw [ih (by simpa using h)]

end Sums

end SharedResource

end Rload
