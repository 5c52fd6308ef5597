import Mathlib.Order.Lattice
import Rload.SharedResource

/-!
# Schedules without an end

An endless schedule gives turns forever. Each component goes a path of its own: in a turn it stays
or makes its step. What each component comes to and never leaves, all of them come to.
-/

namespace Rload.SharedResource

variable {α σ : Type} (step : α → σ → α × σ)

/-- The system after the first `k` turns. -/
def atTurn (e : SharedResource α σ) (schedule : ℕ → ℕ) (k : ℕ) : SharedResource α σ :=
  run step e ((List.range k).map schedule)

variable {step} {e : SharedResource α σ} {schedule : ℕ → ℕ} {i k : ℕ}

theorem atTurn_succ : atTurn step e schedule (k + 1) =
    turn step (atTurn step e schedule k) (schedule k) := by
  rw [atTurn, List.range_succ, List.map_append, run, List.foldl_append]
  rfl

theorem length_turn (e : SharedResource α σ) (i : ℕ) :
    (turn step e i).components.length = e.components.length := by
  unfold turn
  split
  · rfl
  · exact List.length_set

theorem length_atTurn : (atTurn step e schedule k).components.length = e.components.length := by
  induction k with
  | zero => rfl
  | succ k ih => rw [atTurn_succ, length_turn, ih]

/-- A turn leaves a component as it is or is its step. -/
theorem turn_component {a : α} (ha : e.components[i]? = some a) (j : ℕ) :
    ∃ b, (turn step e j).components[i]? = some b ∧ (b = a ∨ b = (step a e.shared).1) := by
  unfold turn
  split
  · exact ⟨a, ha, Or.inl rfl⟩
  · rename_i a' ha'
    by_cases hij : j = i
    · subst hij
      rw [ha] at ha'
      cases ha'
      have hlt := (List.getElem?_eq_some_iff.mp ha).1
      exact ⟨_, List.getElem?_set_self hlt, Or.inr rfl⟩
    · exact ⟨a, (List.getElem?_set_ne hij).trans ha, Or.inl rfl⟩

/-- The path of a component. -/
structure IsPath (step : α → σ → α × σ) (e : SharedResource α σ) (schedule : ℕ → ℕ) (i : ℕ)
    (x : ℕ → α) : Prop where
  component : ∀ k, (atTurn step e schedule k).components[i]? = some (x k)
  next : ∀ k, x (k + 1) = x k ∨ x (k + 1) = (step (x k) (atTurn step e schedule k).shared).1

theorem exists_isPath (hi : i < e.components.length) : ∃ x, IsPath step e schedule i x := by
  have hsome : ∀ k, ∃ a, (atTurn step e schedule k).components[i]? = some a := by
    intro k
    have hlength : (atTurn step e schedule k).components.length = e.components.length :=
      length_atTurn
    exact ⟨_, List.getElem?_eq_getElem (hlength.symm ▸ hi)⟩
  choose x hx using hsome
  refine ⟨x, hx, fun k => ?_⟩
  obtain ⟨b, hb, hnext⟩ := turn_component (hx k) (schedule k)
  rw [← atTurn_succ, hx (k + 1)] at hb
  cases hb
  exact hnext

namespace IsPath

variable {x : ℕ → α} (h : IsPath step e schedule i x)

include h

theorem mem_components (k : ℕ) : x k ∈ (atTurn step e schedule k).components :=
  List.mem_of_getElem? (h.component k)

/-- What a step keeps is never left. -/
theorem keeps {P : α → Prop} (hstep : ∀ a s, P a → P (step a s).1) {k j : ℕ} (hle : k ≤ j)
    (hk : P (x k)) : P (x j) := by
  induction j, hle using Nat.le_induction with
  | base => exact hk
  | succ j _ ih =>
    cases h.next j with
    | inl hstays => rwa [hstays]
    | inr hmoves =>
      rw [hmoves]
      exact hstep _ _ ih

end IsPath

/-- What each component comes to on its path, all have at some turn and from it on. -/
theorem exists_forall_components {P : α → Prop} (hstep : ∀ a s, P a → P (step a s).1)
    (hpath : ∀ i x, IsPath step e schedule i x → ∃ k, P (x k)) :
    ∃ n, ∀ m, n ≤ m → ∀ a ∈ (atTurn step e schedule m).components, P a := by
  have hbelow : ∀ count : ℕ, ∃ n : ℕ, ∀ i < count, ∀ m, n ≤ m →
      ∀ a : α, (atTurn step e schedule m).components[i]? = some a → P a := by
    intro count
    induction count with
    | zero => exact ⟨0, fun i hi => absurd hi (Nat.not_lt_zero i)⟩
    | succ count ih =>
      obtain ⟨n, hn⟩ := ih
      by_cases hi : count < e.components.length
      · obtain ⟨x, hx⟩ : ∃ x, IsPath step e schedule count x := exists_isPath hi
        obtain ⟨k, hk⟩ := hpath count x hx
        refine ⟨max n k, fun i hi m hm a ha => ?_⟩
        rcases Nat.lt_succ_iff_lt_or_eq.mp hi with hlt | rfl
        · exact hn i hlt m ((le_max_left n k).trans hm) a ha
        · rw [hx.component m] at ha
          cases ha
          exact hx.keeps hstep ((le_max_right n k).trans hm) hk
      · refine ⟨n, fun i hi' m hm a ha => ?_⟩
        rcases Nat.lt_succ_iff_lt_or_eq.mp hi' with hlt | rfl
        · exact hn i hlt m hm a ha
        · have hlt := (List.getElem?_eq_some_iff.mp ha).1
          rw [length_atTurn] at hlt
          exact absurd hlt hi
  obtain ⟨n, hn⟩ := hbelow e.components.length
  refine ⟨n, fun m hm a ha => ?_⟩
  obtain ⟨i, hi, rfl⟩ := List.mem_iff_getElem.mp ha
  rw [length_atTurn] at hi
  exact hn i hi m hm _ (List.getElem?_eq_getElem _)

/-- Where each turn shows the same of its component, so does the whole system. -/
theorem map_turn {β : Type} (f : α → β) (h : ∀ a ∈ e.components, ∀ s, f (step a s).1 = f a)
    (i : ℕ) : (turn step e i).components.map f = e.components.map f := by
  unfold turn
  split
  · rfl
  · rename_i a ha
    obtain ⟨hlt, rfl⟩ := List.getElem?_eq_some_iff.mp ha
    rw [List.map_set, h _ (List.getElem_mem hlt), ← List.map_set, List.set_getElem_self]

end Rload.SharedResource
