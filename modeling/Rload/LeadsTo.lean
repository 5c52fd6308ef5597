import Mathlib.Order.WellFounded
import Mathlib.Order.Lattice

/-!
# What a run leads to

A run is a sequence of states without an end, in which the state stays or makes a step. `P`
leads to `Q` if from every state of the run with `P` one with `Q` is reached. Time passes in a
run if every bound is passed by the time of some later state, unless the run has stopped. A
run in which time passes makes steps again and again, so that what is lowered by every step
cannot hold forever.
-/

namespace Rload

variable {α : Type*}

/-- From every state of the run with `P` one with `Q` is reached. -/
def LeadsTo (x : ℕ → α) (P Q : α → Prop) : Prop := ∀ k, P (x k) → ∃ j, k ≤ j ∧ Q (x j)

namespace LeadsTo

variable {x : ℕ → α} {P Q R : α → Prop}

theorem of_imp (h : ∀ a, P a → Q a) : LeadsTo x P Q := fun k hk => ⟨k, le_rfl, h _ hk⟩

theorem trans (h : LeadsTo x P Q) (h' : LeadsTo x Q R) : LeadsTo x P R := by
  intro k hk
  obtain ⟨j, hj, hQ⟩ := h k hk
  obtain ⟨i, hi, hR⟩ := h' j hQ
  exact ⟨i, hj.trans hi, hR⟩

/-- What is led to in two ways. -/
theorem cases (h : LeadsTo x P R) (h' : LeadsTo x Q R) : LeadsTo x (fun a => P a ∨ Q a) R := by
  rintro k (hP | hQ)
  · exact h k hP
  · exact h' k hQ

/-- The first of two goals is the end of the way. -/
theorem or_trans (h : LeadsTo x P fun a => R a ∨ Q a) (h' : LeadsTo x Q R) : LeadsTo x P R :=
  h.trans ((of_imp fun _ h => h).cases h')

/-- The induction rule: what leads to the goal or to a smaller measure leads to the goal. -/
theorem induction (measure : α → ℕ)
    (h : ∀ n, LeadsTo x (fun a => P a ∧ measure a = n) fun a => Q a ∨ P a ∧ measure a < n) :
    LeadsTo x P Q := by
  have hmeasure : ∀ n, LeadsTo x (fun a => P a ∧ measure a = n) Q := by
    intro n
    induction n using Nat.strong_induction_on with
    | _ n ih =>
      apply (h n).or_trans
      rintro k ⟨hP, hlt⟩
      exact ih (measure (x k)) hlt k ⟨hP, rfl⟩
  exact fun k hk => hmeasure (measure (x k)) k ⟨hk, rfl⟩

end LeadsTo

/-- A run in which the state stays or makes a step. Time passes until the run stops. -/
structure EndlessRun (step : α → α → Prop) (time : α → ℕ) (stopped : α → Prop) (x : ℕ → α) :
    Prop where
  next : ∀ k, x (k + 1) = x k ∨ step (x k) (x (k + 1))
  passes : ∀ bound k, ∃ j, k ≤ j ∧ (stopped (x j) ∨ bound ≤ time (x j))

namespace EndlessRun

variable {step : α → α → Prop} {time : α → ℕ} {stopped : α → Prop} {x : ℕ → α}
  {P Q : α → Prop} (h : EndlessRun step time stopped x)

include h

/-- What every step keeps until the goal is reached. -/
theorem keeps_until (hstep : ∀ a a', P a → step a a' → Q a' ∨ P a') {k j : ℕ} (hle : k ≤ j)
    (hk : P (x k)) : (∃ i, k ≤ i ∧ i ≤ j ∧ Q (x i)) ∨ P (x j) := by
  induction j, hle using Nat.le_induction with
  | base => exact Or.inr hk
  | succ j hkj ih =>
    obtain ⟨i, hki, hij, hQ⟩ | hP := ih
    · exact Or.inl ⟨i, hki, hij.trans (Nat.le_succ j), hQ⟩
    · cases h.next j with
      | inl hstays => exact Or.inr (hstays ▸ hP)
      | inr hmoves =>
        refine (hstep _ _ hP hmoves).imp_left fun hQ => ?_
        exact ⟨j + 1, hkj.trans (Nat.le_succ j), le_rfl, hQ⟩

/-- The rule of time: what every step keeps lasts until the bound has passed. -/
theorem leadsTo_time (hstep : ∀ a a', P a → step a a' → Q a' ∨ P a')
    (hstopped : ∀ a, P a → stopped a → Q a) (bound : ℕ) :
    LeadsTo x P fun a => Q a ∨ P a ∧ bound ≤ time a := by
  intro k hk
  obtain ⟨j, hkj, hj⟩ := h.passes bound k
  obtain ⟨i, hki, -, hQ⟩ | hP := h.keeps_until hstep hkj hk
  · exact ⟨i, hki, Or.inl hQ⟩
  · exact ⟨j, hkj, hj.imp (hstopped _ hP) fun hbound => ⟨hP, hbound⟩⟩

/-- The state does not stay forever. -/
theorem exists_step (k : ℕ) :
    ∃ j, k ≤ j ∧ x j = x k ∧ (stopped (x j) ∨ step (x j) (x (j + 1))) := by
  by_contra hnever
  have hstays : ∀ j, k ≤ j → x j = x k := by
    intro j hle
    induction j, hle using Nat.le_induction with
    | base => rfl
    | succ j hkj ih =>
      cases h.next j with
      | inl hstay => exact hstay.trans ih
      | inr hmoves => exact absurd ⟨j, hkj, ih, Or.inr hmoves⟩ hnever
  obtain ⟨j, hkj, hj⟩ := h.passes (time (x k) + 1) k
  cases hj with
  | inl hstopped => exact hnever ⟨j, hkj, hstays j hkj, Or.inl hstopped⟩
  | inr htime =>
    rw [hstays j hkj] at htime
    exact absurd htime (Nat.not_succ_le_self _)

/-- The rule of variants: what every step lowers until the goal is reached leads there. -/
theorem leadsTo_variant {β : Type*} {r : β → β → Prop} (hr : WellFounded r) (rank : α → β)
    (hstep : ∀ a a', P a → step a a' → Q a' ∨ P a' ∧ r (rank a') (rank a))
    (hstopped : ∀ a, P a → stopped a → Q a) : LeadsTo x P Q := by
  have hranked : ∀ b k, rank (x k) = b → P (x k) → ∃ j, k ≤ j ∧ Q (x j) := by
    intro b
    induction b using hr.induction with
    | _ b ih =>
      intro k hb hk
      obtain ⟨j, hkj, hsame, hstops | hmoves⟩ := h.exists_step k
      · exact ⟨j, hkj, hstopped _ (hsame ▸ hk) hstops⟩
      · cases hstep _ _ (hsame ▸ hk) hmoves with
        | inl hQ => exact ⟨j + 1, hkj.trans (Nat.le_succ j), hQ⟩
        | inr hlowered =>
          rw [hsame, hb] at hlowered
          obtain ⟨i, hji, hQ⟩ := ih _ hlowered.2 (j + 1) rfl hlowered.1
          exact ⟨i, (hkj.trans (Nat.le_succ j)).trans hji, hQ⟩
  exact fun k hk => hranked _ k rfl hk

end EndlessRun

end Rload
