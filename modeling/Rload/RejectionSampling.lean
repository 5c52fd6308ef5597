import Mathlib.Data.Nat.Periodic
import Mathlib.Data.Set.Card

/-!
# Rejection sampling

Of the numbers below a size, those below a threshold are rejected. The threshold is such that
the accepted ones make up whole periods of the bound, whence each remainder modulo the bound
comes from as many of them as the others.
-/

namespace RejectionSampling

variable {size bound r : ℕ}

def threshold (size bound : ℕ) : ℕ := (size - bound) % bound

theorem threshold_lt (hbound : 0 < bound) : threshold size bound < bound := Nat.mod_lt _ hbound

theorem threshold_le : threshold size bound ≤ size := (Nat.mod_le _ _).trans (Nat.sub_le _ _)

theorem dvd_sub_threshold (hle : bound ≤ size) : bound ∣ size - threshold size bound := by
  have hsize : size = bound * ((size - bound) / bound + 1) + threshold size bound := by
    have hdiv := Nat.div_add_mod (size - bound) bound
    rw [Nat.mul_add, Nat.mul_one, threshold]
    omega
  rw [Nat.sub_eq_of_eq_add hsize]
  exact Nat.dvd_mul_right _ _

/-- A periodic predicate in an interval of `k` periods. -/
theorem card_filter_Ico_mul {p : ℕ → Prop} [DecidablePred p] (hp : Function.Periodic p bound)
    (n k : ℕ) : ((Finset.Ico n (n + bound * k)).filter p).card = k * bound.count p := by
  induction k with
  | zero => simp
  | succ k ih =>
    have hsplit : Finset.Ico n (n + bound * (k + 1)) =
        Finset.Ico n (n + bound * k) ∪ Finset.Ico (n + bound * k) (n + bound * k + bound) := by
      rw [Finset.Ico_union_Ico_eq_Ico (by omega) (by omega), Nat.mul_succ, Nat.add_assoc]
    have hperiod := Nat.filter_Ico_card_eq_of_periodic (n + bound * k) bound p hp
    rw [hsplit, Finset.filter_union, Finset.card_union_of_disjoint, ih, hperiod, Nat.succ_mul]
    exact Finset.disjoint_filter_filter (Finset.Ico_disjoint_Ico_consecutive _ _ _)

theorem periodic_mod_eq (bound r : ℕ) : Function.Periodic (fun n => n % bound = r) bound := by
  intro n
  simp only [Nat.add_mod_right]

theorem count_mod_eq (hr : r < bound) : bound.count (fun n => n % bound = r) = 1 := by
  have hfilter : (Finset.range bound).filter (fun n => n % bound = r) = {r} := by
    ext n
    rw [Finset.mem_filter, Finset.mem_range, Finset.mem_singleton]
    constructor
    · rintro ⟨hlt, hmod⟩
      rwa [Nat.mod_eq_of_lt hlt] at hmod
    · rintro rfl
      exact ⟨hr, Nat.mod_eq_of_lt hr⟩
  rw [Nat.count_eq_card_filter_range, hfilter, Finset.card_singleton]

/-- Each remainder comes from as many accepted numbers as the others. -/
theorem card_filter_mod (hle : bound ≤ size) (hr : r < bound) :
    ((Finset.Ico (threshold size bound) size).filter fun n => n % bound = r).card =
      (size - threshold size bound) / bound := by
  obtain ⟨k, hk⟩ := dvd_sub_threshold hle
  have hsize : size = threshold size bound + bound * k := by
    have hthreshold := @threshold_le size bound
    omega
  have hcard := card_filter_Ico_mul (periodic_mod_eq bound r) (threshold size bound) k
  rw [← hsize, count_mod_eq hr, Nat.mul_one] at hcard
  rw [hcard, hk, Nat.mul_div_cancel_left _ (Nat.zero_lt_of_lt hr)]

/-- The values whose numbers are in a finite set that they exhaust. -/
theorem ncard_preimage {α : Type*} {number : α → ℕ} (hinjective : Function.Injective number)
    {s : Finset ℕ} (hrange : ∀ n ∈ s, ∃ a, number a = n) :
    Set.ncard {a | number a ∈ s} = s.card := by
  have himage : number '' {a | number a ∈ s} = s := by
    ext n
    constructor
    · rintro ⟨a, ha, rfl⟩
      exact ha
    · intro hn
      obtain ⟨a, rfl⟩ := hrange n hn
      exact ⟨a, hn, rfl⟩
  rw [← Set.ncard_image_of_injective _ hinjective, himage, Set.ncard_coe_finset]

end RejectionSampling
