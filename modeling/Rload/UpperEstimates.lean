import Mathlib.Algebra.BigOperators.Ring.Finset
import Mathlib.Algebra.Group.Action.Defs
import Mathlib.Algebra.Order.BigOperators.Group.Finset
import Mathlib.Data.Finset.Card

/-!
# Upper estimates of item counts

An estimate gives every item an upper bound of its count and a bound of the overcount.
Estimates of two streams add pointwise. A bounded table keeps the values of a finite set
of items and one common value for all the others; passing to it is `truncate`. An exchange
argument shows that truncation never raises the weight of any `k` items.
-/

namespace Rload.UpperEstimates

variable {α : Type*}

structure Estimate (α : Type*) where
  upper : α → ℕ
  error : α → ℕ

namespace Estimate

/-- The estimate holds of the true counts of a stream of `total` items, and no `k` items
weigh more than the stream. -/
structure Sound (e : Estimate α) (k : ℕ) (count : α → ℕ) (total : ℕ) : Prop where
  count_le : ∀ x, count x ≤ e.upper x
  upper_le : ∀ x, e.upper x ≤ count x + e.error x
  error_le : ∀ x, e.error x ≤ e.upper x
  weight : ∀ J : Finset α, J.card ≤ k → ∑ x ∈ J, e.upper x ≤ total
  error_weight : ∀ x, k * e.error x ≤ total

def zero : Estimate α := ⟨fun _ => 0, fun _ => 0⟩

def add (e f : Estimate α) : Estimate α :=
  ⟨fun x => e.upper x + f.upper x, fun x => e.error x + f.error x⟩

theorem Sound.zero (k : ℕ) : (zero : Estimate α).Sound k (fun _ => 0) 0 where
  count_le _ := le_rfl
  upper_le _ := le_rfl
  error_le _ := le_rfl
  weight J _ := by simp [Estimate.zero]
  error_weight _ := by simp [Estimate.zero]

/-- Two streams read one after the other are estimated by the sum of the estimates. -/
theorem Sound.add {e f : Estimate α} {k m n : ℕ} {c d : α → ℕ}
    (he : e.Sound k c m) (hf : f.Sound k d n) :
    (e.add f).Sound k (fun x => c x + d x) (m + n) where
  count_le x := Nat.add_le_add (he.count_le x) (hf.count_le x)
  upper_le x := by
    have h₁ := he.upper_le x
    have h₂ := hf.upper_le x
    simp only [Estimate.add]
    omega
  error_le x := Nat.add_le_add (he.error_le x) (hf.error_le x)
  weight J hJ := by
    simp only [Estimate.add, Finset.sum_add_distrib]
    exact Nat.add_le_add (he.weight J hJ) (hf.weight J hJ)
  error_weight x := by
    simp only [Estimate.add, Nat.mul_add]
    exact Nat.add_le_add (he.error_weight x) (hf.error_weight x)

/-- A value that a full table of `k` items reaches everywhere is at most a `k`-th part of
the stream. -/
theorem Sound.mul_le_total {e : Estimate α} {k total : ℕ} {count : α → ℕ}
    (he : e.Sound k count total) {K : Finset α} {m : ℕ}
    (hm : m = 0 ∨ K.card = k ∧ ∀ x ∈ K, m ≤ e.upper x) : k * m ≤ total := by
  rcases hm with rfl | ⟨hfull, hm⟩
  · simp
  · calc k * m = K.card • m := by rw [hfull, smul_eq_mul]
      _ ≤ ∑ x ∈ K, e.upper x := Finset.card_nsmul_le_sum _ _ _ hm
      _ ≤ total := he.weight K hfull.le

variable [DecidableEq α]

/-- The exact estimate of a stream that holds one item. -/
def single (y : α) : Estimate α := ⟨fun x => if x = y then 1 else 0, fun _ => 0⟩

theorem Sound.single (k : ℕ) (y : α) :
    (single y).Sound k (fun x => if x = y then 1 else 0) 1 where
  count_le _ := le_rfl
  upper_le _ := le_rfl
  error_le _ := by simp [Estimate.single]
  weight J _ := by
    simp only [Estimate.single, Finset.sum_ite_eq']
    split <;> omega
  error_weight _ := by simp [Estimate.single]

/-- Keep the items of `K` and give every other item the value `m`. -/
def truncate (e : Estimate α) (K : Finset α) (m : ℕ) : Estimate α :=
  ⟨fun x => if x ∈ K then e.upper x else m, fun x => if x ∈ K then e.error x else m⟩

theorem sum_truncate_upper (e : Estimate α) (K J : Finset α) (m : ℕ) :
    ∑ x ∈ J, (e.truncate K m).upper x =
      ∑ x ∈ J ∩ K, e.upper x + (J \ K).card * m := by
  simp only [truncate, Finset.sum_ite, Finset.sum_const, smul_eq_mul, Finset.filter_mem_eq_inter]
  congr 2
  rw [Finset.filter_notMem_eq_sdiff]

/-- The exchange argument: an item outside the full table `K` is paid for by an item of
`K` that was not asked for. -/
theorem sum_truncate_le_of_full (e : Estimate α) {K J : Finset α} {m : ℕ}
    (hcard : J.card ≤ K.card) (hm : ∀ x ∈ K, m ≤ e.upper x) :
    ∑ x ∈ J, (e.truncate K m).upper x ≤ ∑ x ∈ K, e.upper x := by
  have hJ := Finset.card_inter_add_card_sdiff J K
  have hK := Finset.card_inter_add_card_sdiff K J
  have hswap : (J ∩ K).card = (K ∩ J).card := by rw [Finset.inter_comm]
  have hexchange : (J \ K).card * m ≤ ∑ x ∈ K \ J, e.upper x := by
    calc (J \ K).card * m ≤ (K \ J).card * m := Nat.mul_le_mul_right m (by omega)
      _ ≤ ∑ x ∈ K \ J, e.upper x := by
        rw [← smul_eq_mul]
        exact Finset.card_nsmul_le_sum _ _ _ fun x hx => hm x (Finset.mem_sdiff.mp hx).1
  have hsplit := Finset.sum_inter_add_sum_sdiff K J e.upper
  rw [sum_truncate_upper, Finset.inter_comm J K]
  omega

theorem Sound.truncate {e : Estimate α} {k total : ℕ} {count : α → ℕ}
    (he : e.Sound k count total) {K : Finset α} {m : ℕ} (hK : K.card ≤ k)
    (hdropped : ∀ x, x ∉ K → e.upper x ≤ m)
    (hm : m = 0 ∨ K.card = k ∧ ∀ x ∈ K, m ≤ e.upper x) :
    (e.truncate K m).Sound k count total where
  count_le x := by
    simp only [Estimate.truncate]
    split
    · exact he.count_le x
    · exact (he.count_le x).trans (hdropped x ‹_›)
  upper_le x := by
    simp only [Estimate.truncate]
    split
    · exact he.upper_le x
    · omega
  error_le x := by
    simp only [Estimate.truncate]
    split
    · exact he.error_le x
    · exact le_rfl
  weight J hJ := by
    rcases hm with rfl | ⟨hfull, hm⟩
    · rw [sum_truncate_upper, Nat.mul_zero, Nat.add_zero]
      exact he.weight _ ((Finset.card_le_card Finset.inter_subset_left).trans hJ)
    · exact (sum_truncate_le_of_full e (hJ.trans hfull.ge) hm).trans (he.weight K hK)
  error_weight x := by
    simp only [Estimate.truncate]
    split
    · exact he.error_weight x
    · exact he.mul_le_total hm

/-- An item with more than a `k`-th part of the stream is in the table. -/
theorem Sound.mem_of_heavy {e : Estimate α} {k total : ℕ} {count : α → ℕ}
    (he : e.Sound k count total) {K : Finset α} {m : ℕ}
    (hm : m = 0 ∨ K.card = k ∧ ∀ x ∈ K, m ≤ e.upper x)
    (habsent : ∀ x, x ∉ K → e.upper x = m) {x : α} (hx : total < k * count x) : x ∈ K := by
  by_contra hout
  have hle : count x ≤ m := habsent x hout ▸ he.count_le x
  have hkm := he.mul_le_total hm
  have := Nat.mul_le_mul_left k hle
  omega

end Estimate

end Rload.UpperEstimates
