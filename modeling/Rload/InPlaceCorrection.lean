import Rload.CorrectedSummaries
import Mathlib.Algebra.BigOperators.Intervals

/-!
# The correction in place

wrk corrects a table of counts while it goes through it. No count is added to a value that is
still to be visited, so that the result is that of the correction from a snapshot. Values are
recorded exactly here: the buckets are the values.
-/

namespace Rload

/-- Each value has a bucket of its own. -/
def Bucketing.exact : Bucketing := ⟨id, id⟩

namespace Wrk

/-- The count is added to the target and to those below it, while they are above the interval. -/
def addBelow (interval : ℕ) (hpos : 0 < interval) (count target : ℕ) (data : ℕ → ℕ) : ℕ → ℕ :=
  if interval < target then
    addBelow interval hpos count (target - interval)
      (Function.update data target (data target + count))
  else data
  termination_by target

/-- One value of the table, with the count that the table has when it is visited. -/
def visit (interval : ℕ) (hpos : 0 < interval) (data : ℕ → ℕ) (n : ℕ) : ℕ → ℕ :=
  addBelow interval hpos (data n) (n - interval) data

/-- The values from twice the interval up to the maximum are visited in their order. -/
def correct (interval : ℕ) (hpos : 0 < interval) (maximum : ℕ) (data : ℕ → ℕ) : ℕ → ℕ :=
  (List.range' (2 * interval) (maximum + 1 - 2 * interval)).foldl (visit interval hpos) data

variable (interval : ℕ) (hpos : 0 < interval)

theorem addBelow_apply (count target : ℕ) (data : ℕ → ℕ) (v : ℕ) :
    addBelow interval hpos count target data v =
      data v + count * (Histogram.missing interval hpos target).count v := by
  induction target using Nat.strong_induction_on generalizing data with
  | _ target ih =>
    rw [addBelow, Histogram.missing]
    split
    case isTrue hlt =>
      rw [ih (target - interval) (by omega), Multiset.count_cons, Function.update_apply,
        Nat.mul_add]
      by_cases heq : v = target
      · rw [if_pos heq, if_pos heq, heq]
        omega
      · rw [if_neg heq, if_neg heq]
        omega
    case isFalse => rw [Multiset.count_zero, Nat.mul_zero, Nat.add_zero]

theorem le_of_mem_missing {target v : ℕ} (h : v ∈ Histogram.missing interval hpos target) :
    interval < v ∧ v ≤ target := by
  induction target using Nat.strong_induction_on with
  | _ target ih =>
    rw [Histogram.missing] at h
    split at h
    case isTrue hlt =>
      cases Multiset.mem_cons.mp h with
      | inl heq => omega
      | inr hmem =>
        have hle := ih (target - interval) (by omega) hmem
        omega
    case isFalse => exact absurd h (Multiset.notMem_zero v)

/-- A visit changes nothing from its own value on. -/
theorem count_missing_of_le {n v : ℕ} (hn : interval ≤ n) (hle : n ≤ v) :
    (Histogram.missing interval hpos (n - interval)).count v = 0 := by
  rw [Multiset.count_eq_zero]
  intro hmem
  have hbounds := le_of_mem_missing interval hpos hmem
  omega

/-- The first visits add what is missing at their values in the table as it was. -/
theorem foldl_visit_apply (data : ℕ → ℕ) (first count v : ℕ) (hfirst : interval ≤ first) :
    (List.range' first count).foldl (visit interval hpos) data v =
      data v + ∑ n ∈ Finset.Ico first (first + count),
        data n * (Histogram.missing interval hpos (n - interval)).count v := by
  induction count generalizing v with
  | zero => simp
  | succ count ih =>
    have hunvisited : (List.range' first count).foldl (visit interval hpos) data (first + count) =
        data (first + count) := by
      rw [ih, Finset.sum_eq_zero, Nat.add_zero]
      intro n hn
      have hbounds := Finset.mem_Ico.mp hn
      rw [count_missing_of_le interval hpos (by omega) (by omega), Nat.mul_zero]
    rw [List.range'_1_concat, List.foldl_append, List.foldl_cons, List.foldl_nil, visit,
      addBelow_apply, hunvisited, ih, ← Nat.add_assoc first count 1,
      Finset.sum_Ico_succ_top (Nat.le_add_right first count), Nat.add_assoc]

end Wrk

namespace Histogram

variable (interval : ℕ) (hpos : 0 < interval)

theorem card_missing (target : ℕ) :
    (missing interval hpos target).card = (target + (interval - 1)) / interval - 1 := by
  induction target using Nat.strong_induction_on with
  | _ target ih =>
    rw [missing]
    split
    case isTrue hlt =>
      have hstep : target + (interval - 1) = target - interval + (interval - 1) + interval := by
        omega
      have hmore : 0 < (target - interval + (interval - 1)) / interval :=
        Nat.div_pos (by omega) hpos
      rw [Multiset.card_cons, ih (target - interval) (by omega), hstep,
        Nat.add_div_right _ hpos]
      omega
    case isFalse hle =>
      have hlt : (target + (interval - 1)) / interval < 2 := by
        rw [Nat.div_lt_iff_lt_mul hpos]
        omega
      rw [Multiset.card_zero]
      omega

theorem card_missing_sub (value : ℕ) :
    (missing interval hpos (value - interval)).card =
      (value + (interval - 1)) / interval - 2 := by
  rw [card_missing]
  by_cases hle : interval ≤ value
  · have hstep : value + (interval - 1) = value - interval + (interval - 1) + interval := by omega
    rw [hstep, Nat.add_div_right _ hpos]
    omega
  · have hzero : (value - interval + (interval - 1)) / interval = 0 :=
      Nat.div_eq_of_lt (by omega)
    have hone : (value + (interval - 1)) / interval < 2 := by
      rw [Nat.div_lt_iff_lt_mul hpos]
      omega
    omega

theorem completed_exact (values : Histogram) :
    completed .exact interval hpos values =
      values + (values.map fun value => missing interval hpos (value - interval)).sum := by
  rw [completed, Multiset.map_map]
  rfl

/-- What is corrected from a snapshot is what is corrected in place. -/
theorem count_completed (values : Histogram) {maximum : ℕ}
    (hmaximum : ∀ value ∈ values, value ≤ maximum) (v : ℕ) :
    (completed .exact interval hpos values).count v =
      Wrk.correct interval hpos maximum values.count v := by
  rw [completed_exact, Multiset.count_add, Multiset.count_sum, Finset.sum_multiset_map_count,
    Wrk.correct, Wrk.foldl_visit_apply _ _ _ _ _ _ (by omega)]
  have hbelow : ∀ n, n < 2 * interval →
      (missing interval hpos (n - interval)).count v = 0 := by
    intro n hn
    rw [missing, if_neg (by omega), Multiset.count_zero]
  have hrecorded : values.toFinset ⊆ Finset.range (maximum + 1) := by
    intro n hn
    have hle := hmaximum n (Multiset.mem_toFinset.mp hn)
    exact Finset.mem_range.mpr (by omega)
  have hvisited : Finset.Ico (2 * interval) (2 * interval + (maximum + 1 - 2 * interval)) ⊆
      Finset.range (maximum + 1) := by
    intro n hn
    have hbounds := Finset.mem_Ico.mp hn
    exact Finset.mem_range.mpr (by omega)
  -- Both sums are those over all values up to the maximum.
  rw [Finset.sum_subset hrecorded, Finset.sum_subset hvisited]
  · rfl
  · intro n hn hunvisited
    have hlt := Finset.mem_range.mp hn
    rw [Finset.mem_Ico] at hunvisited
    rw [hbelow n (by omega), Nat.mul_zero]
  · intro n _ hunrecorded
    rw [Multiset.mem_toFinset] at hunrecorded
    rw [Multiset.count_eq_zero_of_notMem hunrecorded, zero_nsmul]

/-- The number of values grows by a closed form of the loops. -/
theorem card_completed (values : Histogram) :
    (completed .exact interval hpos values).card = values.card +
      ∑ value ∈ values.toFinset,
        values.count value * ((value + (interval - 1)) / interval - 2) := by
  have hjoin : (values.map fun value => missing interval hpos (value - interval)).sum.card =
      (values.map fun value => (value + (interval - 1)) / interval - 2).sum := by
    have hcards := Multiset.card_join
      (values.map fun value => missing interval hpos (value - interval))
    rw [Multiset.map_map] at hcards
    simp only [Function.comp_def, card_missing_sub] at hcards
    exact hcards
  rw [completed_exact, Multiset.card_add, hjoin, Finset.sum_multiset_map_count]
  rfl

end Histogram

namespace LatencyHistogram

/-- The correction comes to the counts of wrk's, adds the latencies of the strict rule and keeps
all samples. -/
theorem correct_in_place (h : LatencyHistogram) (expected : ℕ) :
    let interval := intervalOf expected
    let corrected := h.correctForCoordinatedOmission .exact expected
    (∀ maximum, (∀ value ∈ h.histogramMut, value ≤ maximum) →
      ∀ v, corrected.histogramMut.count v =
        Wrk.correct interval (intervalOf_pos expected) maximum h.histogramMut.count v) ∧
    corrected.histogramMut.card = h.histogramMut.card + ∑ value ∈ h.histogramMut.toFinset,
      h.histogramMut.count value * ((value + (interval - 1)) / interval - 2) ∧
    h.histogramMut ≤ corrected.histogramMut := by
  intro interval corrected
  have hcorrected : corrected.histogramMut =
      h.histogramMut.completed .exact interval (intervalOf_pos expected) := by
    rcases h with ⟨_ | values, above⟩
    · rfl
    · exact congrArg histogramMut (correct_some .exact expected above values)
  rw [hcorrected]
  refine ⟨?_, Histogram.card_completed _ _ _, ?_⟩
  · intro maximum hmaximum v
    exact Histogram.count_completed _ _ _ hmaximum v
  · rw [Histogram.completed_exact]
    exact Multiset.le_add_right _ _

/-- One sample of three intervals. -/
theorem correct_in_place_sample :
    ((⟨some {300}, 0⟩ : LatencyHistogram).correctForCoordinatedOmission .exact
        100000).histogramMut.count 200 =
      Wrk.correct (intervalOf 100000) (intervalOf_pos 100000) 300 (Multiset.count · {300}) 200 :=
  (correct_in_place ⟨some {300}, 0⟩ 100000).1 300 (by simp [histogramMut]) 200

end LatencyHistogram

end Rload
