import Rload.MergedSummaries
import Mathlib.Algebra.BigOperators.Group.Finset.Basic
import Mathlib.Data.Finset.Sort

/-!
# The correction of coordinated omission

Once a run is over, each histogram gets the latencies that requests would have had which were
not sent while a slow one went on. The correction of a sum of histograms is the sum of their
corrections, so that the histogram of all requests stays the sum of those of the methods.
-/

namespace Rload
open AdditiveSummaries

/-- How a histogram divides the values among its buckets, and the value that it gives for a
bucket when it is iterated over. -/
structure Bucketing where
  bucketOf : ℕ → ℕ
  iteratedTo : ℕ → ℕ

namespace Histogram

variable (b : Bucketing)

/-- The number of values in a bucket. -/
def bucketCount (values : Histogram) (bucket : ℕ) : ℕ := (values.map b.bucketOf).count bucket

/-- `iter_recorded`: the value and the count of each bucket that is not empty. -/
def iterRecorded (values : Histogram) : List (ℕ × ℕ) :=
  ((values.map b.bucketOf).toFinset.sort (· ≤ ·)).map fun bucket =>
    (b.iteratedTo bucket, values.bucketCount b bucket)

end Histogram

namespace LatencyHistogram

def recordN (value count : ℕ) (h : LatencyHistogram) : LatencyHistogram :=
  { h with histogram := some (h.histogramMut + Multiset.replicate count value) }

/-- `while missing > interval`. -/
def recordMissing (interval : ℕ) (hpos : 0 < interval) (count missing : ℕ)
    (h : LatencyHistogram) : LatencyHistogram :=
  if interval < missing then
    recordMissing interval hpos count (missing - interval) (h.recordN missing count)
  else h
  termination_by missing

/-- `expected.as_micros()`, at least one. -/
def intervalOf (expected : ℕ) : ℕ := max 1 (min (expected / 1000) (2 ^ 64 - 1))

theorem intervalOf_pos (expected : ℕ) : 0 < intervalOf expected :=
  Nat.lt_of_lt_of_le Nat.zero_lt_one (Nat.le_max_left ..)

def correctForCoordinatedOmission (b : Bucketing) (expected : ℕ) (h : LatencyHistogram) :
    LatencyHistogram :=
  match h.histogram with
  | none => h
  | some source =>
    (source.iterRecorded b).foldl (fun h (value, count) =>
      h.recordMissing (intervalOf expected) (intervalOf_pos expected) count
        (value - intervalOf expected)) h

/-- The number of values in a bucket. -/
def bucketCount (b : Bucketing) (h : LatencyHistogram) (bucket : ℕ) : ℕ :=
  h.histogramMut.bucketCount b bucket

end LatencyHistogram

namespace RunSummary

variable (b : Bucketing)

def correctMethodHistograms (expected : ℕ) (s : RunSummary) : RunSummary :=
  { s with
    methodSummaries := fun m =>
      { s.methodSummaries m with
        latencies := (s.methodSummaries m).latencies.correctForCoordinatedOmission b expected } }

/-- Both corrections with one interval. -/
def corrected (expected : ℕ) (s : RunSummary) : RunSummary :=
  { s with latencies := s.latencies.correctForCoordinatedOmission b expected }
    |>.correctMethodHistograms b expected

/-- The interval in which each connection would have sent a request, if each has completed
one. -/
def expectedInterval (connectionCount runtime : ℕ) (s : RunSummary) : Option ℕ :=
  let cycles := s.completed / connectionCount
  if 0 < cycles then some (1000 * min (max 1 (runtime / 1000 / cycles)) (2 ^ 64 - 1)) else none

/-- The end of `run_with_roots`. -/
def correctedAfter (connectionCount runtime : ℕ) (s : RunSummary) : RunSummary :=
  match s.expectedInterval connectionCount runtime with
  | none => s
  | some expected => s.corrected b expected

end RunSummary

namespace Histogram

/-- What is missing at one recorded value. -/
def missing (interval : ℕ) (hpos : 0 < interval) (value : ℕ) : Multiset ℕ :=
  if interval < value then value ::ₘ missing interval hpos (value - interval) else 0
  termination_by value

variable (b : Bucketing) (interval : ℕ) (hpos : 0 < interval)

/-- What is missing at a value in the bucket. -/
def missingIn (bucket : ℕ) : Multiset ℕ :=
  missing interval hpos (b.iteratedTo bucket - interval)

/-- The values with those that are missing. -/
def completed (values : Histogram) : Histogram :=
  values + ((values.map b.bucketOf).map (missingIn b interval hpos)).sum

theorem completed_add (values others : Histogram) :
    completed b interval hpos (values + others) =
      completed b interval hpos values + completed b interval hpos others := by
  rw [completed, Multiset.map_add, Multiset.map_add, Multiset.sum_add]
  exact add_add_add_comm _ _ _ _

end Histogram

namespace LatencyHistogram

variable (b : Bucketing) (interval : ℕ) (hpos : 0 < interval)

theorem recordMissing_eq (count missing above : ℕ) (values : Histogram) :
    recordMissing interval hpos count missing ⟨some values, above⟩ =
      ⟨some (values + count • Histogram.missing interval hpos missing), above⟩ := by
  induction missing using Nat.strong_induction_on generalizing values with
  | _ missing ih =>
    rw [recordMissing, Histogram.missing]
    split
    case isTrue hlt =>
      rw [recordN, ih (missing - interval) (by omega), Multiset.nsmul_cons, add_assoc,
        Multiset.nsmul_singleton]
      rfl
    case isFalse => rw [nsmul_zero, add_zero]

theorem foldl_recordMissing (buckets : List (ℕ × ℕ)) (values : Histogram) (above : ℕ) :
    buckets.foldl (fun h (value, count) =>
        recordMissing interval hpos count (value - interval) h) ⟨some values, above⟩ =
      ⟨some (values + (buckets.map fun (value, count) =>
        count • Histogram.missing interval hpos (value - interval)).sum), above⟩ := by
  induction buckets generalizing values with
  | nil => rw [List.foldl_nil, List.map_nil, List.sum_nil, add_zero]
  | cons bucket buckets ih =>
    obtain ⟨value, count⟩ := bucket
    rw [List.foldl_cons]
    change List.foldl _ (recordMissing interval hpos count (value - interval)
      ⟨some values, above⟩) buckets = _
    rw [recordMissing_eq, ih, List.map_cons, List.sum_cons, add_assoc]

/-- Every value of a bucket adds what is missing at it. -/
theorem sum_iterRecorded (values : Histogram) :
    ((values.iterRecorded b).map fun (value, count) =>
        count • Histogram.missing interval hpos (value - interval)).sum =
      ((values.map b.bucketOf).map (Histogram.missingIn b interval hpos)).sum := by
  rw [Finset.sum_multiset_map_count, Histogram.iterRecorded, List.map_map,
    Finset.sum_eq_multiset_sum, ← Finset.sort_eq (values.map b.bucketOf).toFinset (· ≤ ·),
    Multiset.map_coe, Multiset.sum_coe]
  rfl

theorem correct_some (expected above : ℕ) (values : Histogram) :
    correctForCoordinatedOmission b expected ⟨some values, above⟩ =
      ⟨some (values.completed b (intervalOf expected) (intervalOf_pos expected)), above⟩ :=
  (foldl_recordMissing _ _ _ values above).trans
    (congrArg (fun added => LatencyHistogram.mk (some (values + added)) above)
      (sum_iterRecorded b _ _ values))

theorem correct_add (expected : ℕ) (h h' : LatencyHistogram) :
    (h + h').correctForCoordinatedOmission b expected =
      h.correctForCoordinatedOmission b expected + h'.correctForCoordinatedOmission b expected := by
  rcases h with ⟨_ | values, above⟩ <;> rcases h' with ⟨_ | others, above'⟩
  · rfl
  · change correctForCoordinatedOmission b expected ⟨some others, above + above'⟩ =
      ⟨none, above⟩ + correctForCoordinatedOmission b expected ⟨some others, above'⟩
    rw [correct_some, correct_some]
    rfl
  · change correctForCoordinatedOmission b expected ⟨some values, above + above'⟩ =
      correctForCoordinatedOmission b expected ⟨some values, above⟩ + ⟨none, above'⟩
    rw [correct_some, correct_some]
    rfl
  · change correctForCoordinatedOmission b expected ⟨some (values + others), above + above'⟩ =
      correctForCoordinatedOmission b expected ⟨some values, above⟩ +
        correctForCoordinatedOmission b expected ⟨some others, above'⟩
    rw [correct_some, correct_some, correct_some, Histogram.completed_add]
    rfl

/-- The correction as a homomorphism. -/
def correction (expected : ℕ) : LatencyHistogram →+ LatencyHistogram where
  toFun := correctForCoordinatedOmission b expected
  map_zero' := rfl
  map_add' := correct_add b expected

theorem histogramMut_add (h h' : LatencyHistogram) :
    (h + h').histogramMut = h.histogramMut + h'.histogramMut := by
  rcases h with ⟨_ | values, above⟩ <;> rcases h' with ⟨_ | others, above'⟩
  · rfl
  · exact (zero_add others).symm
  · exact (add_zero values).symm
  · rfl

/-- The count of a bucket as a homomorphism. -/
def bucketCounts (bucket : ℕ) : LatencyHistogram →+ ℕ where
  toFun h := h.bucketCount b bucket
  map_zero' := Multiset.count_zero bucket
  map_add' h h' := by
    change Multiset.count _ ((h + h').histogramMut.map _) = _
    rw [histogramMut_add, Multiset.map_add, Multiset.count_add]
    rfl

def overflowCounts : LatencyHistogram →+ ℕ where
  toFun := overflowCount
  map_zero' := rfl
  map_add' _ _ := rfl

end LatencyHistogram

namespace Method

theorem sum_single {M : Type*} [AddCommMonoid M] (m : Method) (x : M) :
    (all.map (Pi.single m x : Method → M)).sum = x := by
  cases m <;> simp [all]

theorem sum_add {M : Type*} [AddCommMonoid M] (f g : Method → M) :
    (all.map (f + g)).sum = (all.map f).sum + (all.map g).sum := List.sum_map_add

end Method

namespace MethodSummary

def completedCounts : MethodSummary →+ ℕ where
  toFun := completed
  map_zero' := rfl
  map_add' _ _ := rfl

def errorCounts : MethodSummary →+ ℕ where
  toFun := statusErrors
  map_zero' := rfl
  map_add' _ _ := rfl

def latencyCounts : MethodSummary →+ LatencyHistogram where
  toFun := latencies
  map_zero' := rfl
  map_add' _ _ := rfl

def correction (b : Bucketing) (expected : ℕ) : MethodSummary →+ MethodSummary where
  toFun m := { m with latencies := m.latencies.correctForCoordinatedOmission b expected }
  map_zero' := rfl
  map_add' _ _ := ext rfl rfl (LatencyHistogram.correct_add b expected _ _)

end MethodSummary

namespace RunSummary

variable (b : Bucketing)

/-- What a summary counts of all methods together. -/
def whole (s : RunSummary) : MethodSummary := ⟨s.completed, s.statusErrors, s.latencies⟩

/-- The counts of the methods add up to those of all requests. -/
def MethodsAddUp (s : RunSummary) : Prop := s.whole = (Method.all.map s.methodSummaries).sum

theorem methodsAddUp_empty : MethodsAddUp {} :=
  (Multiset.sum_map_zero (m := (Method.all : Multiset Method)) (M := MethodSummary)).symm

theorem MethodsAddUp.record {s : RunSummary} (h : s.MethodsAddUp) (r : RecordedResponse) :
    (s.recordOne r).MethodsAddUp :=
  calc (s.recordOne r).whole
      = s.whole.record r.status r.latency := rfl
    _ = s.whole + MethodSummary.record 0 r.status r.latency := MethodSummary.record_eq_add _ _ _
    _ = (Method.all.map (s.recordOne r).methodSummaries).sum := by
      rw [methodSummaries_record, Method.sum_add, Method.sum_single, ← h]

theorem MethodsAddUp.merge {s other : RunSummary} (h : s.MethodsAddUp)
    (hother : other.MethodsAddUp) : (s.merge other).MethodsAddUp :=
  calc (s.merge other).whole
      = s.whole + other.whole := rfl
    _ = (Method.all.map (s.methodSummaries + other.methodSummaries)).sum := by
      rw [Method.sum_add, ← h, ← hother]

theorem methodsAddUp_build (a : Assembly RecordedResponse) :
    (a.build operations).MethodsAddUp := by
  induction a with
  | empty => exact methodsAddUp_empty
  | record a r ih => exact ih.record r
  | merge a a' ih ih' => exact ih.merge ih'

/-- The correction of all requests is the sum of the corrections of the methods. -/
theorem MethodsAddUp.corrected {s : RunSummary} (h : s.MethodsAddUp) (expected : ℕ) :
    (s.corrected b expected).MethodsAddUp :=
  calc (s.corrected b expected).whole
      = MethodSummary.correction b expected s.whole := rfl
    _ = ((Method.all.map s.methodSummaries).map (MethodSummary.correction b expected)).sum := by
      rw [h, map_list_sum]
    _ = (Method.all.map (s.corrected b expected).methodSummaries).sum := by
      rw [List.map_map]
      rfl

theorem MethodsAddUp.correctedAfter {s : RunSummary} (h : s.MethodsAddUp)
    (connectionCount runtime : ℕ) : (s.correctedAfter b connectionCount runtime).MethodsAddUp := by
  rw [RunSummary.correctedAfter]
  split
  · exact h
  · exact h.corrected b _

/-- A count of all requests is the sum of the counts of the methods. -/
theorem MethodsAddUp.sum_eq {s : RunSummary} (h : s.MethodsAddUp) {M : Type*} [AddCommMonoid M]
    (f : MethodSummary →+ M) : f s.whole = (Method.all.map fun m => f (s.method m)).sum := by
  rw [h, map_list_sum, List.map_map]
  rfl

/-- The counts of all requests are the sums of those of the methods, the latencies bucket by
bucket. -/
structure Balanced (s : RunSummary) : Prop where
  completed : s.completed = (Method.all.map fun m => (s.method m).completed).sum
  statusErrors : s.statusErrors = (Method.all.map fun m => (s.method m).statusErrors).sum
  buckets : ∀ bucket, s.latencies.bucketCount b bucket =
    (Method.all.map fun m => (s.method m).latencies.bucketCount b bucket).sum
  overflowCount : s.latencies.overflowCount =
    (Method.all.map fun m => (s.method m).latencies.overflowCount).sum

theorem MethodsAddUp.balanced {s : RunSummary} (h : s.MethodsAddUp) : s.Balanced b where
  completed := h.sum_eq MethodSummary.completedCounts
  statusErrors := h.sum_eq MethodSummary.errorCounts
  buckets bucket :=
    h.sum_eq ((LatencyHistogram.bucketCounts b bucket).comp MethodSummary.latencyCounts)
  overflowCount := h.sum_eq (LatencyHistogram.overflowCounts.comp MethodSummary.latencyCounts)

/-- Records and merges in any order leave a balanced summary, and so does the correction
afterwards, whatever its interval. -/
theorem corrected_balanced (a : Assembly RecordedResponse) (expected connectionCount runtime : ℕ) :
    ((a.build operations).corrected b expected).Balanced b ∧
      ((a.build operations).correctedAfter b connectionCount runtime).Balanced b :=
  ⟨((methodsAddUp_build a).corrected b expected).balanced b,
    ((methodsAddUp_build a).correctedAfter b connectionCount runtime).balanced b⟩

end RunSummary

end Rload
