import Rload.CommandLine
import Rload.MonotoneRounding
import Rload.StatusBreakdown

/-!
# Assertions

An assertion compares a figure of a summary with a number. After a run the assertions of its plan
are evaluated in order, and the first one that fails ends the program.
-/

namespace Rload

open FloatingSeconds

/-- What the library computes of the values of a histogram, in microseconds. -/
structure HistogramFigures where
  valueAtQuantile : Histogram → ℚ → ℕ
  mean : Histogram → ℚ

namespace LatencyHistogram

def isEmpty (h : LatencyHistogram) : Bool := h.histogramMut = 0

def percentile (figures : HistogramFigures) (percentile : ℚ) (h : LatencyHistogram) : Option ℕ :=
  if h.isEmpty ∨ percentile < 0 ∨ 100 < percentile then none
  else some (min (figures.valueAtQuantile h.histogramMut (divF64 percentile 100)) maxLatencyUs *
    1000)

/-- `none` is a panic of `Duration::from_secs_f64`. -/
def mean (figures : HistogramFigures) (h : LatencyHistogram) : Option ℕ :=
  fromSecsF64 (divF64 ((h.histogram.map figures.mean).getD 0) (10 ^ 6))

end LatencyHistogram

namespace Assertions
open TextScanning Profiles

/-- The error of an assertion: a text, or the value that failed it. -/
inductive Fault where
  | invalid (text : String)
  | failed (expression : String) (actual : ℚ)
  | panic
  deriving DecidableEq

def invalid (expression : String) : Fault :=
  .invalid ("invalid assertion: " ++ expression ++ "; expected METRIC OPERATOR VALUE")

inductive Operator where
  | lt | le | eq | ne | ge | gt
  deriving DecidableEq, Repr

namespace Operator

def text : Operator → String
  | lt => "<"
  | le => "<="
  | eq => "=="
  | ne => "!="
  | ge => ">="
  | gt => ">"

def all : List Operator := [lt, le, eq, ne, ge, gt]

def holds {α : Type*} [LinearOrder α] : Operator → α → α → Bool
  | lt, actual, expected => actual < expected
  | le, actual, expected => actual ≤ expected
  | eq, actual, expected => actual = expected
  | ne, actual, expected => actual ≠ expected
  | ge, actual, expected => expected ≤ actual
  | gt, actual, expected => expected < actual

def ofText (operator : String) : Option Operator := all.find? fun o => o.text = operator

end Operator

def durationUs (duration : ℕ) : ℕ := min (duration / 1000) (2 ^ 64 - 1)

/-- `Duration::as_secs_f64` of a number of nanoseconds. -/
def asSecsF64 (duration : ℕ) : ℚ :=
  toF64 (toF64 (duration / 10 ^ 9 : ℕ) + divF64 (duration % 10 ^ 9 : ℕ) (10 ^ 9))

def rate (completed runtime : ℕ) : ℚ :=
  if runtime = 0 then 0 else divF64 (toF64 completed) (asSecsF64 runtime)

def errorRate (summary : RunSummary) : ℚ :=
  let attempts := summary.completed + summary.socketErrors.total
  if attempts = 0 then 0
  else divF64 (toF64 (summary.statusErrors + summary.socketErrors.total : ℕ)) (toF64 attempts)

/-- `loadRuntime` is the time of the load in nanoseconds. -/
def metricValue (figures : HistogramFigures) (loadRuntime : ℕ) (summary : RunSummary)
    (metric : String) : Except Fault ℚ :=
  let unavailable := .error (.invalid ("assertion metric unavailable: " ++ metric))
  let latency := fun percentile : ℚ =>
    match summary.latencies.percentile figures percentile with
    | some duration => .ok (toF64 (durationUs duration))
    | none => unavailable
  match metric with
  | "rps" => .ok (rate summary.completed loadRuntime)
  | "mean" =>
    if summary.latencies.isEmpty then unavailable
    else match summary.latencies.mean figures with
      | some duration => .ok (toF64 (durationUs duration))
      | none => .error .panic
  | "p50" => latency 50
  | "p90" => latency 90
  | "p95" => latency 95
  | "p99" => latency 99
  | "error_rate" => .ok (errorRate summary)
  | "status_errors" => .ok (toF64 summary.statusErrors)
  | "socket_errors" => .ok (toF64 summary.socketErrors.total)
  | "completed" => .ok (toF64 summary.completed)
  | "abandoned_requests" => .ok (toF64 summary.abandonedRequests)
  | "recovery_attempts" => .ok (toF64 summary.recoveryAttempts)
  | _ => .error (.invalid ("unknown assertion metric: " ++ metric))

/-- A finite number; `none` where the text is none. -/
def parseFinite (text : List Char) : Option ℚ := (parseF64 text).bind id

/-- The number of a duration and the microseconds of its unit. -/
def microsUnit (value : List Char) : Option (List Char × ℚ) :=
  match stripSuffix ['u', 's'] value with
  | some number => some (number, 1)
  | none => match stripSuffix ['m', 's'] value with
    | some number => some (number, 1000)
    | none => match stripSuffix ['s'] value with
      | some number => some (number, 1000000)
      | none => none

/-- The product of a large number of seconds is infinite. -/
def parseDurationUs (value : String) : Except Fault (WithTop ℚ) :=
  match microsUnit value.toList with
  | none =>
    .error (.invalid ("assertion value for latency metrics requires us, ms, or s: " ++ value))
  | some (number, multiplier) =>
    match (parseFinite number).filter (0 ≤ ·) with
    | some micros => .ok (roundF64 (micros * multiplier))
    | none => .error (.invalid ("invalid assertion value: " ++ value))

def isLatencyMetric : String → Bool
  | "mean" | "p50" | "p90" | "p95" | "p99" => true
  | _ => false

def expectedValue (metric value : String) : Except Fault (WithTop ℚ) :=
  if isLatencyMetric metric then parseDurationUs value
  else if (stripSuffix ['u', 's'] value.toList).isSome ∨
      (stripSuffix ['m', 's'] value.toList).isSome ∨ (stripSuffix ['s'] value.toList).isSome then
    .error (.invalid ("assertion value for " ++ metric ++ " must not include a duration unit"))
  else match parseFinite value.toList with
    | some x => .ok (x : ℚ)
    | none => .error (.invalid ("invalid assertion value: " ++ value))

def evaluate (figures : HistogramFigures) (loadRuntime : ℕ) (summary : RunSummary)
    (expression : String) : Except Fault Unit :=
  match splitWhitespace expression.toList with
  | [metric, operator, expected] => do
    let actual ← metricValue figures loadRuntime summary (String.ofList metric)
    let expected ← expectedValue (String.ofList metric) (String.ofList expected)
    match Operator.ofText (String.ofList operator) with
    | some operator =>
      if operator.holds (actual : WithTop ℚ) expected then .ok ()
      else .error (.failed expression actual)
    | none =>
      .error (.invalid ("invalid assertion operator: " ++ String.ofList operator ++
        "; expected <, <=, ==, !=, >=, or >"))
  | _ => .error (invalid expression)

/-- The first assertion that fails, with its message. -/
def checkAssertions (figures : HistogramFigures) (loadRuntime : ℕ) (summary : RunSummary)
    (assertions : List Assertion) : Except (Option String × Fault) Unit :=
  assertions.forM fun assertion =>
    (evaluate figures loadRuntime summary assertion.expression).mapError fun fault =>
      (assertion.message, fault)

example : evaluate ⟨fun _ _ => 0, fun _ => 0⟩ 0
    { completed := 2, statusErrors := 1, socketErrors := { connect := 1 } }
    "error_rate < 0.5" = .error (.failed "error_rate < 0.5" (divF64 2 3)) := by decide +kernel

variable {figures : HistogramFigures} {loadRuntime : ℕ} {summary : RunSummary}
  {expression opposed metric value : String} {operator : Operator}

namespace Operator

/-- The operator that holds where the other one does not. -/
def opposite : Operator → Operator
  | lt => ge
  | le => gt
  | eq => ne
  | ne => eq
  | ge => lt
  | gt => le

theorem holds_opposite {α : Type*} [LinearOrder α] (o : Operator) (a b : α) :
    o.opposite.holds a b = !o.holds a b := by
  cases o <;> simp only [opposite, holds, ← decide_not, not_lt, not_le, ne_eq, not_not]

/-- Strictly monotone functions keep the verdict. -/
theorem holds_map {α β : Type*} [LinearOrder α] [LinearOrder β] {f : α → β} (hf : StrictMono f)
    (o : Operator) (a b : α) : o.holds (f a) (f b) = o.holds a b := by
  cases o <;> simp [holds, hf.lt_iff_lt, hf.le_iff_le, hf.injective.eq_iff]

theorem ofText_text (o : Operator) : ofText o.text = some o := by
  cases o <;> decide

end Operator

/-- The words of an expression. -/
def Written (expression metric : String) (operator : Operator) (value : String) : Prop :=
  splitWhitespace expression.toList = [metric.toList, operator.text.toList, value.toList]

theorem evaluate_eq (h : Written expression metric operator value) :
    evaluate figures loadRuntime summary expression = (do
      let actual ← metricValue figures loadRuntime summary metric
      let expected ← expectedValue metric value
      if operator.holds (actual : WithTop ℚ) expected then .ok ()
      else .error (.failed expression actual)) := by
  rw [Written] at h
  simp only [evaluate, h, String.ofList_toList, Operator.ofText_text]

theorem evaluate_of_values (h : Written expression metric operator value) {actual : ℚ}
    {expected : WithTop ℚ} (hactual : metricValue figures loadRuntime summary metric = .ok actual)
    (hexpected : expectedValue metric value = .ok expected) :
    evaluate figures loadRuntime summary expression =
      if operator.holds (actual : WithTop ℚ) expected then .ok ()
      else .error (.failed expression actual) := by
  rw [evaluate_eq h, hactual, hexpected]
  rfl

/-- Opposite operators have opposite verdicts, and what cannot be judged fails in the same way. -/
theorem evaluate_opposite (h : Written expression metric operator value)
    (hopposed : Written opposed metric operator.opposite value) :
    (∃ fault, evaluate figures loadRuntime summary expression = .error fault ∧
      evaluate figures loadRuntime summary opposed = .error fault) ∨
    ∃ actual, metricValue figures loadRuntime summary metric = .ok actual ∧
      ((evaluate figures loadRuntime summary expression = .ok () ∧
          evaluate figures loadRuntime summary opposed = .error (.failed opposed actual)) ∨
        (evaluate figures loadRuntime summary expression = .error (.failed expression actual) ∧
          evaluate figures loadRuntime summary opposed = .ok ())) := by
  cases hactual : metricValue figures loadRuntime summary metric with
  | error fault =>
    left
    refine ⟨fault, ?_, ?_⟩
    · rw [evaluate_eq h, hactual]
      rfl
    · rw [evaluate_eq hopposed, hactual]
      rfl
  | ok actual =>
    cases hexpected : expectedValue metric value with
    | error fault =>
      left
      refine ⟨fault, ?_, ?_⟩
      · rw [evaluate_eq h, hactual, hexpected]
        rfl
      · rw [evaluate_eq hopposed, hactual, hexpected]
        rfl
    | ok expected =>
      right
      refine ⟨actual, rfl, ?_⟩
      rw [evaluate_of_values h hactual hexpected, evaluate_of_values hopposed hactual hexpected,
        Operator.holds_opposite]
      cases operator.holds (actual : WithTop ℚ) expected with
      | true => exact Or.inl ⟨rfl, rfl⟩
      | false => exact Or.inr ⟨rfl, rfl⟩

/-- The metrics that count. -/
def counts (summary : RunSummary) : List (String × ℕ) :=
  [("status_errors", summary.statusErrors), ("socket_errors", summary.socketErrors.total),
    ("completed", summary.completed), ("abandoned_requests", summary.abandonedRequests),
    ("recovery_attempts", summary.recoveryAttempts)]

theorem metricValue_of_count {count : ℕ} (h : (metric, count) ∈ counts summary) :
    metricValue figures loadRuntime summary metric = .ok (toF64 count) := by
  simp only [counts, List.mem_cons, List.not_mem_nil, or_false, Prod.mk.injEq] at h
  obtain ⟨rfl, rfl⟩ | ⟨rfl, rfl⟩ | ⟨rfl, rfl⟩ | ⟨rfl, rfl⟩ | ⟨rfl, rfl⟩ := h <;> rfl

theorem isLatencyMetric_of_count {count : ℕ} (h : (metric, count) ∈ counts summary) :
    isLatencyMetric metric = false := by
  simp only [counts, List.mem_cons, List.not_mem_nil, or_false, Prod.mk.injEq] at h
  obtain ⟨rfl, -⟩ | ⟨rfl, -⟩ | ⟨rfl, -⟩ | ⟨rfl, -⟩ | ⟨rfl, -⟩ := h <;> rfl

/-- A text of digits has no unit. -/
theorem stripSuffix_repr {n : ℕ} {last : List Char} (hlast : 's' ∈ last) :
    stripSuffix last n.repr.toList = none := by
  cases h : stripPrefix last.reverse n.repr.toList.reverse with
  | none => rw [stripSuffix, h, Option.map_none]
  | some rest =>
    have hdigits := stripPrefix_eq_some h
    have hmem : 's' ∈ n.repr.toList.reverse := by
      rw [hdigits]
      exact List.mem_append_left _ (List.mem_reverse.mpr hlast)
    exact absurd (List.mem_reverse.mp hmem) (not_mem_repr (by decide))

theorem expectedValue_repr (hmetric : isLatencyMetric metric = false) {n : ℕ}
    (hn : n < 2 ^ 53) : expectedValue metric n.repr = .ok ((n : ℚ) : WithTop ℚ) := by
  rw [expectedValue, hmetric, if_neg Bool.false_ne_true, stripSuffix_repr (by decide),
    stripSuffix_repr (by decide), stripSuffix_repr (by decide), if_neg (by decide), parseFinite,
    parseF64_repr hn]
  rfl

/-- Counts are compared as they are. -/
theorem evaluate_count {count n : ℕ} (h : Written expression metric operator n.repr)
    (hcount : (metric, count) ∈ counts summary) (hlt : count < 2 ^ 53) (hn : n < 2 ^ 53) :
    evaluate figures loadRuntime summary expression =
      if operator.holds count n then .ok () else .error (.failed expression count) := by
  rw [evaluate_of_values h (metricValue_of_count hcount)
    (expectedValue_repr (isLatencyMetric_of_count hcount) hn), toF64_natCast hlt]
  have hmono : StrictMono fun n : ℕ => ((n : ℚ) : WithTop ℚ) :=
    WithTop.coe_strictMono.comp Nat.strictMono_cast
  rw [operator.holds_map hmono count n]

/-- The share of errors is between nothing and everything, and nothing only without errors. -/
theorem errorRate_spec (h : summary.statusErrors ≤ summary.completed) :
    0 ≤ errorRate summary ∧ errorRate summary ≤ 1 ∧
      (errorRate summary = 0 ↔
        summary.statusErrors = 0 ∧ summary.socketErrors.total = 0) := by
  rw [errorRate]
  split
  · rename_i hnone
    refine ⟨le_refl _, zero_le_one, fun _ => ?_, fun _ => rfl⟩
    omega
  · rename_i hattempts
    have hpos : 0 < toF64 (summary.completed + summary.socketErrors.total : ℕ) :=
      toF64_pos (by exact_mod_cast Nat.pos_of_ne_zero hattempts)
    have herrors : 0 ≤ toF64 (summary.statusErrors + summary.socketErrors.total : ℕ) :=
      toF64_nonneg (Nat.cast_nonneg _)
    have hle : toF64 (summary.statusErrors + summary.socketErrors.total : ℕ) ≤
        toF64 (summary.completed + summary.socketErrors.total : ℕ) :=
      toF64_mono (Nat.cast_nonneg _) (by exact_mod_cast Nat.add_le_add_right h _)
    refine ⟨divF64_nonneg herrors hpos, divF64_le_one herrors hpos hle, ?_⟩
    rw [divF64_eq_zero_iff herrors hpos]
    constructor
    · intro hzero
      obtain hnone | hsome := Nat.eq_zero_or_pos
        (summary.statusErrors + summary.socketErrors.total)
      · omega
      · exact absurd hzero (toF64_pos (by exact_mod_cast hsome)).ne'
    · rintro ⟨hstatus, hsocket⟩
      rw [hstatus, hsocket, Nat.cast_zero, toF64_zero]

theorem checkAssertions_eq_ok_iff {assertions : List Assertion} :
    checkAssertions figures loadRuntime summary assertions = .ok () ↔
      ∀ assertion ∈ assertions,
        evaluate figures loadRuntime summary assertion.expression = .ok () := by
  induction assertions with
  | nil => exact ⟨fun _ _ h => absurd h List.not_mem_nil, fun _ => rfl⟩
  | cons assertion assertions ih =>
    rw [checkAssertions] at ih ⊢
    rw [List.forM_eq_forM] at ih ⊢
    rw [List.forM_cons, List.forall_mem_cons, ← ih]
    cases evaluate figures loadRuntime summary assertion.expression with
    | error fault =>
      constructor
      · intro h
        cases h
      · rintro ⟨h, -⟩
        cases h
    | ok u => exact ⟨fun h => ⟨rfl, h⟩, fun h => h.2⟩

theorem statusErrors_le_completed {input : RunInput} {schedule : List ℕ}
    (h : (input.after schedule).outcome input.prepared = some (.ok summary)) :
    summary.statusErrors ≤ summary.completed := by
  have hagrees := input.outcome_agrees schedule h
  rw [hagrees.statusErrors, hagrees.completed, ← RunSummary.build_ofList,
    RunSummary.statusErrors_build, RunSummary.completed_build]
  exact List.countP_le_length

/-- After a run the error rate is a share. The assertions pass if each of them does, opposite ones
have opposite verdicts, and counts are compared with numerals as they are. -/
theorem run_verdicts {input : RunInput} {schedule : List ℕ}
    (h : (input.after schedule).outcome input.prepared = some (.ok summary))
    (figures : HistogramFigures) (loadRuntime : ℕ) (assertions : List Assertion) :
    (metricValue figures loadRuntime summary "error_rate" = .ok (errorRate summary) ∧
      0 ≤ errorRate summary ∧ errorRate summary ≤ 1 ∧
      (errorRate summary = 0 ↔
        summary.statusErrors = 0 ∧ summary.socketErrors.total = 0)) ∧
    (checkAssertions figures loadRuntime summary assertions = .ok () ↔
      ∀ assertion ∈ assertions,
        evaluate figures loadRuntime summary assertion.expression = .ok ()) ∧
    ∀ expression metric operator value, Written expression metric operator value →
      (∀ opposed, Written opposed metric operator.opposite value →
        (∃ fault, evaluate figures loadRuntime summary expression = .error fault ∧
          evaluate figures loadRuntime summary opposed = .error fault) ∨
        ∃ actual, metricValue figures loadRuntime summary metric = .ok actual ∧
          ((evaluate figures loadRuntime summary expression = .ok () ∧
              evaluate figures loadRuntime summary opposed = .error (.failed opposed actual)) ∨
            (evaluate figures loadRuntime summary expression =
                .error (.failed expression actual) ∧
              evaluate figures loadRuntime summary opposed = .ok ()))) ∧
      ∀ count n, (metric, count) ∈ counts summary → value = n.repr → count < 2 ^ 53 →
        n < 2 ^ 53 →
          evaluate figures loadRuntime summary expression =
            if operator.holds count n then .ok () else .error (.failed expression count) := by
  refine ⟨⟨rfl, errorRate_spec (statusErrors_le_completed h)⟩, checkAssertions_eq_ok_iff, ?_⟩
  intro expression metric operator value hwritten
  refine ⟨fun opposed hopposed => evaluate_opposite hwritten hopposed, ?_⟩
  rintro count n hcount rfl hlt hn
  exact evaluate_count hwritten hcount hlt hn

/-- One response, whose status is an error. -/
theorem run_verdicts_sample :
    ∃ summary, (fourDigitRun.after (List.replicate 14 0)).outcome fourDigitRun.prepared =
        some (.ok summary) ∧
      errorRate summary ≠ 0 ∧
      ∀ figures : HistogramFigures,
        evaluate figures 0 summary "completed < 2" = .ok () ∧
        evaluate figures 0 summary "status_errors == 0" =
          .error (.failed "status_errors == 0" 1) := by
  have hloses := fourDigitRun_loses
  unfold RunInput.losesOneStatus at hloses
  split at hloses
  case h_1 summary houtcome =>
    rw [Bool.and_eq_true, Bool.and_eq_true, decide_eq_true_eq, decide_eq_true_eq,
      decide_eq_true_eq] at hloses
    obtain ⟨⟨hcompleted, herrors⟩, -⟩ := hloses
    refine ⟨summary, houtcome, ?_, fun figures => ?_⟩
    · obtain ⟨⟨-, -, -, hzero⟩, -⟩ := run_verdicts houtcome ⟨fun _ _ => 0, fun _ => 0⟩ 0 []
      rw [Ne, hzero, herrors]
      exact fun hnone => absurd hnone.1 one_ne_zero
    · obtain ⟨-, -, hverdicts⟩ := run_verdicts houtcome figures 0 []
      constructor
      · have hcount : ("completed", 1) ∈ counts summary := by
          simp [counts, hcompleted]
        have hwritten : Written "completed < 2" "completed" .lt "2" := by
          rw [Written]
          decide +kernel
        exact (hverdicts _ _ _ _ hwritten).2 1 2 hcount (by decide) (by norm_num) (by norm_num)
      · have hcount : ("status_errors", 1) ∈ counts summary := by
          simp [counts, herrors]
        have hwritten : Written "status_errors == 0" "status_errors" .eq "0" := by
          rw [Written]
          decide +kernel
        have hverdict := (hverdicts _ _ _ _ hwritten).2 1 0 hcount (by decide) (by norm_num)
          (by norm_num)
        rwa [Nat.cast_one] at hverdict
  case h_2 => cases hloses

end Assertions

end Rload
