import Rload.RecordedResponses

/-!
# The status breakdown

A response is counted among those that are completed whatever its status, but the breakdown
has no place for a status from 1000 on.
-/

namespace Rload
open AdditiveSummaries

namespace StatusCounts

variable (n : ℕ) (p : ℕ → Bool)

/-- The responses whose status is below `n` and has the property. -/
def countWhere : (ℕ → ℕ) →+ ℕ where
  toFun counts := ∑ status ∈ Finset.range n, if p status then counts status else 0
  map_zero' := Finset.sum_eq_zero fun status _ => ite_self 0
  map_add' f g := by
    rw [← Finset.sum_add_distrib]
    apply Finset.sum_congr rfl
    intro status _
    split
    · rfl
    · rfl

theorem countWhere_single (status : ℕ) :
    countWhere n p (Pi.single status 1) = if status < n ∧ p status then 1 else 0 := by
  have hterm : ∀ k ∈ Finset.range n, (if p k then (Pi.single status 1 : ℕ → ℕ) k else 0) =
      if status = k then if p k then 1 else 0 else 0 := by
    intro k _
    by_cases hk : status = k
    · subst hk
      rw [Pi.single_eq_same, if_pos rfl]
    · rw [Pi.single_eq_of_ne (Ne.symm hk), if_neg hk, ite_self]
  refine (Finset.sum_congr rfl hterm).trans ?_
  rw [Finset.sum_ite_eq, ite_and]
  simp only [Finset.mem_range]

theorem countWhere_one (status : ℕ) :
    countWhere 1000 p (one status) = if status < 1000 ∧ p status then 1 else 0 := by
  rw [one]
  split
  case isTrue => exact countWhere_single 1000 p status
  case isFalse hlt => rw [map_zero, if_neg fun h => hlt h.1]

theorem sum_zipIdx {s : StatusCounts} (h : s.counts.length = n) :
    (s.counts.zipIdx.map fun (count, status) => if p status then count else 0).sum =
      countWhere n p s.get := by
  have hlist : (s.counts.zipIdx.map fun (count, status) => if p status then count else 0) =
      (List.range n).map fun status => if p status then s.get status else 0 := by
    apply List.ext_getElem
    · rw [List.length_map, List.length_zipIdx, List.length_map, List.length_range, h]
    · intro k hk hk'
      rw [List.length_map, List.length_zipIdx] at hk
      have hget : s.get k = s.counts[k] := by
        rw [get, List.getElem?_eq_getElem hk]
        rfl
      simp only [List.getElem_map, List.getElem_zipIdx, List.getElem_range, Nat.zero_add, hget]
  rw [hlist]
  rfl

end StatusCounts

namespace RunSummary

/-- The sum of the counts that `observed_statuses` gives for the statuses with the property. -/
def observedSum (p : ℕ → Bool) (s : RunSummary) : ℕ :=
  ((s.observedStatuses.filter fun (status, _) => p status).map Prod.snd).sum

/-- The statuses that are not observed have nothing to add. -/
theorem observedSum_eq (p : ℕ → Bool) (s : RunSummary) (h : s.statusCounts.Full) :
    s.observedSum p = StatusCounts.countWhere 1000 p s.statusCounts.get := by
  have hsum : ∀ pairs : List (ℕ × ℕ),
      ((((pairs.filter fun (count, _) => 0 < count).map fun (count, status) =>
        (status, count)).filter fun (status, _) => p status).map Prod.snd).sum =
      (pairs.map fun (count, status) => if p status then count else 0).sum := by
    intro pairs
    induction pairs with
    | nil => rfl
    | cons pair pairs ih =>
      obtain ⟨count, status⟩ := pair
      rw [List.map_cons, List.sum_cons, ← ih]
      cases count with
      | zero => simp
      | succ count =>
        cases hp : p status with
        | true => simp [hp]
        | false => simp [hp]
  rw [observedSum, observedStatuses, hsum, StatusCounts.sum_zipIdx 1000 p h]

/-- Every response is in the breakdown, and every error among its statuses from 400 on. -/
def LosesNoStatus (s : RunSummary) : Prop :=
  s.observedSum (fun _ => true) = s.completed ∧
    s.observedSum (fun status => 400 ≤ status) = s.statusErrors

theorem Agrees.losesNoStatus {s other : RunSummary} (h : s.Agrees other) :
    s.LosesNoStatus ↔ other.LosesNoStatus := by
  rw [LosesNoStatus, LosesNoStatus, observedSum, observedSum, observedSum, observedSum,
    observedStatuses, observedStatuses, h.statusCounts, h.completed, h.statusErrors]

theorem sum_ite_eq_countP {α : Type} (p : α → Bool) (as : List α) :
    (as.map fun a => if p a then 1 else 0).sum = as.countP p := by
  induction as with
  | nil => rfl
  | cons a as ih =>
    rw [List.map_cons, List.sum_cons, ih, List.countP_cons, Nat.add_comm]

def completedTally : Tally →+ ℕ := AddMonoidHom.fst ..

def errorTally : Tally →+ ℕ := (AddMonoidHom.fst ..).comp (AddMonoidHom.snd ..)

def statusTally : Tally →+ (ℕ → ℕ) :=
  (AddMonoidHom.fst ..).comp ((AddMonoidHom.snd ..).comp (AddMonoidHom.snd ..))

theorem statusTally_tally (s : RunSummary) : statusTally s.tally = s.statusCounts.get := rfl

theorem statusTally_tallyOne (r : RecordedResponse) :
    statusTally (tallyOne r) = StatusCounts.one r.status := rfl

/-- A count of a summary is the sum of what its responses add to it. -/
theorem tally_build (f : Tally →+ ℕ) (a : Assembly RecordedResponse) :
    f (a.build operations).tally = (a.items.map fun r => f (tallyOne r)).sum := by
  rw [tally_additive.view_build, map_list_sum, List.map_map]
  rfl

theorem completed_build (a : Assembly RecordedResponse) :
    (a.build operations).completed = a.items.length := by
  have hsum := tally_build completedTally a
  rwa [show (fun r => completedTally (tallyOne r)) = fun _ => 1 from rfl, List.map_const',
    List.sum_replicate, smul_eq_mul, mul_one] at hsum

theorem statusErrors_build (a : Assembly RecordedResponse) :
    (a.build operations).statusErrors = a.items.countP fun r => 400 ≤ r.status := by
  rw [← sum_ite_eq_countP]
  simp only [decide_eq_true_eq]
  exact tally_build errorTally a

theorem observedSum_build (p : ℕ → Bool) (a : Assembly RecordedResponse) :
    (a.build operations).observedSum p =
      a.items.countP fun r => r.status < 1000 ∧ p r.status := by
  rw [observedSum_eq p _ (tally_additive.valid_build a), ← sum_ite_eq_countP]
  have hsum := tally_build ((StatusCounts.countWhere 1000 p).comp statusTally) a
  simp only [AddMonoidHom.comp_apply, statusTally_tally, statusTally_tallyOne,
    StatusCounts.countWhere_one] at hsum
  simp only [decide_eq_true_eq, hsum]

theorem losesNoStatus_build (a : Assembly RecordedResponse) :
    (a.build operations).LosesNoStatus ↔ ∀ r ∈ a.items, r.status < 1000 := by
  rw [LosesNoStatus, observedSum_build, observedSum_build, completed_build, statusErrors_build]
  constructor
  · rintro ⟨hall, -⟩ r hr
    have h := List.countP_eq_length.mp hall r hr
    exact (decide_eq_true_eq.mp h).1
  · intro h
    constructor
    · apply List.countP_eq_length.mpr
      intro r hr
      exact decide_eq_true ⟨h r hr, rfl⟩
    · apply List.countP_congr
      intro r hr
      simp only [decide_eq_true_eq, h r hr, true_and]

end RunSummary

/-- Records and merges lose no status if and only if each response has a status below 1000,
and so does a run that returns. -/
theorem status_breakdown_iff (a : Assembly RecordedResponse) (input : RunInput)
    (schedule : List ℕ) {summary : RunSummary}
    (h : (input.after schedule).outcome input.prepared = some (.ok summary)) :
    ((a.build RunSummary.operations).LosesNoStatus ↔ ∀ r ∈ a.items, r.status < 1000) ∧
      (summary.LosesNoStatus ↔
        ∀ answer ∈ input.answers schedule, answer.response.status < 1000) := by
  refine ⟨RunSummary.losesNoStatus_build a, ?_⟩
  rw [(input.outcome_agrees schedule h).losesNoStatus, ← RunSummary.build_ofList,
    RunSummary.losesNoStatus_build, Assembly.items_ofList]
  exact List.forall_mem_map

/-- Whether the run returns with one response, which is an error and has no status. -/
def RunInput.losesOneStatus (input : RunInput) (schedule : List ℕ) : Bool :=
  match (input.after schedule).outcome input.prepared with
  | some (.ok summary) =>
    summary.completed = 1 && summary.statusErrors = 1 && summary.observedStatuses = []
  | _ => false

/-- `HTTP/1.1 1000 OK` with `Content-Length: 0`. -/
def fourDigitResponse : List UInt8 :=
  [72, 84, 84, 80, 47, 49, 46, 49, 32, 49, 48, 48, 48, 32, 79, 75, 13, 10, 67, 111, 110, 116,
    101, 110, 116, 45, 76, 101, 110, 103, 116, 104, 58, 32, 48, 13, 10, 13, 10]

/-- One request to a server that answers with a status of four digits. -/
def fourDigitRun : RunInput :=
  .plain (.requests 1) 1 (.inOrder [getRoot]) none fun _ =>
    { promptReply with reads := [.ok fourDigitResponse] }

theorem fourDigitRun_loses : fourDigitRun.losesOneStatus (List.replicate 14 0) = true := by
  decide +kernel

theorem four_digit_status_lost :
    ∃ summary, (fourDigitRun.after (List.replicate 14 0)).outcome fourDigitRun.prepared =
      some (.ok summary) ∧ summary.completed = 1 ∧ summary.statusErrors = 1 ∧
      summary.observedStatuses = [] ∧ ¬ summary.LosesNoStatus := by
  have hloses := fourDigitRun_loses
  unfold RunInput.losesOneStatus at hloses
  split at hloses
  case h_1 summary houtcome =>
    rw [Bool.and_eq_true, Bool.and_eq_true, decide_eq_true_eq, decide_eq_true_eq,
      decide_eq_true_eq] at hloses
    obtain ⟨⟨hcompleted, herrors⟩, hstatuses⟩ := hloses
    refine ⟨summary, houtcome, hcompleted, herrors, hstatuses, ?_⟩
    rintro ⟨hsum, -⟩
    rw [RunSummary.observedSum, hstatuses, hcompleted] at hsum
    cases hsum
  case h_2 => cases hloses

/-- With the statuses of three digits of a prompt server nothing is lost. -/
theorem status_breakdown_sample :
    ∃ summary, (RunInput.promptRun.after (List.replicate 14 0)).outcome
        RunInput.promptRun.prepared = some (.ok summary) ∧
      (((Assembly.ofList RunSummary.threeResponses).build RunSummary.operations).LosesNoStatus ↔
        ∀ r ∈ (Assembly.ofList RunSummary.threeResponses).items, r.status < 1000) ∧
      (summary.LosesNoStatus ↔ ∀ answer ∈ RunInput.promptRun.answers (List.replicate 14 0),
        answer.response.status < 1000) := by
  obtain ⟨summary, h⟩ := LoadRun.exists_of_returns RunInput.promptRun_returns
  exact ⟨summary, h, status_breakdown_iff _ _ _ h⟩

end Rload
