import Rload.AdditiveSummaries
import Rload.LoadRun
import Mathlib.Algebra.Group.Pi.Basic
import Mathlib.Algebra.Group.Prod

/-!
# What merged summaries count

The counts of a summary are sums over the responses that it has recorded, so that they do not
depend on how the responses were divided among the workers.
-/

namespace Rload
open AdditiveSummaries

namespace LatencyHistogram

instance : Zero LatencyHistogram := ⟨{}⟩

instance : Add LatencyHistogram := ⟨merge⟩

theorem ext {h h' : LatencyHistogram} (hvalues : h.histogram = h'.histogram)
    (hover : h.overflowCount = h'.overflowCount) : h = h' := by
  cases h
  cases h'
  cases hvalues
  cases hover
  rfl

theorem merge_comm (h h' : LatencyHistogram) : h.merge h' = h'.merge h := by
  apply ext
  · rcases h with ⟨_ | values, _⟩ <;> rcases h' with ⟨_ | others, _⟩
    · rfl
    · rfl
    · rfl
    · exact congrArg some (add_comm values others)
  · exact Nat.add_comm _ _

theorem merge_assoc (h h' h'' : LatencyHistogram) :
    (h.merge h').merge h'' = h.merge (h'.merge h'') := by
  apply ext
  · rcases h with ⟨_ | values, _⟩ <;> rcases h' with ⟨_ | values', _⟩ <;>
      rcases h'' with ⟨_ | values'', _⟩
    case some.some.some => exact congrArg some (add_assoc values values' values'')
    all_goals rfl
  · exact Nat.add_assoc _ _ _

theorem empty_merge (h : LatencyHistogram) : merge {} h = h := by
  apply ext
  · rcases h with ⟨_ | values, _⟩ <;> rfl
  · exact Nat.zero_add _

instance : AddCommMonoid LatencyHistogram where
  add_assoc := merge_assoc
  zero_add := empty_merge
  add_zero h := (merge_comm h {}).trans (empty_merge h)
  add_comm := merge_comm
  nsmul := nsmulRec

/-- A recorded latency counts as a histogram of its own. -/
theorem record_eq_add (h : LatencyHistogram) (latency : ℕ) :
    h.record latency = h + record 0 latency := by
  apply ext
  · rcases h with ⟨_ | values, _⟩
    · rfl
    · exact congrArg some ((Multiset.singleton_add _ values).symm.trans (add_comm _ values))
  · change (if _ then _ + 1 else _) = _ + if _ then 0 + 1 else 0
    split
    · rfl
    · rfl

end LatencyHistogram

namespace MethodSummary

instance : Zero MethodSummary := ⟨{}⟩

instance : Add MethodSummary := ⟨merge⟩

theorem ext {m m' : MethodSummary} (hcompleted : m.completed = m'.completed)
    (herrors : m.statusErrors = m'.statusErrors) (hlatencies : m.latencies = m'.latencies) :
    m = m' := by
  cases m
  cases m'
  cases hcompleted
  cases herrors
  cases hlatencies
  rfl

instance : AddCommMonoid MethodSummary where
  add_assoc m m' m'' := ext (Nat.add_assoc _ _ _) (Nat.add_assoc _ _ _)
    (LatencyHistogram.merge_assoc _ _ _)
  zero_add m := ext (Nat.zero_add _) (Nat.zero_add _) (LatencyHistogram.empty_merge _)
  add_zero m := ext rfl rfl (add_zero m.latencies)
  add_comm _ _ := ext (Nat.add_comm _ _) (Nat.add_comm _ _) (LatencyHistogram.merge_comm _ _)
  nsmul := nsmulRec

theorem record_eq_add (m : MethodSummary) (status latency : ℕ) :
    m.record status latency = m + record 0 status latency := by
  apply ext
  · rfl
  · exact congrArg (m.statusErrors + ·) (Nat.zero_add _).symm
  · exact LatencyHistogram.record_eq_add m.latencies latency

end MethodSummary

namespace StatusCounts

/-- The array has a count for every status below 1000. -/
def Full (s : StatusCounts) : Prop := s.counts.length = 1000

theorem full_default : Full {} := List.length_replicate

theorem Full.record {s : StatusCounts} (h : s.Full) (status : ℕ) : (s.record status).Full :=
  (List.length_modify ..).trans h

theorem Full.merge {s other : StatusCounts} (h : s.Full) (hother : other.Full) :
    (s.merge other).Full := by
  change (List.zipWith _ _ _).length = 1000
  rw [List.length_zipWith, h, hother, min_self]

theorem get_default : StatusCounts.get {} = 0 := by
  funext status
  change ((List.replicate 1000 0)[status]?).getD 0 = 0
  rw [List.getElem?_replicate]
  split <;> rfl

/-- How often a single response counts for each status. -/
def one (status : ℕ) : ℕ → ℕ := if status < 1000 then Pi.single status 1 else 0

theorem Full.get_record {s : StatusCounts} (h : s.Full) (status : ℕ) :
    (s.record status).get = s.get + one status := by
  funext k
  change ((s.counts.modify status (· + 1))[k]?).getD 0 = (s.counts[k]?).getD 0 + one status k
  rw [List.getElem?_modify, one]
  by_cases hk : status = k
  · subst hk
    by_cases hlt : status < 1000
    · rw [List.getElem?_eq_getElem (hlt.trans_eq h.symm), if_pos hlt, Pi.single_eq_same,
        Option.map_eq_map, Option.map_some, if_pos rfl]
      rfl
    · have hget : s.counts[status]? = none :=
        List.getElem?_eq_none (h.trans_le (Nat.le_of_not_lt hlt))
      rw [hget, if_neg hlt]
      rfl
  · have hsame : (fun a => if status = k then a + 1 else a) = (id : ℕ → ℕ) := by
      funext a
      exact if_neg hk
    rw [hsame, id_map]
    split
    · rw [Pi.single_eq_of_ne (Ne.symm hk), add_zero]
    · rfl

theorem Full.get_merge {s other : StatusCounts} (h : s.Full) (hother : other.Full) :
    (s.merge other).get = s.get + other.get := by
  funext k
  change ((List.zipWith (· + ·) s.counts other.counts)[k]?).getD 0 =
    (s.counts[k]?).getD 0 + (other.counts[k]?).getD 0
  rw [List.getElem?_zipWith]
  by_cases hk : k < 1000
  · rw [List.getElem?_eq_getElem (hk.trans_eq h.symm),
      List.getElem?_eq_getElem (hk.trans_eq hother.symm)]
    rfl
  · rw [List.getElem?_eq_none (h.trans_le (Nat.le_of_not_lt hk)),
      List.getElem?_eq_none (hother.trans_le (Nat.le_of_not_lt hk))]
    rfl

/-- Full arrays with the same counts are the same. -/
theorem Full.ext {s other : StatusCounts} (h : s.Full) (hother : other.Full)
    (hget : s.get = other.get) : s = other := by
  have hcounts : s.counts = other.counts := by
    apply List.ext_getElem (h.trans hother.symm)
    intro k hk hk'
    have hk : s.counts[k]?.getD 0 = other.counts[k]?.getD 0 := congrFun hget k
    rwa [List.getElem?_eq_getElem, List.getElem?_eq_getElem hk'] at hk
  cases s
  cases other
  cases hcounts
  rfl

end StatusCounts

/-- What `record_response` is given. -/
structure RecordedResponse where
  method : Method
  uri : Uri
  status : ℕ
  latency : ℕ
  deriving DecidableEq, Repr

namespace RunSummary

def recordOne (s : RunSummary) (r : RecordedResponse) : RunSummary :=
  s.recordResponse r.method r.uri r.status r.latency

/-- All responses recorded into one summary. -/
def recordAll (responses : List RecordedResponse) : RunSummary := responses.foldl recordOne {}

def operations : Operations RunSummary RecordedResponse where
  empty := {}
  record := recordOne
  merge := merge

/-- The summaries count the same. -/
structure Agrees (s other : RunSummary) : Prop where
  completed : s.completed = other.completed
  statusErrors : s.statusErrors = other.statusErrors
  statusCounts : s.statusCounts = other.statusCounts
  methodSummaries : s.methodSummaries = other.methodSummaries
  latencies : s.latencies = other.latencies

abbrev Tally := ℕ × ℕ × (ℕ → ℕ) × (Method → MethodSummary) × LatencyHistogram

/-- The counts of a summary that do not depend on how it was put together. -/
def tally (s : RunSummary) : Tally :=
  (s.completed, s.statusErrors, s.statusCounts.get, s.methodSummaries, s.latencies)

def tallyOne (r : RecordedResponse) : Tally :=
  (1, if 400 ≤ r.status then 1 else 0, StatusCounts.one r.status,
    Pi.single r.method (MethodSummary.record 0 r.status r.latency),
    LatencyHistogram.record 0 r.latency)

theorem methodSummaries_record (s : RunSummary) (r : RecordedResponse) :
    (s.recordOne r).methodSummaries =
      s.methodSummaries + Pi.single r.method (MethodSummary.record 0 r.status r.latency) := by
  funext m
  by_cases hm : m = r.method
  · subst hm
    rw [Pi.add_apply, Pi.single_eq_same, ← MethodSummary.record_eq_add]
    exact if_pos rfl
  · rw [Pi.add_apply, Pi.single_eq_of_ne hm, add_zero]
    exact if_neg hm

theorem tally_record (s : RunSummary) (r : RecordedResponse) (h : s.statusCounts.Full) :
    (s.recordOne r).tally = s.tally + tallyOne r :=
  congrArg₂ (fun counts rest => (s.completed + 1, s.statusErrors + _, counts, rest))
    (h.get_record r.status)
    (congrArg₂ Prod.mk (methodSummaries_record s r)
      (LatencyHistogram.record_eq_add s.latencies r.latency))

theorem tally_merge (s other : RunSummary) (h : s.statusCounts.Full)
    (hother : other.statusCounts.Full) : (s.merge other).tally = s.tally + other.tally :=
  congrArg (fun counts => (s.completed + other.completed, s.statusErrors + other.statusErrors,
    counts, s.methodSummaries + other.methodSummaries, s.latencies + other.latencies))
    (h.get_merge hother)

theorem tally_empty : tally {} = 0 :=
  congrArg (fun counts => (0, 0, counts, 0, 0)) StatusCounts.get_default

/-- Each response counts for itself. -/
theorem tally_additive :
    AdditiveSummaries.Additive operations (fun s => s.statusCounts.Full) tally tallyOne where
  valid_empty := StatusCounts.full_default
  valid_record _ r h := h.record r.status
  valid_merge _ _ h ht := h.merge ht
  view_empty := tally_empty
  view_record := tally_record
  view_merge := tally_merge

theorem Agrees.of_tally {s other : RunSummary} (h : s.statusCounts.Full)
    (hother : other.statusCounts.Full) (heq : s.tally = other.tally) : s.Agrees other := by
  injection heq with hcompleted heq
  injection heq with herrors heq
  injection heq with hcounts heq
  injection heq with hmethods hlatencies
  exact ⟨hcompleted, herrors, h.ext hother hcounts, hmethods, hlatencies⟩

theorem build_ofList (responses : List RecordedResponse) :
    (Assembly.ofList responses).build operations = recordAll responses :=
  Assembly.build_ofList operations responses

/-- The results of workers that have all returned are folded into one. -/
theorem mergeAll_ok (summary : RunSummary) (summaries : List RunSummary) :
    mergeAll summary (summaries.map .ok) = .ok (summaries.foldl merge summary) := by
  induction summaries generalizing summary with
  | nil => rfl
  | cons other summaries ih => exact ih (summary.merge other)

/-- Whatever the order and the division of the responses, the summary counts the same. -/
theorem build_agrees {a b : Assembly RecordedResponse} (h : a.items.Perm b.items) :
    (a.build operations).Agrees (b.build operations) :=
  .of_tally (tally_additive.valid_build a) (tally_additive.valid_build b)
    (tally_additive.view_eq_of_perm h)

/-- The summaries of the parts are merged in any order. -/
theorem foldl_merge_agrees {responses : List RecordedResponse}
    {parts : List (List RecordedResponse)} (hparts : parts.flatten.Perm responses) :
    ((parts.map recordAll).foldl merge {}).Agrees (recordAll responses) := by
  have hbuilt : (parts.map Assembly.ofList).map (Assembly.build operations) =
      parts.map recordAll := by
    rw [List.map_map]
    exact List.map_congr_left fun part _ => build_ofList part
  have hitems : (parts.map Assembly.ofList).map Assembly.items = parts := by
    rw [List.map_map]
    exact (List.map_congr_left fun part _ => Assembly.items_ofList part).trans (List.map_id _)
  have hmerged : (Assembly.mergeList (parts.map Assembly.ofList)).build operations =
      (parts.map recordAll).foldl merge {} := by
    rw [Assembly.build_mergeList, hbuilt]
    rfl
  rw [← hmerged, ← build_ofList responses]
  apply build_agrees
  rw [Assembly.items_mergeList, hitems, Assembly.items_ofList]
  exact hparts

/-- Responses that are divided among workers, whose summaries are merged in any order or in any
tree of merges, count as if they were recorded into one summary; an empty summary adds
nothing. -/
theorem merged_counts {responses : List RecordedResponse} {parts : List (List RecordedResponse)}
    (hparts : parts.flatten.Perm responses) {a : Assembly RecordedResponse}
    (ha : a.items.Perm responses) {s : RunSummary} (hs : s.statusCounts.Full) :
    (∃ merged, mergeAll {} (parts.map fun part => .ok (recordAll part)) = .ok merged ∧
      merged.Agrees (recordAll responses)) ∧
    (a.build operations).Agrees (recordAll responses) ∧
    (s.merge {}).Agrees s ∧ (merge {} s).Agrees s := by
  have hresults : (parts.map fun part => Except.ok (recordAll part)) =
      (parts.map recordAll).map (.ok : RunSummary → Except RunError RunSummary) :=
    List.map_map.symm
  refine ⟨⟨_, ?_, foldl_merge_agrees hparts⟩, ?_, ?_, ?_⟩
  · rw [hresults]
    exact mergeAll_ok {} (parts.map recordAll)
  · rw [← build_ofList responses]
    apply build_agrees
    rw [Assembly.items_ofList]
    exact ha
  · exact .of_tally (hs.merge StatusCounts.full_default) hs (tally_additive.view_merge_empty hs)
  · exact .of_tally (StatusCounts.full_default.merge hs) hs (tally_additive.view_empty_merge hs)

/-- A fast and a slow response of one worker, and one of another worker. -/
def threeResponses : List RecordedResponse :=
  [⟨.get, [47], 200, 100000⟩, ⟨.head, [47], 404, 2000⟩, ⟨.get, [47], 200, 10 ^ 16⟩]

theorem merged_counts_three :
    (∃ merged, mergeAll {} ([threeResponses.drop 2, threeResponses.take 2].map fun part =>
        .ok (recordAll part)) = .ok merged ∧ merged.Agrees (recordAll threeResponses)) ∧
    ((Assembly.merge (.ofList (threeResponses.drop 1)) (.ofList (threeResponses.take 1))).build
      operations).Agrees (recordAll threeResponses) ∧
    (merge {} {}).Agrees {} ∧ (merge {} {}).Agrees {} :=
  merged_counts (by decide) (by decide) StatusCounts.full_default

end RunSummary

end Rload
