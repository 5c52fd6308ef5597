import Rload.DrawnEntries
import Rload.SequenceRounds

/-!
# Completed rounds

A replay with rounds that abandons nothing completes each entry once in every round. The number of
completed rounds that a run reports follows from a total, which says nothing about single entries
where requests are abandoned.
-/

namespace Rload
open Connection

namespace LoadRun

/-- The entries that all connections have drawn. -/
def drawnEntries (r : LoadRun) : Multiset ℕ :=
  (r.components.map fun w => (w.connections.map fun c => (c.drawnEntries : Multiset ℕ)).sum).sum

/-- The entries that all connections have completed. -/
def completedEntries (r : LoadRun) : Multiset ℕ :=
  (r.components.map fun w =>
    (w.connections.map fun c => (c.completedEntries : Multiset ℕ)).sum).sum

/-- How often the entry has been completed. -/
def completions (r : LoadRun) (entry : ℕ) : ℕ := r.completedEntries.count entry

/-- The entries that connections drew and then gave up. -/
def abandonedEntries (r : LoadRun) : Multiset ℕ := r.drawnEntries - r.completedEntries

/-- No entry of `n` is abandoned more often than the run loses rounds by all that is abandoned,
where an entry that the current round has already drawn can be once more. -/
def SpreadsAbandoned (n : ℕ) (r : LoadRun) : Prop :=
  ∀ entry < n, r.abandonedEntries.count entry ≤
    Rounds.lost n r.drawnEntries.card r.abandonedEntries.card +
      (r.drawnEntries.count entry - r.drawnEntries.card / n)

end LoadRun

theorem Connection.Attends.completed_le {c : Connection} (h : c.Attends) :
    (c.completedEntries : Multiset ℕ) ≤ (c.drawnEntries : Multiset ℕ) := by
  obtain hopen | ⟨-, heq⟩ := h.dealt
  · rw [hopen]
    exact Multiset.le_cons_self _ _
  · rw [heq]

theorem card_sum {α : Type} (f : α → Multiset ℕ) (l : List α) :
    (l.map f).sum.card = (l.map fun a => (f a).card).sum := by
  induction l with
  | nil => rfl
  | cons a l ih =>
    rw [List.map_cons, List.sum_cons, Multiset.card_add, ih, List.map_cons, List.sum_cons]

/-- Related lists have equal sums. -/
theorem map_sum_eq {α β : Type} {R : α → β → Prop} {f : α → Multiset Drawn} {g : β → Multiset ℕ}
    {as : List α} {bs : List β} (h : List.Forall₂ R as bs)
    (hfg : ∀ a b, R a b → (f a).map (·.entry) = g b) :
    (as.map f).sum.map (·.entry) = (bs.map g).sum := by
  induction h with
  | nil => rfl
  | cons hab _ ih =>
    rw [List.map_cons, List.sum_cons, Multiset.map_add, hfg _ _ hab, ih, List.map_cons,
      List.sum_cons]

/-- A connection draws no more than its limit has. -/
theorem sum_drawnEntries_le {connections : List Connection} {limits : List ConnectionLimit}
    (hattends : ∀ c ∈ connections, c.Attends)
    (hlimits : (connections.map (·.limit)).Sublist limits)
    (hpos : ∀ limit ∈ limits, ∃ count, limit = .requests count ∧ 0 < count) :
    (connections.map fun c => c.drawnEntries.length).sum ≤ promisedSum limits := by
  have hall : ∀ c ∈ connections, c.drawnEntries.length ≤ c.limit.promised := by
    intro c hc
    obtain ⟨count, hcount, hcountpos⟩ := hpos _ (hlimits.subset (List.mem_map_of_mem hc))
    rw [hcount]
    exact (hattends c hc).length_le count hcount hcountpos
  calc (connections.map fun c => c.drawnEntries.length).sum
      ≤ (connections.map fun c => c.limit.promised).sum := List.sum_le_sum hall
    _ = promisedSum (connections.map (·.limit)) := by rw [promisedSum, List.map_map]; rfl
    _ ≤ promisedSum limits := (hlimits.map _).sum_le_sum fun _ _ => Nat.zero_le _

theorem completedReplayRounds_eq {prepared : PreparedRun} {r : LoadRun} {summary : RunSummary}
    (h : r.outcome prepared = some (.ok summary)) :
    summary.completedReplayRounds =
      (prepared.configuredReplayRounds.filter fun _ => 0 < prepared.replayEntries).map
        fun _ => summary.completed / prepared.replayEntries := by
  unfold LoadRun.outcome at h
  obtain ⟨results, -, h⟩ := Option.map_eq_some_iff.mp h
  cases hmerge : mergeAll {} results with
  | error e =>
    rw [hmerge] at h
    cases h
  | ok merged =>
    rw [hmerge] at h
    cases h
    rfl

namespace RunInput

variable (input : RunInput) {schedule : List ℕ} {summary : RunSummary}

theorem attends (schedule : List ℕ) :
    ∀ w ∈ (input.after schedule).components, ∀ c ∈ w.connections, c.Attends :=
  input.forall_turned attends_invariant schedule

theorem completedEntries_le (schedule : List ℕ) :
    (input.after schedule).completedEntries ≤ (input.after schedule).drawnEntries := by
  apply List.sum_le_sum
  intro w hw
  apply List.sum_le_sum
  intro c hc
  exact (input.attends schedule w hw c hc).completed_le

/-- With a fixed number of requests the completed entries are as many as the summary counts. -/
theorem card_completedEntries {n : ℕ} (hvalid : input.prepared.config.validate = .ok ())
    (hlimit : input.prepared.config.limit = .requests n)
    (houtcome : (input.after schedule).outcome input.prepared = some (.ok summary)) :
    (input.after schedule).completedEntries.card = summary.completed := by
  obtain ⟨hsum, -⟩ := input.outcome_sum additive_completed schedule houtcome
  rw [hsum, LoadRun.completedEntries, card_sum]
  refine congrArg List.sum (List.map_congr_left fun w hw => ?_)
  rw [card_sum, (input.ledger (limits_pos hvalid hlimit) schedule w hw).completed_eq]
  refine congrArg List.sum (List.map_congr_left fun c hc => ?_)
  exact (input.attends schedule w hw c hc).length_eq

/-- No more entries are drawn than there are requests. -/
theorem card_drawnEntries_le {n : ℕ} (hvalid : input.prepared.config.validate = .ok ())
    (hlimit : input.prepared.config.limit = .requests n) (schedule : List ℕ) :
    (input.after schedule).drawnEntries.card ≤ n := by
  have hlimits := input.forall₂_worker Worker.invariant_limits
    (fun limits _ worker => List.Sublist.refl limits) schedule
  have hpos := limits_pos hvalid hlimit
  have hattends := input.attends schedule
  have hall := (List.forall₂_and_left _ _).mpr ⟨hattends, hlimits⟩
  have hall := (List.forall₂_and_left _ _).mpr ⟨hpos, hall.flip⟩
  rw [← promised_limits hvalid hlimit, LoadRun.drawnEntries, card_sum]
  apply List.Forall₂.sum_le_sum
  rw [List.forall₂_map_left_iff, List.forall₂_map_right_iff]
  apply hall.flip.imp
  rintro w limits ⟨hpos, hattends, hsublist⟩
  rw [card_sum]
  exact sum_drawnEntries_le hattends ((List.sublist_append_left _ _).trans hsublist) hpos

/-- The draws of the connections are those of the sequence. -/
theorem exists_issued_entries
    (houtcome : (input.after schedule).outcome input.prepared = some (.ok summary)) :
    ∃ issued, input.prepared.sequence.Issues issued (input.after schedule).shared ∧
      ((issued.map (·.entry) : List ℕ) : Multiset ℕ) = (input.after schedule).drawnEntries := by
  obtain ⟨issued, books, lost, hledger⟩ := input.exists_ledger ledger_entries schedule
  obtain ⟨-, hreturned⟩ := input.outcome_sum additive_completed schedule houtcome
  have hlost : lost = 0 := by
    obtain hlost | ⟨w, hw, e, hfailed⟩ := hledger.complete
    · exact hlost
    · obtain ⟨s, hphase⟩ := hreturned w hw
      rw [hphase] at hfailed
      cases hfailed
  have hbalance := hledger.balance
  rw [hlost, add_zero] at hbalance
  refine ⟨issued, hledger.issues, ?_⟩
  rw [← Multiset.map_coe, ← hbalance]
  apply map_sum_eq hledger.keeps
  intro books w hkeeps
  apply map_sum_eq hkeeps
  intro book c hbook
  rw [Multiset.map_coe, hbook]

section Rounds

variable {requests : List EncodedRequest} {rounds entry : ℕ}

/-- What is known of a replay with rounds that returns: its draws are in rounds, and there are no
more than the rounds have. -/
theorem exists_rounds (hprepared : PreparesRounds requests rounds input.prepared)
    (houtcome : (input.after schedule).outcome input.prepared = some (.ok summary)) :
    ∃ closed current drawn, Rounds.Draws (List.range requests.length) closed current drawn ∧
      (drawn : Multiset ℕ) = (input.after schedule).drawnEntries ∧
      drawn.length ≤ requests.length * rounds := by
  obtain ⟨issued, hissues, hentries⟩ := input.exists_issued_entries houtcome
  have hle := input.card_drawnEntries_le hprepared.valid hprepared.limit_eq schedule
  rw [← hentries, Multiset.coe_card] at hle
  have hlt := hprepared.lt_wordLimit
  rw [wordLimit] at hlt
  rw [List.length_map] at hle
  obtain ⟨-, closed, current, hdraws, -⟩ := hissues.inRounds hprepared.atRound (by omega)
  rw [hprepared.requests_eq] at hdraws
  refine ⟨closed, current, issued.map (·.entry), hdraws, hentries, ?_⟩
  rwa [List.length_map]

/-- Every replay with rounds that returns and has abandoned nothing has completed each entry once
in every round. -/
theorem completions_eq_rounds {config : RunConfig} {options : ReplayOptions}
    {filtered now : ℕ} {seed : UInt64} (hrequests : requests ≠ [])
    (hprepare : prepareReplay config requests options (some rounds) filtered seed now =
      .ok (some input.prepared)) (schedule : List ℕ)
    (houtcome : (input.after schedule).outcome input.prepared = some (.ok summary))
    (habandoned : summary.abandonedRequests = 0) (hentry : entry < requests.length) :
    (input.after schedule).completions entry = rounds := by
  have hprepared := preparesRounds hrequests hprepare
  obtain ⟨closed, current, drawn, hdraws, hdrawn, hle⟩ := input.exists_rounds hprepared houtcome
  have hall := input.requests_accounted hprepared.valid hprepared.limit_eq schedule houtcome
  have hcard := input.card_completedEntries hprepared.valid hprepared.limit_eq houtcome
  rw [habandoned, add_zero] at hall
  have hcompleted : (input.after schedule).completedEntries = drawn := by
    refine Multiset.eq_of_le_of_card_le ?_ ?_
    · rw [hdrawn]
      exact input.completedEntries_le schedule
    · rw [hcard, hall, Multiset.coe_card]
      exact hle
  have hlength : drawn.length = rounds * (List.range requests.length).length := by
    rw [← Multiset.coe_card, ← hcompleted, hcard, hall, List.length_range, Nat.mul_comm]
  rw [LoadRun.completions, hcompleted, Multiset.coe_count]
  exact hdraws.count_of_length List.nodup_range hlength (List.mem_range.mpr hentry)

/-- The reported number of rounds is one that every entry has been completed in, if and only if
what is abandoned is spread over the entries. -/
theorem completed_rounds_iff {config : RunConfig} {options : ReplayOptions}
    {filtered now : ℕ} {seed : UInt64} (hrequests : requests ≠ [])
    (hprepare : prepareReplay config requests options (some rounds) filtered seed now =
      .ok (some input.prepared)) (schedule : List ℕ)
    (houtcome : (input.after schedule).outcome input.prepared = some (.ok summary)) :
    (∀ r, summary.completedReplayRounds = some r → ∀ entry < requests.length,
        r ≤ (input.after schedule).completions entry) ↔
      (input.after schedule).SpreadsAbandoned requests.length := by
  have hprepared := preparesRounds hrequests hprepare
  obtain ⟨closed, current, drawn, hdraws, hdrawn, -⟩ := input.exists_rounds hprepared houtcome
  have hcard := input.card_completedEntries hprepared.valid hprepared.limit_eq houtcome
  have hle := input.completedEntries_le schedule
  have hlength : 0 < requests.length := List.length_pos_iff.mpr hrequests
  have hreported : summary.completedReplayRounds =
      some (summary.completed / requests.length) := by
    rw [completedReplayRounds_eq houtcome, hprepared.rounds_eq, hprepared.entries_eq]
    simp [hlength]
  have hsplit := Multiset.card_sub hle
  have hcards := Multiset.card_le_card hle
  have hfewer : (input.after schedule).abandonedEntries.card ≤
      (input.after schedule).drawnEntries.card :=
    Multiset.card_le_card (Multiset.sub_le_self _ _)
  have hlost := Rounds.div_add_lost hlength hfewer
  have hrounds : (input.after schedule).drawnEntries.card -
      (input.after schedule).abandonedEntries.card = summary.completed := by
    rw [LoadRun.abandonedEntries, hsplit, ← hcard]
    omega
  rw [hrounds] at hlost
  have hentry : ∀ entry < requests.length,
      (summary.completed / requests.length ≤ (input.after schedule).completions entry ↔
        (input.after schedule).abandonedEntries.count entry ≤
          Rounds.lost requests.length (input.after schedule).drawnEntries.card
            (input.after schedule).abandonedEntries.card +
          ((input.after schedule).drawnEntries.count entry -
            (input.after schedule).drawnEntries.card / requests.length)) := by
    intro entry hentry
    have hbounds := (hdraws.count_bounds List.nodup_range (List.mem_range.mpr hentry)).1
    rw [List.length_range, ← Multiset.coe_card, ← Multiset.coe_count, hdrawn] at hbounds
    have hcount := Multiset.count_le_of_le entry hle
    rw [LoadRun.completions, LoadRun.abandonedEntries, Multiset.count_sub]
    rw [LoadRun.abandonedEntries] at hlost
    omega
  constructor
  · intro h entry hlt
    exact (hentry entry hlt).mp (h _ hreported entry hlt)
  · intro h r hr entry hlt
    rw [hreported] at hr
    cases hr
    exact (hentry entry hlt).mpr (h entry hlt)

/-- Two entries in two rounds on one connection, with a server that answers at once. -/
def roundsRun : RunInput :=
  plain (.requests 4) 1 (.inOrder [getRoot, getRoot]) (some 2) fun _ => promptReply

/-- The connection of the second entry never has an answer and gives up, after the other one has
done its two requests. -/
def abandonedRun : RunInput :=
  plain (.requests 4) 2 (.inOrder [getRoot, getRoot]) (some 2) fun call =>
    if call < 32 then promptReply
    else { promptReply with
      reads := [.ok []]
      events := [{ token := 1, isWritable := true, isReadable := true }] }

def forTenSeconds (config : RunConfig) : RunConfig :=
  { config with limit := .duration (10 * 10 ^ 9) }

theorem roundsRun_prepared :
    prepareReplay (forTenSeconds roundsRun.prepared.config) [getRoot, getRoot] {} (some 2) 0 0 0 =
      .ok (some roundsRun.prepared) := rfl

theorem abandonedRun_prepared :
    prepareReplay (forTenSeconds abandonedRun.prepared.config) [getRoot, getRoot] {} (some 2) 0 0
      0 = .ok (some abandonedRun.prepared) := rfl

theorem completions_eq_rounds_sample :
    ∃ summary, (roundsRun.after (List.replicate 24 0)).outcome roundsRun.prepared =
        some (.ok summary) ∧ summary.abandonedRequests = 0 ∧
      (roundsRun.after (List.replicate 24 0)).completions 1 = 2 := by
  have hreturns : (roundsRun.after (List.replicate 24 0)).returns roundsRun.prepared = true := by
    decide +kernel
  have hcompleted : (roundsRun.after (List.replicate 24 0)).completedEntries.card = 4 := by
    decide +kernel
  obtain ⟨summary, houtcome⟩ := LoadRun.exists_of_returns hreturns
  have hprepared := preparesRounds (by decide) roundsRun_prepared
  have hall := roundsRun.requests_accounted hprepared.valid hprepared.limit_eq _ houtcome
  have hcard := roundsRun.card_completedEntries hprepared.valid hprepared.limit_eq houtcome
  have habandoned : summary.abandonedRequests = 0 := by
    simp only [List.length_cons, List.length_nil] at hall
    omega
  exact ⟨summary, houtcome, habandoned, completions_eq_rounds roundsRun (by decide)
    roundsRun_prepared _ houtcome habandoned (by decide)⟩

theorem completed_rounds_iff_sample :
    ∃ summary, (roundsRun.after (List.replicate 24 0)).outcome roundsRun.prepared =
        some (.ok summary) ∧
      ((∀ r, summary.completedReplayRounds = some r → ∀ entry < 2,
          r ≤ (roundsRun.after (List.replicate 24 0)).completions entry) ↔
        (roundsRun.after (List.replicate 24 0)).SpreadsAbandoned 2) := by
  have hreturns : (roundsRun.after (List.replicate 24 0)).returns roundsRun.prepared = true := by
    decide +kernel
  obtain ⟨summary, houtcome⟩ := LoadRun.exists_of_returns hreturns
  exact ⟨summary, houtcome,
    completed_rounds_iff roundsRun (by decide) roundsRun_prepared _ houtcome⟩

/-- A round is reported, and one of the two entries has never been completed. -/
theorem round_without_entry :
    ∃ summary, (abandonedRun.after (List.replicate 35 0)).outcome abandonedRun.prepared =
        some (.ok summary) ∧ summary.completedReplayRounds = some 1 ∧
      (abandonedRun.after (List.replicate 35 0)).completions 1 = 0 := by
  have hreturns :
      (abandonedRun.after (List.replicate 35 0)).returns abandonedRun.prepared = true := by
    decide +kernel
  have hcompleted : (abandonedRun.after (List.replicate 35 0)).completedEntries.card = 2 := by
    decide +kernel
  obtain ⟨summary, houtcome⟩ := LoadRun.exists_of_returns hreturns
  have hprepared := preparesRounds (by decide) abandonedRun_prepared
  have hcard := abandonedRun.card_completedEntries hprepared.valid hprepared.limit_eq houtcome
  refine ⟨summary, houtcome, ?_, by decide +kernel⟩
  rw [completedReplayRounds_eq houtcome, ← hcard, hcompleted]
  rfl

end Rounds

end RunInput

end Rload
