import Rload.CompletedRounds

/-!
# Reproducible draws

The order of the entries is settled before the run. Whoever draws, and whenever, the draws of a
run are the first choices of its order, so that runs that differ in their server, their
connections, their workers and their pace draw the same.
-/

namespace Rload
namespace RequestSequence

/-- The choices of `select`, up to the first one that halts. -/
def choices : ℕ → RequestSequence → List ℕ
  | 0, _ => []
  | n + 1, s =>
    match s.select with
    | .error _ => []
    | .ok (index, s') => index :: choices n s'

/-- The entries and their order are the same; the pacers may be others. -/
structure SameOrder (s s' : RequestSequence) : Prop where
  requests_eq : s'.requests = s.requests
  selection_eq : s'.selection = s.selection
  cursor_eq : s'.timestampCursor = s.timestampCursor

variable {s s₁ s' s₁' : RequestSequence} {index : ℕ} {issued : List Drawn}

theorem SameOrder.refl (s : RequestSequence) : s.SameOrder s := ⟨rfl, rfl, rfl⟩

theorem SameOrder.trans (h : s.SameOrder s₁) (h' : s₁.SameOrder s') : s.SameOrder s' where
  requests_eq := h'.requests_eq.trans h.requests_eq
  selection_eq := h'.selection_eq.trans h.selection_eq
  cursor_eq := h'.cursor_eq.trans h.cursor_eq

/-- A choice does not depend on the pacers. -/
theorem SameOrder.select (h : s.SameOrder s₁) (hselect : s₁.select = .ok (index, s₁')) :
    ∃ s', s.select = .ok (index, s') ∧ s'.SameOrder s₁' := by
  unfold RequestSequence.select at hselect ⊢
  rw [h.requests_eq, h.cursor_eq, h.selection_eq] at hselect
  split at hselect
  · cases hselect
  · rename_i hnonempty
    rw [if_neg hnonempty]
    split at hselect
    · cases hselect
      exact ⟨_, rfl, rfl, rfl, rfl⟩
    · split at hselect
      · cases hselect
        exact ⟨_, rfl, rfl, rfl, rfl⟩
      · rename_i next seed _
        obtain ⟨position, hposition, hselect⟩ := ok_of_bind hselect
        cases hselect
        refine ⟨{ s with selection := .random ((next + 1) % 2 ^ 64) seed }, ?_, rfl, rfl, rfl⟩
        rw [hposition]
        rfl
      · obtain ⟨⟨position, state⟩, hposition, hselect⟩ := ok_of_bind hselect
        cases hselect
        refine ⟨{ s with selection := .shuffle state }, ?_, rfl, rfl, rfl⟩
        rw [hposition]
        rfl

theorem sameOrder_of_reserve {request : EncodedRequest} {now : ℕ} {scheduled : Option ℕ}
    (h : s.reserve request now = .ok (scheduled, s')) : s.SameOrder s' := by
  obtain ⟨hrequests, hcursor, hselection⟩ := reserve_selection h
  exact ⟨hrequests, hselection, hcursor⟩

theorem SameOrder.next (h : s.SameOrder s₁) {now : ℕ} {drawn : Drawn}
    (hnext : s₁.next now = .ok (drawn, s₁')) :
    ∃ s', s.select = .ok (drawn.entry, s') ∧ s'.SameOrder s₁' := by
  obtain ⟨⟨index, s₂⟩, hselect, hnext⟩ := ok_of_bind hnext
  obtain ⟨request, -, hnext⟩ := ok_of_bind hnext
  obtain ⟨⟨scheduled, s₃⟩, hreserve, hnext⟩ := ok_of_bind hnext
  obtain ⟨method, -, hnext⟩ := ok_of_bind hnext
  cases hnext
  obtain ⟨s', hselect', hsame⟩ := h.select hselect
  exact ⟨s', hselect', hsame.trans (sameOrder_of_reserve hreserve)⟩

/-- The sequence after some choices. -/
def afterChoices : ℕ → RequestSequence → RequestSequence
  | 0, s => s
  | n + 1, s =>
    match s.select with
    | .error _ => s
    | .ok (_, s') => afterChoices n s'

theorem choices_succ {n : ℕ} (hlength : (s.choices n).length = n)
    (hselect : (s.afterChoices n).select = .ok (index, s')) :
    s.choices (n + 1) = s.choices n ++ [index] ∧ s.afterChoices (n + 1) = s' := by
  induction n generalizing s with
  | zero =>
    rw [afterChoices] at hselect
    simp [choices, afterChoices, hselect]
  | succ n ih =>
    cases hfirst : s.select with
    | error halt =>
      simp only [choices, hfirst] at hlength
      cases hlength
    | ok first =>
      obtain ⟨position, rest⟩ := first
      rw [afterChoices, hfirst] at hselect
      rw [choices, hfirst, List.length_cons, Nat.add_right_cancel_iff] at hlength
      obtain ⟨hchoices, hafter⟩ := ih hlength hselect
      rw [choices, hfirst, afterChoices, hfirst, choices, hfirst]
      exact ⟨congrArg (position :: ·) hchoices, hafter⟩

/-- What is drawn are the first choices. -/
theorem Issues.choices_eq (h : s₁.Issues issued s₁') (hsame : s.SameOrder s₁) :
    s.choices issued.length = (issued.map (·.entry)).reverse ∧
      (s.afterChoices issued.length).SameOrder s₁' := by
  induction h with
  | refl => exact ⟨rfl, hsame⟩
  | @draw s₁' s₁'' issued drawn time hissues hnext ih =>
    obtain ⟨hchoices, hafter⟩ := ih
    obtain ⟨s', hselect, hsame'⟩ := hafter.next hnext
    have hlength : (s.choices issued.length).length = issued.length := by
      rw [hchoices, List.length_reverse, List.length_map]
    obtain ⟨hmore, hlast⟩ := choices_succ hlength hselect
    rw [List.length_cons, hmore, hchoices, hlast, List.map_cons, List.reverse_cons]
    exact ⟨rfl, hsame'⟩

end RequestSequence

/-- The entries that the connections of a worker have drawn. -/
def Worker.entries (w : Worker) : Multiset ℕ :=
  (w.connections.map fun c => (c.drawnEntries : Multiset ℕ)).sum

namespace RunInput
open Connection

variable (input : RunInput)

/-- The worker whose turn is next ends by an error in it. -/
def FailsIn (schedule : List ℕ) (i : ℕ) : Prop :=
  ∃ w ∈ (input.after schedule).components[i]?,
    ¬ w.failed ∧ (w.shareStep (input.after schedule).shared).1.failed

/-- What is drawn in the turns of a schedule, the oldest draw first, and the entries among it that
are lost: all those of a turn in which a worker fails, and no others. -/
inductive Drawing : List ℕ → List Drawn → Multiset ℕ → Prop
  | start : Drawing [] [] 0
  | turn {schedule : List ℕ} {draws ds : List Drawn} {lost : Multiset ℕ} {i : ℕ}
      (h : Drawing schedule draws lost)
      (hissues : (input.after schedule).shared.Issues ds.reverse
        (input.after (schedule ++ [i])).shared)
      (hgoes : ¬ input.FailsIn schedule i) : Drawing (schedule ++ [i]) (draws ++ ds) lost
  | failure {schedule : List ℕ} {draws ds : List Drawn} {lost : Multiset ℕ} {i : ℕ}
      (h : Drawing schedule draws lost)
      (hissues : (input.after schedule).shared.Issues ds.reverse
        (input.after (schedule ++ [i])).shared)
      (hfails : input.FailsIn schedule i) :
      Drawing (schedule ++ [i]) (draws ++ ds) (lost + (ds.map (·.entry) : List ℕ))

theorem after_append (schedule : List ℕ) (i : ℕ) : input.after (schedule ++ [i]) =
    (input.after schedule).turn Worker.shareStep i := List.foldl_concat ..

variable {input} {schedule : List ℕ} {draws : List Drawn} {lost : Multiset ℕ}

theorem Drawing.issues (h : input.Drawing schedule draws lost) :
    input.prepared.sequence.Issues draws.reverse (input.after schedule).shared := by
  induction h with
  | start => exact .refl
  | turn _ hissues _ ih =>
    rw [List.reverse_append]
    exact ih.trans hissues
  | failure _ hissues _ ih =>
    rw [List.reverse_append]
    exact ih.trans hissues

theorem entries_of_keeps {books : Books} {w : Worker}
    (h : w.Keeps (fun _ book c => book.map (·.entry) = c.drawnEntries) books) :
    books.all.map (·.entry) = w.entries := by
  refine map_sum_eq h fun ds c hentries => ?_
  rw [Multiset.map_coe, hentries]

/-- What a step adds to the entries of the connections. -/
theorem entries_of_enters {books : Books} {w w' : Worker}
    (h : w.Keeps (fun _ book c => book.map (·.entry) = c.drawnEntries) books)
    (henters : Worker.Enters (fun _ book c => book.map (·.entry) = c.drawnEntries) books w w') :
    ∃ ds : List Drawn, w.world.sequence.Issues ds.reverse w'.world.sequence ∧
      (¬ w'.failed → w'.entries = w.entries + (ds.map (·.entry) : List ℕ)) ∧
      (w'.failed → w'.entries = w.entries) := by
  obtain ⟨issued, books', lost, hissues, h', hbalance, hlost⟩ := henters
  have hentries := congrArg (Multiset.map (·.entry)) hbalance
  rw [Multiset.map_add, Multiset.map_add, entries_of_keeps h', entries_of_keeps h] at hentries
  refine ⟨issued.reverse, by rwa [List.reverse_reverse], fun hgoes => ?_, fun hfailed => ?_⟩
  · obtain ⟨rfl, -⟩ := hlost.resolve_right fun hlost => hgoes hlost.2
    rw [Multiset.map_zero, add_zero, Multiset.map_coe] at hentries
    rw [hentries, add_comm, List.map_reverse]
    exact congrArg _ (Multiset.coe_eq_coe.mpr (List.reverse_perm _).symm)
  · obtain ⟨rfl, -⟩ := hlost.resolve_left fun hlost => hlost.2 hfailed
    rw [add_comm] at hentries
    exact add_left_cancel hentries

/-- The connections have the draws of a turn, unless it fails. -/
theorem exists_turn_draws (input : RunInput) (schedule : List ℕ) (i : ℕ) :
    ∃ ds : List Drawn, (input.after schedule).shared.Issues ds.reverse
        (input.after (schedule ++ [i])).shared ∧
      (¬ input.FailsIn schedule i → (input.after (schedule ++ [i])).drawnEntries =
        (input.after schedule).drawnEntries + (ds.map (·.entry) : List ℕ)) ∧
      (input.FailsIn schedule i → (input.after (schedule ++ [i])).drawnEntries =
        (input.after schedule).drawnEntries) := by
  rw [after_append, SharedResource.turn]
  unfold FailsIn
  obtain ⟨issued, books, gone, hledger⟩ := input.exists_ledger ledger_entries schedule
  generalize input.after schedule = r at hledger ⊢
  cases hw : r.components[i]? with
  | none => exact ⟨[], .refl, fun _ => (add_zero _).symm, fun _ => rfl⟩
  | some w =>
    have hset : ∀ w' : Worker, LoadRun.drawnEntries ⟨r.components.set i w', r.shared⟩ + w.entries =
        r.drawnEntries + w'.entries := SharedResource.sum_set Worker.entries hw
    by_cases hwas : w.failed
    · -- a worker that has failed before makes no step
      obtain ⟨e, hphase⟩ := hwas
      have hstep : (w.sharing r.shared).step = w.sharing r.shared :=
        Worker.step_of_finished (by rw [show (w.sharing r.shared).phase = _ from hphase]; rfl)
      have hsame : LoadRun.drawnEntries ⟨r.components.set i (w.sharing r.shared).step, r.shared⟩ =
          r.drawnEntries := by
        rw [hstep]
        exact add_right_cancel (hset (w.sharing r.shared))
      have hshared : r.shared.Issues [] (w.sharing r.shared).step.world.sequence := by
        rw [hstep]
        exact .refl
      exact ⟨[], hshared, fun _ => hsame.trans (add_zero _).symm, fun _ => hsame⟩
    · obtain ⟨book, -, hkeeps⟩ := forall₂_getElem? hledger.keeps hw
      have hkeeps : (w.sharing r.shared).Keeps
          (fun _ book c => book.map (·.entry) = c.drawnEntries) book := hkeeps
      obtain ⟨ds, hissues, hgoes, hfails⟩ :=
        entries_of_enters hkeeps (hkeeps.step_enters ledger_entries)
      have hnew := hset (w.sharing r.shared).step
      refine ⟨ds, hissues, fun hnone => ?_, ?_⟩
      · have hentries := hgoes fun hfailed => hnone ⟨w, rfl, hwas, hfailed⟩
        rw [hentries, ← add_assoc, add_right_comm] at hnew
        exact add_right_cancel hnew
      · rintro ⟨_, ⟨⟩, -, hfailed⟩
        rw [hfails hfailed] at hnew
        exact add_right_cancel hnew

/-- The entries that the connections of a run have drawn, with those of the steps in which a worker
failed, are the first choices of the order. -/
theorem draws_are_choices (input : RunInput) {s : RequestSequence}
    (hsame : s.SameOrder input.prepared.sequence) (schedule : List ℕ) :
    ∃ (draws : List Drawn) (lost : Multiset ℕ), input.Drawing schedule draws lost ∧
      draws.map (·.entry) = s.choices draws.length ∧
      (input.after schedule).drawnEntries + lost = (draws.map (·.entry) : List ℕ) := by
  have hdrawing : ∃ (draws : List Drawn) (lost : Multiset ℕ), input.Drawing schedule draws lost ∧
      (input.after schedule).drawnEntries + lost = (draws.map (·.entry) : List ℕ) := by
    induction schedule using List.reverseRecOn with
    | nil =>
      refine ⟨[], 0, .start, (add_zero _).trans (List.sum_eq_zero fun entries hentries => ?_)⟩
      obtain ⟨w, hw, rfl⟩ := List.mem_map.mp hentries
      have hw : w ∈ input.start.components := hw
      rw [start_components, List.mem_map] at hw
      obtain ⟨⟨limits, worker⟩, -, rfl⟩ := hw
      rfl
    | append_singleton schedule i ih =>
      obtain ⟨draws, lost, hdrawing, hentries⟩ := ih
      obtain ⟨ds, hissues, hgoes, hfails⟩ := input.exists_turn_draws schedule i
      by_cases hfailed : input.FailsIn schedule i
      · refine ⟨_, _, hdrawing.failure hissues hfailed, ?_⟩
        rw [hfails hfailed, ← add_assoc, hentries, List.map_append, ← Multiset.coe_add]
      · refine ⟨_, _, hdrawing.turn hissues hfailed, ?_⟩
        rw [hgoes hfailed, add_right_comm, hentries, List.map_append, ← Multiset.coe_add]
  obtain ⟨draws, lost, hdrawing, hentries⟩ := hdrawing
  refine ⟨draws, lost, hdrawing, ?_, hentries⟩
  have hchoices := (hdrawing.issues.choices_eq hsame).1
  rw [List.length_reverse, List.map_reverse, List.reverse_reverse] at hchoices
  exact hchoices.symm

/-- Three requests of two entries, one of them a second. -/
def idleRun : RunInput :=
  plain (.requests 3) 1 ((RequestSequence.inOrder [getRoot, getRoot]).withRate (some 1) 0) none
    fun _ => promptReply

theorem draws_are_choices_sample :
    (idleRun.after (List.replicate 12 0)).drawnEntries = {0, 1, 0} ∧
      ∃ (draws : List Drawn) (lost : Multiset ℕ),
        idleRun.Drawing (List.replicate 12 0) draws lost ∧
        draws.map (·.entry) = (RequestSequence.inOrder [getRoot, getRoot]).choices draws.length ∧
        3 ≤ draws.length := by
  have hentries : (idleRun.after (List.replicate 12 0)).drawnEntries = {0, 1, 0} := by
    decide +kernel
  obtain ⟨draws, lost, hdrawing, hchoices, hall⟩ := idleRun.draws_are_choices
    (s := .inOrder [getRoot, getRoot]) ⟨rfl, rfl, rfl⟩ (List.replicate 12 0)
  refine ⟨hentries, draws, lost, hdrawing, hchoices, ?_⟩
  have hcard := congrArg Multiset.card hall
  rw [Multiset.card_add, hentries, Multiset.coe_card, List.length_map] at hcard
  have hthree : ({0, 1, 0} : Multiset ℕ).card = 3 := rfl
  omega

end RunInput

end Rload
