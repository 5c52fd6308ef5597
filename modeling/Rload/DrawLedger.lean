import Rload.RunInvariants
import Mathlib.Algebra.BigOperators.Group.Multiset.Basic

/-!
# The ledger of draws

Every request of a connection was drawn from the shared sequence. A ledger holds the draws of
each connection, the newest first; together they are the draws of the sequence, but for those
that an error took from a worker.
-/

namespace Rload
open StatefulPrograms

/-- The sequence after some draws, the newest first, at any times. -/
inductive RequestSequence.Issues (s : RequestSequence) : List Drawn → RequestSequence → Prop
  | refl : Issues s [] s
  | draw {s' s'' : RequestSequence} {issued : List Drawn} {drawn : Drawn} {time : ℕ}
      (h : Issues s issued s') (hnext : s'.next time = .ok (drawn, s'')) :
      Issues s (drawn :: issued) s''

theorem RequestSequence.Issues.trans {s s' s'' : RequestSequence} {issued later : List Drawn}
    (h : s.Issues issued s') (h' : s'.Issues later s'') : s.Issues (later ++ issued) s'' := by
  induction h' with
  | refl => exact h
  | draw _ hnext ih => exact ih.draw hnext

theorem RequestSequence.Reaches.issues {s s' : RequestSequence} (h : s.Reaches s') :
    ∃ issued, s.Issues issued s' := by
  induction h with
  | refl => exact ⟨[], .refl⟩
  | tail _ hnext ih =>
    obtain ⟨issued, hissued⟩ := ih
    obtain ⟨time, drawn, hnext⟩ := hnext
    exact ⟨drawn :: issued, hissued.draw hnext⟩

theorem World.Draws.issues {drawn : Drawn} {w w' : World} (h : w.Draws drawn w') :
    w.sequence.Issues [drawn] w'.sequence := by
  obtain ⟨time, -, -, hnext⟩ := h.next_eq
  exact RequestSequence.Issues.refl.draw hnext

namespace Connection

/-- The draw that the connection works on. -/
def drawn (c : Connection) : Drawn := ⟨c.entry, c.method, c.request, c.uri, c.notBefore⟩

/-- How often the connection has drawn. -/
def draws (c : Connection) : ℕ := c.history.countP Happening.isDraw

variable {t t' : ℕ} {c c' : Connection}

theorem draws_hear (data : List UInt8) (eof : Bool) (c : Connection) :
    (c.hear data eof).draws = c.draws := by
  rw [Connection.hear]
  split <;> rfl

theorem draws_awaitPace (c : Connection) : c.awaitPace.draws = c.draws := by
  rw [Connection.awaitPace]
  split <;> rfl

theorem draws_begin (now : ℕ) (c : Connection) : (c.begin now).draws = c.draws := by
  rw [Connection.begin]
  split <;> rfl

theorem Reads.draws_eq (h : Reads c c') : c'.draws = c.draws := by
  induction h with
  | refl => rfl
  | hear _ hgoes ih => rw [draws_hear, ih]

theorem Exchange.draws_eq (h : Exchange t t' c c') : c'.draws = c.draws := by
  induction h with
  | refl => rfl
  | later _ hle ih => exact ih
  | awaitPace _ hpace hearly ih => rw [draws_awaitPace, ih]
  | begin _ hpace ih => rw [draws_begin, ih]
  | advance _ hstarted hpos hle ih => exact ih
  | watch _ interest ih => exact ih

theorem Answers.draws_eq {response : CompletedResponse} (h : Answers t c c' response) :
    c'.draws = c.draws := by
  cases h with
  | mk hreads hdata hdecoded => rw [draws_hear, hreads.draws_eq]

theorem Assigns.draws_eq {assign : Connection → Connection} (h : Assigns c assign) :
    (assign c).draws = c.draws := by
  cases h with
  | next => rfl
  | retry => rfl
  | recover => rfl
  | resume => rfl

theorem Reopens.draws_eq {assign : Connection → Connection} {w w' : World}
    (h : Reopens assign w c c' w') (hassign : Assigns c assign) : c'.draws = c.draws := by
  obtain ⟨addressIndex, now, -, -, rfl⟩ := h
  exact hassign.draws_eq

theorem draws_attempts (tried made limited : ℕ) (c : Connection) :
    (attempts tried made limited c).draws = c.draws := by
  have hnone : (List.replicate tried Happening.attempted).countP Happening.isDraw = 0 :=
    List.countP_eq_zero.mpr fun a ha => by rw [List.eq_of_mem_replicate ha]; decide
  rw [draws, attempts, List.countP_append, hnone, Nat.zero_add]
  rfl

theorem draws_next (drawn : Drawn) (c : Connection) :
    (unstart (install drawn (rewind c))).draws = c.draws + 1 := by
  have hrewind : (rewind c).draws = c.draws := rfl
  rw [← hrewind]
  exact List.countP_cons_of_pos rfl

theorem Move.draws_le (h : Move t c c') : c.draws ≤ c'.draws := by
  cases h with
  | hear data eof => exact (draws_hear data eof c).ge
  | awaitPace => exact (draws_awaitPace c).ge
  | begin => exact (draws_begin t c).ge
  | attempts => exact (draws_attempts _ _ _ c).ge
  | opened hassign => exact hassign.draws_eq.ge
  | @answer data eof => exact (draws_hear data eof c).ge
  | next drawn => exact (draws_next drawn c).ge.trans' (Nat.le_succ _)
  | _ => exact le_rfl

theorem drawn_hear (data : List UInt8) (eof : Bool) (c : Connection) :
    (c.hear data eof).drawn = c.drawn := by
  rw [Connection.hear]
  split <;> rfl

/-- Only a draw changes what the connection works on. -/
theorem Move.drawn_eq (h : Move t c c') (hquiet : c'.draws = c.draws) : c'.drawn = c.drawn := by
  cases h with
  | hear data eof => exact drawn_hear data eof c
  | awaitPace =>
    rw [Connection.awaitPace]
    split <;> rfl
  | begin =>
    rw [Connection.begin]
    split <;> rfl
  | opened hassign => cases hassign <;> rfl
  | @answer data eof => exact drawn_hear data eof c
  | next drawn =>
    rw [draws_next] at hquiet
    omega
  | _ => rfl

theorem Moves.draws_le (h : Moves t c t' c') : c.draws ≤ c'.draws := by
  induction h with
  | refl => exact le_rfl
  | later _ hle ih => exact ih
  | move _ hm ih => exact ih.trans hm.draws_le

/-- Moves, with the draws that are among them. -/
inductive Draws (t : ℕ) (c : Connection) : List Drawn → ℕ → Connection → Prop
  | refl : Draws t c [] t c
  | later {t' t'' : ℕ} {c' : Connection} {ds : List Drawn} (h : Draws t c ds t' c')
      (hle : t' ≤ t'') : Draws t c ds t'' c'
  | move {t' : ℕ} {c' c'' : Connection} {ds : List Drawn} (h : Draws t c ds t' c')
      (hm : Move t' c' c'') (hquiet : c''.draws = c'.draws) : Draws t c ds t' c''
  | next {t' : ℕ} {c' : Connection} {ds : List Drawn} (h : Draws t c ds t' c') (drawn : Drawn) :
      Draws t c (drawn :: ds) t' (unstart (install drawn (rewind c')))

theorem Draws.trans {t'' : ℕ} {c'' : Connection} {ds ds' : List Drawn} (h : Draws t c ds t' c')
    (h' : Draws t' c' ds' t'' c'') : Draws t c (ds' ++ ds) t'' c'' := by
  induction h' with
  | refl => exact h
  | later _ hle ih => exact ih.later hle
  | move _ hm hquiet ih => exact ih.move hm hquiet
  | next _ drawn ih => exact ih.next drawn

/-- Moves that leave the number of draws as it is are without draws. -/
theorem Moves.quiet (h : Moves t c t' c') (hquiet : c'.draws = c.draws) :
    Draws t c [] t' c' := by
  induction h with
  | refl => exact .refl
  | later _ hle ih => exact (ih hquiet).later hle
  | move hmoves hm ih =>
    have hbefore := hmoves.draws_le
    have hafter := hm.draws_le
    exact (ih (by omega)).move hm (by omega)

theorem GoesOn.draws {drawn : Drawn} {w w' : World} (h : GoesOn drawn w c c' w') :
    Draws w.clock (complete c) [drawn] w'.clock c' := by
  have hnext : Draws w.clock (complete c) [drawn] w.clock (turned drawn c) := Draws.refl.next drawn
  cases h with
  | reopened h =>
    exact (hnext.move (.watch none) rfl).trans ((h.moves .next).quiet (h.draws_eq .next))
  | reused h =>
    exact (hnext.move (.watch (some ⟨true⟩)) rfl).trans (h.moves.quiet h.draws_eq)

end Connection

namespace Desk
open Connection

variable {token timeout : ℕ} {n : FailureCounts} {allowed : Counter → Prop} {d d₁ d' : Desk}

theorem Touches.draws_eq (h : Touches d n d₁) : d₁.connection.draws = d.connection.draws := by
  induction h with
  | refl => rfl
  | exchange _ hx hw ih => exact hx.draws_eq.trans ih
  | read _ hr hw ih => exact hr.draws_eq.trans ih

theorem Settles.draws_eq (h : Settles token timeout allowed d d') :
    d'.connection.draws = d.connection.draws := by
  cases h with
  | cameBack h hallowed hf hassign hback hw =>
    obtain ⟨tried, made, limited, -, hopen⟩ := hback.reopens
    refine Eq.trans ?_ (Eq.trans (draws_attempts tried made limited _) h.draws_eq)
    cases hassign with
    | inl h =>
      subst h
      exact hopen.draws_eq .retry
    | inr h =>
      subst h
      exact hopen.draws_eq .recover
  | @gaveUp d₁ c w k counter f h hallowed hf hup hw =>
    obtain ⟨-, rfl, -⟩ := hup
    exact (draws_attempts k k k (d₁.connection.watch none)).trans h.draws_eq
  | ranOut h hallowed hf hlimit hw => exact h.draws_eq
  | stopped h hstop hw =>
    obtain ⟨interest, rfl⟩ := hstop.connection_eq
    exact h.draws_eq

theorem Touches.issues (h : Touches d n d₁) : d.world.sequence.Issues [] d₁.world.sequence :=
  h.later.sequence_eq ▸ .refl

theorem Settles.issues (h : Settles token timeout allowed d d') :
    d.world.sequence.Issues [] d'.world.sequence := by
  cases h with
  | cameBack h hallowed hf hassign hback hw =>
    exact (hw.sequence_eq.trans h.later.sequence_eq) ▸ .refl
  | gaveUp h hallowed hf hup hw => exact (hw.sequence_eq.trans h.later.sequence_eq) ▸ .refl
  | ranOut h hallowed hf hlimit hw => exact (hw.sequence_eq.trans h.later.sequence_eq) ▸ .refl
  | stopped h hstop hw => exact (hw.sequence_eq.trans h.later.sequence_eq) ▸ .refl

/-- The draws of a turn are those of its connection. -/
theorem Turn.draws (h : Turn token timeout d d') :
    ∃ ds, d.world.sequence.Issues ds d'.world.sequence ∧
      Connection.Draws d.world.clock d.connection ds d'.world.clock d'.connection := by
  have hmoves := h.moves
  cases h with
  | rested h => exact ⟨[], h.issues, hmoves.quiet h.draws_eq⟩
  | begun h => exact ⟨[], h.issues, hmoves.quiet h.draws_eq⟩
  | deferred h hf hstarted hpace hw =>
    exact ⟨[], (hw.sequence_eq.trans h.later.sequence_eq) ▸ .refl, hmoves.quiet h.draws_eq⟩
  | settled h => exact ⟨[], h.issues, hmoves.quiet h.draws_eq⟩
  | answeredLast hanswer hw₁ huri hw =>
    exact ⟨[], (hw.sequence_eq.trans hw₁.sequence_eq) ▸ .refl, hmoves.quiet hanswer.draws_eq⟩
  | answeredNext hanswer hw₁ huri hw hon =>
    have hanswered := (hanswer.moves d.world.clock).quiet hanswer.draws_eq
    exact ⟨_, hw₁.sequence_eq ▸ hw.issues, (hanswered.later hw₁.clock_le).trans hon.draws⟩
  | resumed hre hopen hw =>
    exact ⟨[], hw.sequence_eq ▸ .refl, hmoves.quiet (hopen.draws_eq (.resume hre))⟩

theorem Turns.draws (h : Turns token timeout d d') :
    ∃ ds, d.world.sequence.Issues ds d'.world.sequence ∧
      Connection.Draws d.world.clock d.connection ds d'.world.clock d'.connection := by
  induction h with
  | refl => exact ⟨[], .refl, .refl⟩
  | tail _ hturn ih =>
    obtain ⟨ds, hissues, hdraws⟩ := ih
    obtain ⟨ds', hissues', hdraws'⟩ := hturn.2.draws
    exact ⟨ds' ++ ds, hissues.trans hissues', hdraws.trans hdraws'⟩

end Desk

/-- The property of a connection and its draws survives time, the moves that are no draws, and
draws; new connections have it with their first draw. -/
structure Connection.LedgerInvariant (P : ℕ → List Drawn → Connection → Prop) : Prop where
  time : ∀ t t' book c, t ≤ t' → P t book c → P t' book c
  move : ∀ t book c c', P t book c → Connection.Move t c c' → c'.draws = c.draws → P t book c'
  next : ∀ t book c drawn, P t book c →
    P t (drawn :: book) (Connection.unstart (Connection.install drawn (Connection.rewind c)))
  connected : ∀ addresses limit tls drawn addressIndex t,
    P t [drawn] (Connection.connected addresses limit tls drawn addressIndex t)

/-- The connection works on its last draw. -/
theorem Connection.ledger_drawn :
    Connection.LedgerInvariant fun _ book c => book.head? = some c.drawn where
  time _ _ _ _ _ h := h
  move _ _ _ _ h hmove hquiet := by rwa [hmove.drawn_eq hquiet]
  next _ _ _ _ _ := rfl
  connected _ _ _ _ _ _ := rfl

namespace Connection

variable {P : ℕ → List Drawn → Connection → Prop}

theorem LedgerInvariant.draws (hP : LedgerInvariant P) {t t' : ℕ} {c c' : Connection}
    {ds book : List Drawn} (h : Draws t c ds t' c') (hc : P t book c) :
    P t' (ds ++ book) c' := by
  induction h with
  | refl => exact hc
  | later _ hle ih => exact hP.time _ _ _ _ hle ih
  | move _ hm hquiet ih => exact hP.move _ _ _ _ ih hm hquiet
  | next _ drawn ih => exact hP.next _ _ _ drawn ih

end Connection

/-- The draws of some connections. -/
abbrev Books := List (List Drawn)

def Books.all (books : Books) : Multiset Drawn :=
  (books.map Multiset.ofList).sum

theorem Books.all_set {books : Books} {i : ℕ} {book : List Drawn} (h : books[i]? = some book)
    (ds : List Drawn) :
    Books.all (books.set i (ds ++ book)) = ds + Books.all books := by
  have hsum := SharedResource.sum_set Multiset.ofList h (ds ++ book)
  rw [← Multiset.coe_add, add_comm (ds : Multiset Drawn), ← add_assoc,
    add_right_comm _ (book : Multiset Drawn)] at hsum
  exact (add_right_cancel hsum).trans (add_comm _ _)

theorem forall₂_getElem? {α β : Type} {R : α → β → Prop} {as : List α} {bs : List β}
    (h : List.Forall₂ R as bs) {i : ℕ} {b : β} (hb : bs[i]? = some b) :
    ∃ a, as[i]? = some a ∧ R a b := by
  induction h generalizing i with
  | nil => cases hb
  | @cons a b' as bs hab _ ih =>
    cases i with
    | zero =>
      cases hb
      exact ⟨a, rfl, hab⟩
    | succ i => exact ih hb

theorem forall₂_set {α β : Type} {R : α → β → Prop} {as : List α} {bs : List β}
    (h : List.Forall₂ R as bs) (i : ℕ) {a : α} {b : β} (hab : R a b) :
    List.Forall₂ R (as.set i a) (bs.set i b) := by
  induction h generalizing i with
  | nil => exact .nil
  | cons hhead htail ih =>
    cases i with
    | zero => exact .cons hab htail
    | succ i => exact .cons hhead (ih i)

namespace Worker

variable (P : ℕ → List Drawn → Connection → Prop)

/-- The books are those of the connections of the worker. -/
def Keeps (books : Books) (w : Worker) : Prop :=
  List.Forall₂ (P w.world.clock) books w.connections

/-- What a move does to the ledger: the new draws are entered, or all lost where it fails. -/
def Enters (books : Books) (w w' : Worker) : Prop :=
  ∃ (issued : List Drawn) (books' : Books) (lost : Multiset Drawn),
    w.world.sequence.Issues issued w'.world.sequence ∧ w'.Keeps P books' ∧
      books'.all + lost = issued + books.all ∧
        ((lost = 0 ∧ ¬ w'.failed) ∨ (lost = issued ∧ w'.failed))

variable {P} (hP : Connection.LedgerInvariant P) {books : Books} {w w' w₁ : Worker}

include hP

theorem Keeps.later (h : w.Keeps P books) (hconnections : w'.connections = w.connections)
    (hle : w.world.clock ≤ w'.world.clock) : w'.Keeps P books := by
  unfold Keeps
  rw [hconnections]
  exact h.imp fun book c => hP.time _ _ book c hle

/-- Nothing is drawn. -/
theorem Keeps.enters (h : w.Keeps P books) (hconnections : w'.connections = w.connections)
    {n : FailureCounts} (hw : w.world.Later n w'.world) : Enters P books w w' := by
  refine ⟨[], books, 0, hw.sequence_eq ▸ .refl, h.later hP hconnections hw.clock_le,
    (add_zero _).trans (zero_add _).symm, ?_⟩
  by_cases hfailed : w'.failed
  · exact Or.inr ⟨rfl, hfailed⟩
  · exact Or.inl ⟨rfl, hfailed⟩

/-- The connection at the desk draws. -/
theorem Keeps.entersDesk (h : w₁.Keeps P books) {token : ℕ} {c : Connection} {d : Desk}
    {ds : List Drawn} (hc : w₁.connections[token]? = some c)
    (hissues : w.world.sequence.Issues ds d.world.sequence)
    (hdraws : Connection.Draws w₁.world.clock c ds d.world.clock d.connection)
    (hle : w₁.world.clock ≤ d.world.clock) (hgoes : ¬ w₁.failed) :
    Enters P books w (w₁.withDesk token d) := by
  obtain ⟨book, hbook, hbookc⟩ := forall₂_getElem? h hc
  refine ⟨ds, books.set token (ds ++ book), 0, hissues, ?_, ?_, Or.inl ⟨rfl, hgoes⟩⟩
  · exact forall₂_set (h.imp fun book c => hP.time _ _ book c hle) token (hP.draws hdraws hbookc)
  · rw [add_zero, Books.all_set hbook]

theorem Move.enters (h : w.Keeps P books) (hmove : w.Move w') : Enters P books w w' := by
  have idle : ∀ {Q : Timer → Prop} {w₁ : Worker}, Idles Q w w₁ → w₁.Keeps P books :=
    fun hidles => h.later hP hidles.connections_eq hidles.later.clock_le
  cases hmove with
  | @halted _ e hhalts =>
    obtain ⟨issued, hissued⟩ := RequestSequence.Reaches.issues hhalts.ends.reach
    exact ⟨issued, books, issued, hissued, h.later hP hhalts.connections_eq hhalts.ends.clock_le,
      add_comm _ _, Or.inr ⟨rfl, e, hhalts.phase_eq⟩⟩
  | opened hphase hw => exact h.enters hP rfl hw
  | @connected limit limits attempts drawn addressIndex now world hphase hw hfrom hto =>
    refine ⟨[drawn], books ++ [[drawn]], 0, hw.issues, ?_, ?_,
      Or.inl ⟨rfl, not_failed_of_running rfl⟩⟩
    · apply List.rel_append (h.imp fun book c => hP.time _ _ book c hw.clock_le)
      refine .cons ?_ .nil
      apply hP.time _ _ _ _ hto
      exact hP.move _ _ _ _ (hP.connected _ _ _ _ _ _) (.watch _) rfl
    · rw [add_zero, Books.all, List.map_append, List.sum_append, add_comm]
      rfl
  | refused hphase hw => exact h.enters hP rfl hw
  | gaveUp hphase hw => exact h.enters hP rfl hw
  | ranOut hphase hw => exact h.enters hP rfl hw
  | entered hphase => exact h.enters hP rfl (.refl _)
  | ended hphase hactive => exact h.enters hP rfl (.refl _)
  | idled hidles => exact h.enters hP hidles.connections_eq hidles.later
  | handled hidles hc hturns =>
    obtain ⟨ds, hissues, hdraws⟩ := hturns.draws
    exact (idle hidles).entersDesk hP hc (hidles.later.sequence_eq ▸ hissues) hdraws
      hturns.steady.clock_le (not_failed_of_loops hidles.loops_after)
  | expired hidles hphase ht hdue htoken hgeneration hc hdone hsettles =>
    exact (idle hidles).entersDesk hP hc (hidles.later.sequence_eq ▸ hsettles.issues)
      (hsettles.moves.quiet hsettles.draws_eq) hsettles.steady.clock_le
      (not_failed_of_loops hidles.loops_after)

theorem Keeps.step_enters (h : w.Keeps P books) : Enters P books w w.step := by
  cases hphase : w.phase.isFinished with
  | true =>
    rw [step_of_finished hphase]
    exact h.enters hP rfl (.refl _)
  | false => exact (step_moves hphase).enters hP h

end Worker

namespace RunInput
open Worker (failed_step)

variable (input : RunInput) {P : ℕ → List Drawn → Connection → Prop}

/-- The ledger of a run. -/
structure Ledger (P : ℕ → List Drawn → Connection → Prop) (r : LoadRun) (issued : List Drawn)
    (books : List Books) (lost : Multiset Drawn) : Prop where
  issues : input.prepared.sequence.Issues issued r.shared
  keeps : List.Forall₂ (fun books w => w.Keeps P books) books r.components
  balance : (books.map Books.all).sum + lost = issued
  complete : lost = 0 ∨ ∃ w ∈ r.components, w.failed

variable {r : LoadRun} {issued : List Drawn} {books : List Books} {lost : Multiset Drawn}

theorem ledger_step (hP : Connection.LedgerInvariant P) (h : input.Ledger P r issued books lost)
    {i : ℕ} {w : Worker} (hw : r.components[i]? = some w) :
    ∃ issued' books' lost', input.Ledger P
      ⟨r.components.set i (w.shareStep r.shared).1, (w.shareStep r.shared).2⟩
      issued' books' lost' := by
  obtain ⟨book, hbook, hkeeps⟩ := forall₂_getElem? h.keeps hw
  have hkeeps : (w.sharing r.shared).Keeps P book := hkeeps
  obtain ⟨new, book', gone, hissues, hkeeps', hbalance, hgone⟩ := hkeeps.step_enters hP
  refine ⟨new ++ issued, books.set i book', lost + gone, h.issues.trans hissues,
    forall₂_set h.keeps i hkeeps', ?_, ?_⟩
  · have hsum := SharedResource.sum_set Books.all hbook book'
    have htotal : ((books.set i book').map Books.all).sum + (lost + gone) + book.all =
        new + ((books.map Books.all).sum + lost) + book.all := by
      calc ((books.set i book').map Books.all).sum + (lost + gone) + book.all
          = ((books.set i book').map Books.all).sum + book.all + (lost + gone) :=
            add_right_comm _ _ _
        _ = (books.map Books.all).sum + lost + (book'.all + gone) := by
            rw [hsum]
            exact add_add_add_comm _ _ _ _
        _ = new + ((books.map Books.all).sum + lost) + book.all := by
            rw [hbalance, ← add_assoc, add_comm _ (new : Multiset Drawn)]
    rw [h.balance] at htotal
    exact add_right_cancel htotal
  · have hfailed : ∀ v ∈ r.components, v.failed →
        ∃ v ∈ r.components.set i (w.shareStep r.shared).1, v.failed := by
      intro v hv hfailed
      obtain ⟨j, hj, rfl⟩ := List.mem_iff_getElem.mp hv
      obtain ⟨hi, rfl⟩ := List.getElem?_eq_some_iff.mp hw
      by_cases hij : i = j
      · subst hij
        refine ⟨_, List.mem_set hi _, ?_⟩
        exact failed_step (w := (r.components[i]).sharing r.shared) hfailed
      · refine ⟨r.components[j], ?_, hfailed⟩
        rw [List.mem_iff_getElem]
        exact ⟨j, by rwa [List.length_set], List.getElem_set_ne hij _⟩
    cases hgone with
    | inr hnew =>
      obtain ⟨hi, -⟩ := List.getElem?_eq_some_iff.mp hw
      exact Or.inr ⟨_, List.mem_set hi _, hnew.2⟩
    | inl hgone =>
      cases h.complete with
      | inl hlost => exact Or.inl (by rw [hlost, hgone.1, add_zero])
      | inr hsome =>
        obtain ⟨v, hv, hsome⟩ := hsome
        exact Or.inr (hfailed v hv hsome)

/-- Every run has a ledger. -/
theorem exists_ledger (hP : Connection.LedgerInvariant P) (schedule : List ℕ) :
    ∃ issued books lost, input.Ledger P (input.after schedule) issued books lost := by
  apply SharedResource.run_invariant Worker.shareStep
    (I := fun r => ∃ issued books lost, input.Ledger P r issued books lost)
  · rintro r i w ⟨issued, books, lost, h⟩ hw
    exact input.ledger_step hP h hw
  · refine ⟨[], input.start.components.map fun _ => [], 0, .refl, ?_, ?_, Or.inl rfl⟩
    · rw [List.forall₂_map_left_iff, List.forall₂_same]
      intro w hw
      rw [start_components, List.mem_map] at hw
      obtain ⟨⟨limits, worker⟩, -, rfl⟩ := hw
      exact .nil
    · rw [List.map_map, add_zero]
      exact List.sum_eq_zero fun x hx => by
        obtain ⟨w, -, rfl⟩ := List.mem_map.mp hx
        rfl

/-- The draws of a connection are among those that were issued. -/
theorem Ledger.mem_issued {input : RunInput} (h : input.Ledger P r issued books lost) {w : Worker}
    (hw : w ∈ r.components)
    {c : Connection} (hc : c ∈ w.connections) :
    ∃ book, P w.world.clock book c ∧ ∀ drawn ∈ book, drawn ∈ issued := by
  obtain ⟨i, hi⟩ := List.mem_iff_getElem?.mp hw
  obtain ⟨workerBooks, hbooks, hkeeps⟩ := forall₂_getElem? h.keeps hi
  obtain ⟨j, hj⟩ := List.mem_iff_getElem?.mp hc
  obtain ⟨book, hbook, hP⟩ := forall₂_getElem? hkeeps hj
  refine ⟨book, hP, fun drawn hdrawn => ?_⟩
  have hworker : (book : Multiset Drawn) ≤ workerBooks.all :=
    List.single_le_sum (fun _ _ => Multiset.zero_le _) _
      (List.mem_map_of_mem (List.mem_of_getElem? hbook))
  have hall : workerBooks.all ≤ (books.map Books.all).sum :=
    List.single_le_sum (fun _ _ => Multiset.zero_le _) _
      (List.mem_map_of_mem (List.mem_of_getElem? hbooks))
  have hle : (books.map Books.all).sum ≤ (issued : Multiset Drawn) :=
    h.balance ▸ Multiset.le_add_right _ _
  exact Multiset.mem_coe.mp (Multiset.mem_of_le (hworker.trans (hall.trans hle)) hdrawn)

end RunInput

end Rload
