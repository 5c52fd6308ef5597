import Rload.DrawLedger
import Rload.RecoveryBudget

/-!
# Drawn and completed entries

A connection draws an entry, completes it and draws the next one. Where it leaves before the
response, the last entry is drawn and not completed.
-/

namespace Rload
open Connection

namespace Happening

/-- The happening is a draw or the end of a request. -/
def isDeal : Happening → Bool
  | .drew _ | .answered _ _ => true
  | _ => false

def drawnEntry? : Happening → Option ℕ
  | .drew entry => some entry
  | _ => none

def completedEntry? : Happening → Option ℕ
  | .answered entry _ => some entry
  | _ => none

end Happening

namespace Connection

def deals (c : Connection) : List Happening := c.history.filter Happening.isDeal

/-- The entries that the connection has drawn, the newest first. -/
def drawnEntries (c : Connection) : List ℕ := c.deals.filterMap Happening.drawnEntry?

/-- The entries that the connection has completed, the newest first. -/
def completedEntries (c : Connection) : List ℕ := c.deals.filterMap Happening.completedEntry?

variable {t t' : ℕ} {c c' : Connection}

theorem deals_hear (data : List UInt8) (eof : Bool) (c : Connection) :
    (c.hear data eof).deals = c.deals := by
  rw [hear]
  split <;> rfl

theorem Reads.deals_eq (h : Reads c c') : c'.deals = c.deals := by
  induction h with
  | refl => rfl
  | hear _ hgoes ih => exact (deals_hear _ _ _).trans ih

theorem Exchange.deals_eq (h : Exchange t t' c c') : c'.deals = c.deals := by
  induction h with
  | refl => rfl
  | later _ hle ih => exact ih
  | awaitPace _ hpace hearly ih =>
    rw [← ih, Connection.awaitPace]
    split <;> rfl
  | begin _ hpace ih =>
    rw [← ih, Connection.begin]
    split <;> rfl
  | advance _ hstarted hpos hle ih => exact ih
  | watch _ interest ih => exact ih

theorem Answers.deals_eq {response : CompletedResponse} (h : Answers t c c' response) :
    c'.deals = c.deals := by
  cases h with
  | mk hreads hdata hdecoded => exact (deals_hear _ _ _).trans hreads.deals_eq

theorem Answers.drawnEntries_eq {response : CompletedResponse} (h : Answers t c c' response) :
    c'.drawnEntries = c.drawnEntries :=
  congrArg (List.filterMap Happening.drawnEntry?) h.deals_eq

theorem Answers.completedEntries_eq {response : CompletedResponse} (h : Answers t c c' response) :
    c'.completedEntries = c.completedEntries :=
  congrArg (List.filterMap Happening.completedEntry?) h.deals_eq

theorem Assigns.deals_eq {assign : Connection → Connection} (h : Assigns c assign) :
    (assign c).deals = c.deals := by
  cases h with
  | next => rfl
  | retry => rfl
  | recover => rfl
  | resume => rfl

theorem Reopens.deals_eq {assign : Connection → Connection} {w w' : World}
    (h : Reopens assign w c c' w') (hassign : Assigns c assign) : c'.deals = c.deals := by
  obtain ⟨addressIndex, now, -, -, rfl⟩ := h
  exact hassign.deals_eq

theorem deals_attempts (tried made limited : ℕ) (c : Connection) :
    (attempts tried made limited c).deals = c.deals := by
  have hnone : (List.replicate tried Happening.attempted).filter Happening.isDeal = [] :=
    List.filter_replicate_of_neg (by simp [Happening.isDeal])
  rw [deals, attempts, List.filter_append, hnone, List.nil_append]
  rfl

theorem ComesBack.deals_eq {assign : Connection → Connection} {k : ℕ} {w w' : World}
    (h : ComesBack assign k w c c' w') (hassign : assign = toRetry ∨ assign = toRecover) :
    c'.deals = c.deals := by
  obtain ⟨tried, made, limited, -, hopen⟩ := h.reopens
  refine Eq.trans ?_ (deals_attempts tried made limited (c.watch none))
  cases hassign with
  | inl h =>
    subst h
    exact hopen.deals_eq .retry
  | inr h =>
    subst h
    exact hopen.deals_eq .recover

theorem ComesBack.entry_eq {assign : Connection → Connection} {k : ℕ} {w w' : World}
    (h : ComesBack assign k w c c' w') (hassign : assign = toRetry ∨ assign = toRecover) :
    c'.entry = c.entry := by
  obtain ⟨tried, made, limited, -, addressIndex, now, -, -, rfl⟩ := h.reopens
  cases hassign with
  | inl h =>
    subst h
    rfl
  | inr h =>
    subst h
    rfl

theorem GoesOn.deals_eq {drawn : Drawn} {w w' : World} (h : GoesOn drawn w c c' w') :
    c'.deals = (turned drawn c).deals := by
  cases h with
  | reopened h => exact h.deals_eq .next
  | reused h => exact h.deals_eq

theorem GoesOn.entry_eq {drawn : Drawn} {w w' : World} (h : GoesOn drawn w c c' w') :
    c'.entry = drawn.entry := by
  cases h with
  | reopened h =>
    obtain ⟨addressIndex, now, -, -, rfl⟩ := h
    rfl
  | reused h => exact congrArg (·.entry) h.kept

/-- What is drawn is completed, but for the entry that the connection works on. With a fixed
number of requests no more of them are drawn. -/
structure Attends (c : Connection) : Prop where
  dealt : c.drawnEntries = c.entry :: c.completedEntries ∨
    (c.done = true ∧ c.drawnEntries = c.completedEntries)
  length_eq : c.completedEntries.length = c.completed
  length_le : ∀ count, c.limit = .requests count → 0 < count → c.drawnEntries.length ≤ count

/-- Nothing is drawn or completed. -/
theorem Attends.of_same (h : c.Attends) (hdeals : c'.deals = c.deals) (hentry : c'.entry = c.entry)
    (hcompleted : c'.completed = c.completed) (hlimit : c'.limit = c.limit)
    (hdone : c.done = true → c'.done = true) : c'.Attends where
  dealt := by
    rw [drawnEntries, completedEntries, hdeals, hentry]
    exact h.dealt.imp id fun hleft => ⟨hdone hleft.1, hleft.2⟩
  length_eq := by
    rw [completedEntries, hdeals, hcompleted]
    exact h.length_eq
  length_le := by
    rw [drawnEntries, hdeals, hlimit]
    exact h.length_le

/-- The response to the last request. -/
theorem Attends.last (h : c.Attends) (hopen : c.done = false)
    (hdrawn : c'.drawnEntries = c.drawnEntries)
    (hentries : c'.completedEntries = c.entry :: c.completedEntries)
    (hcompleted : c'.completed = c.completed + 1) (hlimit : c'.limit = c.limit)
    (hdone : c'.done = true) : c'.Attends where
  dealt := by
    have hdealt := h.dealt
    rw [hopen] at hdealt
    rw [hdrawn, hentries]
    exact Or.inr ⟨hdone, by simpa using hdealt⟩
  length_eq := by
    rw [hentries, hcompleted, List.length_cons, h.length_eq]
  length_le := by
    rw [hdrawn, hlimit]
    exact h.length_le

/-- The response to a request that is not the last one, and the next draw. -/
theorem Attends.next (h : c.Attends) (hopen : c.done = false)
    (hdrawn : c'.drawnEntries = c'.entry :: c.drawnEntries)
    (hentries : c'.completedEntries = c.entry :: c.completedEntries)
    (hcompleted : c'.completed = c.completed + 1) (hlimit : c'.limit = c.limit)
    (hmore : ∀ count, c.limit = .requests count → c.completed + 1 < count) : c'.Attends := by
  have hdealt : c.drawnEntries = c.entry :: c.completedEntries := by
    simpa [hopen] using h.dealt
  refine ⟨Or.inl ?_, ?_, ?_⟩
  · rw [hdrawn, hentries, hdealt]
  · rw [hentries, hcompleted, List.length_cons, h.length_eq]
  · intro count hcount hpos
    have hless := hmore count (hlimit ▸ hcount)
    have hlength := h.length_eq
    rw [hdrawn, hdealt, List.length_cons, List.length_cons]
    omega

end Connection

namespace Desk

variable {token timeout : ℕ} {n : FailureCounts} {allowed : Counter → Prop} {d d₁ d' : Desk}

theorem Touches.deals_eq (h : Touches d n d₁) : d₁.connection.deals = d.connection.deals := by
  induction h with
  | refl => rfl
  | exchange _ hx hw ih => exact hx.deals_eq.trans ih
  | read _ hr hw ih => exact hr.deals_eq.trans ih

/-- The desk after a turn that draws and completes nothing. -/
theorem Touches.attends (h : Touches d n d₁) (hc : d.connection.Attends) :
    d₁.connection.Attends := by
  have hkept := h.kept
  exact hc.of_same h.deals_eq (congrArg (·.entry) hkept) (congrArg (·.completed) hkept)
    (congrArg (·.limit) hkept) fun hdone => (congrArg (·.done) hkept).trans hdone

theorem Settles.attends (h : Settles token timeout allowed d d') (hc : d.connection.Attends) :
    d'.connection.Attends := by
  cases h with
  | cameBack h hallowed hf hassign hback hw =>
    have hprogress := hback.progress_eq hassign
    refine (h.attends hc).of_same (hback.deals_eq hassign) ?_
      (congrArg Progress.completed hprogress)
      (congrArg Progress.limit hprogress) fun hdone =>
        (congrArg Progress.done hprogress).trans hdone
    exact hback.entry_eq hassign
  | @gaveUp d₁ c w k counter f h hallowed hf hup hw =>
    obtain ⟨-, rfl, -⟩ := hup
    exact (h.attends hc).of_same (deals_attempts k k k _) rfl rfl rfl fun _ => rfl
  | ranOut h hallowed hf hlimit hw => exact (h.attends hc).of_same rfl rfl rfl rfl fun _ => rfl
  | stopped h hstop hw =>
    obtain ⟨interest, rfl⟩ := hstop.connection_eq
    exact (h.attends hc).of_same rfl rfl rfl rfl fun _ => rfl

theorem Turn.attends (h : Turn token timeout d d') (hopen : d.connection.done = false)
    (hc : d.connection.Attends) : d'.connection.Attends := by
  cases h with
  | rested h => exact h.attends hc
  | begun h => exact h.attends hc
  | deferred h => exact (h.attends hc).of_same rfl rfl rfl rfl id
  | settled h => exact h.attends hc
  | @answeredLast c₁ w₁ w response uri hanswer =>
    have hframe := frame_of_readFrame hanswer.kept
    have hentry : c₁.entry = d.connection.entry := congrArg (·.entry) hframe
    refine hc.last hopen ?_ ?_ ?_ (congrArg (·.limit) hframe) rfl
    · exact hanswer.drawnEntries_eq
    · rw [← hentry, ← hanswer.completedEntries_eq]
      rfl
    · exact congrArg (·.completed + 1) hframe
  | @answeredNext c₁ c w₁ w response uri drawn hanswer hw₁ huri hw hon hmore =>
    have hframe := frame_of_readFrame hanswer.kept
    have hentry : c₁.entry = d.connection.entry := congrArg (·.entry) hframe
    have hread : c₁.clearReadBytes.progress = d.connection.progress := progress_of_frame hframe
    have hprogress := hon.progress_eq
    rw [hread] at hprogress
    refine hc.next hopen ?_ ?_ (congrArg Progress.completed hprogress)
      (congrArg Progress.limit hprogress) hmore
    · have hdrawn : c.drawnEntries = drawn.entry :: c₁.drawnEntries :=
        congrArg (List.filterMap Happening.drawnEntry?) hon.deals_eq
      have hnext : c.drawnEntries = c.entry :: d.connection.drawnEntries := by
        rw [hdrawn, hon.entry_eq, hanswer.drawnEntries_eq]
      exact hnext
    · have hcompleted : c.completedEntries = c₁.entry :: c₁.completedEntries :=
        congrArg (List.filterMap Happening.completedEntry?) hon.deals_eq
      have hnext : c.completedEntries = d.connection.entry :: d.connection.completedEntries := by
        rw [hcompleted, hentry, hanswer.completedEntries_eq]
      exact hnext
  | resumed hre hopened =>
    obtain ⟨addressIndex, now, -, -, rfl⟩ := hopened
    exact hc.of_same rfl rfl rfl rfl id

end Desk

theorem Connection.attends_invariant : Connection.TurnInvariant Attends where
  turn hturn hopen hc := hturn.attends hopen hc
  settles hsettles _ hc := hsettles.attends hc
  connected _ _ _ _ _ _ := ⟨Or.inl rfl, rfl, fun _ _ hpos => hpos⟩

theorem Connection.Move.drawnEntries_eq {t : ℕ} {c c' : Connection} (h : Connection.Move t c c')
    (hquiet : c'.draws = c.draws) : c'.drawnEntries = c.drawnEntries := by
  have hsame : c'.deals = c.deals → c'.drawnEntries = c.drawnEntries :=
    congrArg (List.filterMap Happening.drawnEntry?)
  cases h with
  | hear data eof => exact hsame (deals_hear data eof c)
  | awaitPace =>
    rw [Connection.awaitPace]
    split <;> rfl
  | begin =>
    rw [Connection.begin]
    split <;> rfl
  | attempts => exact hsame (deals_attempts _ _ _ c)
  | opened hassign => exact hsame hassign.deals_eq
  | @answer data eof =>
    have hdrawn : (c.hear data eof).drawnEntries = c.drawnEntries :=
      congrArg (List.filterMap Happening.drawnEntry?) (deals_hear data eof c)
    exact hdrawn
  | next drawn =>
    rw [draws_next] at hquiet
    omega
  | _ => rfl

/-- The book of a connection has the entries that it has drawn. -/
theorem Connection.ledger_entries : Connection.LedgerInvariant fun _ book c =>
    book.map (·.entry) = c.drawnEntries where
  time _ _ _ _ _ h := h
  move t book c c' h hmove hquiet := by
    rw [h, hmove.drawnEntries_eq hquiet]
  next _ _ _ drawn h := congrArg (drawn.entry :: ·) h
  connected _ _ _ _ _ _ := rfl

namespace Worker

/-- The connections have the limits of the worker, each another one. -/
theorem invariant_limits (limits : List ConnectionLimit) : Invariant fun w =>
    (w.connections.map (·.limit) ++ w.phase.pending).Sublist limits where
  sharing w sequence h := h
  move w w' _ h hmove := by
    have fewer : ∀ {w' : Worker}, w'.connections.map (·.limit) = w.connections.map (·.limit) →
        w'.phase.pending.Sublist w.phase.pending →
        (w'.connections.map (·.limit) ++ w'.phase.pending).Sublist limits := by
      intro w' hconnections hpending
      rw [hconnections]
      exact (List.Sublist.append_left hpending _).trans h
    have turned : ∀ {Q : Timer → Prop} {w₁ : Worker} {token : ℕ} {c : Connection} {d : Desk},
        Idles Q w w₁ → w₁.connections[token]? = some c →
        Moves w₁.world.clock c d.world.clock d.connection →
        ((w₁.withDesk token d).connections.map (·.limit) ++
          (w₁.withDesk token d).phase.pending).Sublist limits := by
      intro Q w₁ token c d hidles hc hmoves
      apply fewer
      · have hset : (w₁.connections.set token d.connection).map (·.limit) =
            w₁.connections.map (·.limit) := by
          obtain ⟨hlt, rfl⟩ := List.getElem?_eq_some_iff.mp hc
          rw [List.map_set, hmoves.settings_eq.1, ← List.map_set, List.set_getElem_self]
        rw [← hidles.connections_eq]
        exact hset
      · rw [show (w₁.withDesk token d).phase = w₁.phase from rfl,
          pending_of_loops hidles.loops_after]
        exact List.nil_sublist _
    cases hmove with
    | halted hhalts =>
      apply fewer (congrArg (List.map (·.limit)) hhalts.connections_eq)
      rw [hhalts.phase_eq]
      exact List.nil_sublist _
    | opened hphase =>
      refine fewer ?_ ?_
      · rfl
      · rw [hphase]
        exact List.Sublist.refl _
    | connected hphase =>
      rw [hphase] at h
      simp only [List.map_append, List.append_assoc]
      exact h
    | refused hphase =>
      refine fewer ?_ ?_
      · rfl
      · rw [hphase]
        exact List.Sublist.refl _
    | gaveUp hphase =>
      refine fewer ?_ ?_
      · rfl
      · rw [hphase]
        exact List.sublist_cons_self _ _
    | ranOut hphase => exact fewer rfl (List.nil_sublist _)
    | entered hphase => exact fewer rfl (List.nil_sublist _)
    | ended hphase => exact fewer rfl (List.nil_sublist _)
    | idled hidles =>
      apply fewer (congrArg (List.map (·.limit)) hidles.connections_eq)
      rw [pending_of_loops hidles.loops_after]
      exact List.nil_sublist _
    | handled hidles hc hturns => exact turned hidles hc hturns.moves
    | expired hidles hphase ht hdue htoken hgeneration hc hdone hsettles =>
      exact turned hidles hc hsettles.moves

end Worker

end Rload
