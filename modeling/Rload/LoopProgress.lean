import Rload.ActiveConnections
import Rload.RemainingWork
import Rload.UnpacedRuns

/-!
# The progress of the loop

The credits of the connections make up the credit of their worker. From the last deadline on no
step of the loop raises it. While it stays, no connection waits longer than before; and once
all these waits are over, each step brings the loop nearer to the one that lowers the credit.
-/

namespace Rload
open StatefulPrograms Connection

namespace Worker

def credit (w : Worker) : ℕ := (w.connections.map (·.credit)).sum

/-- The deadlines of the open connections pass by the bound. -/
def ExpiresBy (bound : ℕ) (w : Worker) : Prop :=
  ∀ c ∈ w.connections, c.done = false → c.lastDeadline w.timeout ≤ bound

/-- How far the loop is from the step that lowers the credit. A pass over the timers that began
before the bound is followed by one that did not. -/
def stage (bound : ℕ) (w : Worker) : ℕ × ℕ :=
  match w.phase with
  | .polling => (if w.active = 0 then 0 else 3, 0)
  | .handling events => (2, events.length)
  | .expiring now => (if bound ≤ now then 1 else 5, w.deadlines.length)
  | .resuming _ => (if w.active = 0 then 0 else 4, 1)
  | _ => (0, 0)

/-- A later stage is nearer. -/
def Nearer : ℕ × ℕ → ℕ × ℕ → Prop := Prod.Lex (· < ·) (· < ·)

/-- The credit is lowered, or no connection waits longer and the loop gets nearer. -/
def Advances (w w' : Worker) : Prop :=
  w'.credit < w.credit ∨
    w'.credit = w.credit ∧ ∀ bound, w.ExpiresBy bound →
      w'.ExpiresBy bound ∧ (bound ≤ w.world.clock → Nearer (w'.stage bound) (w.stage bound))

/-- What a worker without a pacer keeps, whose deadlines are over at the time `last`. -/
structure OnTime (last : ℕ) (w : Worker) : Prop where
  paced : ∀ c ∈ w.connections, c.Paced w.world.clock
  timekeeping : w.Timekeeping
  tallies : w.Tallies
  inOrder : w.InOrder
  unpaced : w.Unpaced
  limits : ∀ limit ∈ w.connections.map (·.limit) ++ w.phase.pending,
    ∀ deadline, limit = .deadline deadline → deadline ≤ last

variable {w w₁ w' : Worker} {last bound token : ℕ} {c c' : Connection} {d : Desk}

theorem advances_of_same (hconnections : w'.connections = w.connections)
    (htimeout : w'.timeout = w.timeout)
    (hnearer : ∀ bound, w.ExpiresBy bound → bound ≤ w.world.clock →
      Nearer (w'.stage bound) (w.stage bound)) : w.Advances w' := by
  refine Or.inr ⟨by rw [credit, credit, hconnections], fun bound hexpires => ?_⟩
  refine ⟨?_, hnearer bound hexpires⟩
  rw [ExpiresBy, hconnections, htimeout]
  exact hexpires

theorem credit_set (hc : w.connections[token]? = some c)
    (hconnections : w'.connections = w.connections.set token c') :
    w'.credit + c.credit = w.credit + c'.credit := by
  rw [credit, credit, hconnections]
  exact SharedResource.sum_set (·.credit) hc c'

/-- A connection that yields where the loop gets nearer. -/
theorem advances_of_yields (hc : w.connections[token]? = some c)
    (hconnections : w'.connections = w.connections.set token c')
    (htimeout : w'.timeout = w.timeout) (hyields : Yields w.timeout c c')
    (hnearer : c'.credit = c.credit → ∀ bound, Nearer (w'.stage bound) (w.stage bound)) :
    w.Advances w' := by
  have hcredit := credit_set hc hconnections
  obtain hlt | ⟨heq, hlast⟩ := hyields
  · exact Or.inl (by omega)
  · refine Or.inr ⟨by omega, fun bound hexpires => ⟨?_, fun _ => hnearer heq bound⟩⟩
    rw [ExpiresBy, hconnections, htimeout]
    intro c₁ hmem hopen
    cases List.mem_or_eq_of_mem_set hmem with
    | inl hold => exact hexpires c₁ hold hopen
    | inr hnew =>
      subst hnew
      have hpos := credit_pos hopen
      cases hdone : c.done with
      | true =>
        rw [credit_of_done hdone] at heq
        omega
      | false =>
        rw [hlast]
        exact hexpires c (List.mem_of_getElem? hc) hdone

theorem OnTime.limit_le (h : w.OnTime last) (hc : w.connections[token]? = some c)
    {deadline : ℕ} (hlimit : c.limit = .deadline deadline) : deadline ≤ last := by
  refine h.limits c.limit (List.mem_append_left _ ?_) deadline hlimit
  exact List.mem_map_of_mem (List.mem_of_getElem? hc)

/-- An event leaves its connection with no more to do and with no longer wait. -/
theorem OnTime.yields_of_event (h : w.OnTime last) (hsequence : w.world.sequence.Unpaced)
    (hlast : last ≤ w.world.clock) (hc : w.connections[token]? = some c) {event : Event}
    (hrun : Desk.handleEvent token w.timeout event (w.desk c) = .ok () d) :
    Yields w.timeout c d.connection := by
  have hturns := (Desk.handleEvent_takes event).of_ok hrun
  obtain hsame | ⟨hopen, -⟩ := hturns.tallies
  · rw [hsame]
    exact .refl w.timeout c
  · cases hlimit : c.limit with
    | requests count =>
      have hunpaced : (w.desk c).Unpaced :=
        ⟨h.unpaced.connections c (List.mem_of_getElem? hc), hsequence, h.unpaced.pacing⟩
      exact Desk.Turns.yields hturns hlimit fun d₁ h₁ =>
        (Desk.Turns.unpaced h₁ hunpaced).connection.reconnectAtPace
    | deadline deadline =>
      have hpassed : deadline ≤ w.world.clock := (h.limit_le hc hlimit).trans hlast
      exact Desk.handleEvent_yields_late hlimit hpassed hopen hrun

/-- A deadline that passes lowers the credit of its connection. -/
theorem OnTime.credit_lt_of_expiry (h : w.OnTime last) (hlast : last ≤ w.world.clock)
    (hc : w.connections[token]? = some c) (hopen : c.done = false) {deadlines : TimerQueue}
    (hrun : Desk.handleExpired token w.timeout
      (desk { w with deadlines := deadlines } c) = .ok () d) :
    d.connection.credit < c.credit := by
  cases hlimit : c.limit with
  | requests count =>
    have hsettles := Desk.handleExpired_handles.of_ok hrun
    exact hsettles.credit_lt hopen hlimit
  | deadline deadline =>
    have hpassed : deadline ≤ w.world.clock := (h.limit_le hc hlimit).trans hlast
    rw [credit_of_done ((Desk.handleExpired_done hlimit hpassed).of_ok hrun)]
    exact credit_pos hopen

/-- Where all waits are over and no timer is due, all connections are done. -/
theorem OnTime.active_eq_zero (h : w.OnTime last) {now : ℕ} (hphase : w.phase = .expiring now)
    (hdue : due now w.deadlines = none) (hexpires : w.ExpiresBy bound) (hbound : bound ≤ now) :
    w.active = 0 := by
  have hloops : w.phase.loops = true := by
    rw [hphase]
    rfl
  rw [h.tallies.active_eq hloops, sum_active_eq_zero]
  intro c hmem
  by_contra hdone
  have hopen : c.done = false := Bool.not_eq_true _ ▸ hdone
  obtain ⟨i, hc⟩ := List.mem_iff_getElem?.mp hmem
  obtain ⟨htimed, hcovered⟩ := h.timekeeping.timed hloops i c hc
  have hunpaced := h.unpaced.connections c hmem
  obtain ⟨t, ht, htoken, hgeneration⟩ := hcovered hopen hunpaced.awaitingPace hunpaced.never
  have hle := nextDeadline_le ((htimed t ht htoken).2 hgeneration)
  have hlate := h.inOrder.deadlines.lt_of_due hdue t ht
  have hwait := hexpires c hmem hopen
  omega

/-- The step ends the worker, or it goes on with its loop. -/
def GoesOn (w w' : Worker) : Prop :=
  w'.phase.isFinished = true ∨ w'.phase.loops = true ∧ w.Advances w'

theorem work_goesOn (hloops : w₁.phase.loops = true) {handler : DeskM Unit}
    (hhandler : ∀ c d, w₁.connections[token]? = some c → handler (w₁.desk c) = .ok () d →
      w.Advances (w₁.withDesk token d)) : w.GoesOn (w₁.work token handler) := by
  unfold work
  split
  · exact Or.inl rfl
  · rename_i c hc
    split
    · exact Or.inl rfl
    · rename_i d hd
      exact Or.inr ⟨hloops, hhandler c d hc hd⟩

theorem poll_goesOn (hphase : w.phase = .polling) (hactive : w.active ≠ 0) :
    w.GoesOn w.discardStale.poll := by
  unfold poll
  simp only
  split
  · exact Or.inl rfl
  · refine Or.inr ⟨rfl, advances_of_same rfl rfl fun bound _ _ => ?_⟩
    simp only [stage, hphase, if_neg hactive]
    exact .left _ _ (by omega)

/-- A step of the loop from the last deadline on. -/
theorem OnTime.step_goesOn (h : w.OnTime last) (hsequence : w.world.sequence.Unpaced)
    (hloops : w.phase.loops = true) (hlast : last ≤ w.world.clock) : w.GoesOn w.step := by
  cases hphase : w.phase with
  | polling =>
    simp only [step, hphase]
    split
    · exact Or.inl rfl
    · rename_i hactive
      exact poll_goesOn hphase hactive
  | handling events =>
    cases events with
    | nil =>
      simp only [step, hphase, readClock, now_eq]
      refine Or.inr ⟨rfl, advances_of_same rfl rfl fun bound _ hbound => ?_⟩
      have hnow : bound ≤ w.world.advance.clock := hbound.trans (World.later_advance _).clock_le
      simp only [stage, hphase, if_pos hnow]
      exact .left _ _ (by omega)
    | cons event events =>
      simp only [step, hphase]
      refine work_goesOn rfl fun c d hc hrun => ?_
      have hyields := h.yields_of_event hsequence hlast hc hrun
      refine advances_of_yields hc rfl rfl hyields fun _ bound => ?_
      simp only [stage, hphase]
      exact .right _ (Nat.lt_succ_self _)
  | expiring now =>
    simp only [step, hphase]
    split
    · rename_i hdue
      simp only [readClock, now_eq]
      refine Or.inr ⟨rfl, advances_of_same rfl rfl fun bound hexpires _ => ?_⟩
      simp only [stage, hphase]
      by_cases hbound : bound ≤ now
      · rw [if_pos hbound, if_pos (h.active_eq_zero hphase hdue hexpires hbound)]
        exact .left _ _ (by omega)
      · rw [if_neg hbound]
        refine .left _ _ ?_
        split <;> omega
    · rename_i t deadlines hdue
      obtain ⟨hqueue, -⟩ := due_eq_some hdue
      split
      · refine Or.inr ⟨rfl, advances_of_same rfl rfl fun bound _ _ => ?_⟩
        simp only [stage, hphase, hqueue]
        exact .right _ (Nat.lt_succ_self _)
      · rename_i hfresh
        refine work_goesOn rfl fun c d hc hrun => ?_
        have hopen : c.done = false := not_stale_not_done (Bool.not_eq_true _ ▸ hfresh) hc
        have hlt := h.credit_lt_of_expiry hlast hc hopen hrun
        refine advances_of_yields hc rfl rfl (Or.inl hlt) fun heq => ?_
        exact absurd heq (Nat.ne_of_lt hlt)
  | resuming now =>
    simp only [step, hphase, h.unpaced.pacing, due]
    refine Or.inr ⟨rfl, advances_of_same rfl rfl fun bound _ _ => ?_⟩
    have hafter : (w.goTo .polling).stage bound = (if w.active = 0 then 0 else 3, 0) := rfl
    rw [hafter]
    simp only [stage, hphase]
    by_cases hactive : w.active = 0
    · rw [if_pos hactive, if_pos hactive]
      exact .right _ (Nat.lt_succ_self _)
    · rw [if_neg hactive, if_neg hactive]
      exact .left _ _ (by omega)
  | opening limits =>
    rw [hphase] at hloops
    cases hloops
  | starting limits attempts =>
    rw [hphase] at hloops
    cases hloops
  | finished result =>
    rw [hphase] at hloops
    cases hloops

end Worker

end Rload
