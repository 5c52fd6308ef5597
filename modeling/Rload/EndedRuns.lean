import Rload.LeadsTo
import Rload.LoopProgress

/-!
# Every run ends

A run without a pacer ends, whatever the outside answers, if every worker gets its turns and time
passes. Each worker leaves its start after as many attempts as it has limits and tries. Its loop
comes, again and again, to a step that lowers its credit.
-/

namespace Rload
open StatefulPrograms Connection

namespace Worker

/-- Before the loop the attempts of a limit are fewer than there may be. -/
def Early (w : Worker) : Prop :=
  match w.phase with
  | .opening _ => True
  | .starting _ attempts => attempts < fixedRequestConnectionAttempts
  | _ => False

/-- The limits that are left and the attempts for the first of them. -/
def earlyStage (w : Worker) : ℕ × ℕ :=
  match w.phase with
  | .opening limits => (limits.length + 1, 0)
  | .starting limits attempts => (limits.length, fixedRequestConnectionAttempts - attempts)
  | _ => (0, 0)

variable {w w' : Worker} {last bound n : ℕ}

theorem Move.clock_le (h : w.Move w') : w.world.clock ≤ w'.world.clock := by
  cases h with
  | halted hhalts => exact hhalts.ends.clock_le
  | opened hphase hw => exact hw.clock_le
  | connected hphase hw => exact hw.clock_le
  | refused hphase hw => exact hw.clock_le
  | gaveUp hphase hw => exact hw.clock_le
  | ranOut hphase hw => exact hw.clock_le
  | entered => exact le_rfl
  | ended => exact le_rfl
  | idled hidles => exact hidles.later.clock_le
  | handled hidles hc hturns => exact hidles.later.clock_le.trans hturns.steady.clock_le
  | expired hidles hphase ht hdue htoken hgeneration hc hdone hsettles =>
    exact hidles.later.clock_le.trans hsettles.steady.clock_le

theorem step_clock_le (w : Worker) : w.world.clock ≤ w.step.world.clock := by
  cases hphase : w.phase.isFinished with
  | true => rw [step_of_finished hphase]
  | false => exact (step_moves hphase).clock_le

/-- The loop goes on until the worker has ended. -/
theorem step_loops (hloops : w.phase.loops = true) :
    w.step.phase.isFinished = true ∨ w.step.phase.loops = true := by
  have hrunning : w.phase.isFinished = false := by
    cases hphase : w.phase with
    | finished result =>
      rw [hphase] at hloops
      cases hloops
    | _ => rfl
  have hmove := step_moves hrunning
  generalize w.step = w' at hmove
  have starting : ∀ {phase : Phase}, w.phase = phase → phase.loops = false → False := by
    intro phase hphase hnot
    rw [hphase, hnot] at hloops
    cases hloops
  cases hmove with
  | halted hhalts =>
    rw [hhalts.phase_eq]
    exact Or.inl rfl
  | opened hphase => exact (starting hphase rfl).elim
  | connected hphase => exact (starting hphase rfl).elim
  | refused hphase => exact (starting hphase rfl).elim
  | gaveUp hphase => exact (starting hphase rfl).elim
  | ranOut hphase => exact (starting hphase rfl).elim
  | entered hphase => exact (starting hphase rfl).elim
  | ended => exact Or.inl rfl
  | idled hidles => exact Or.inr hidles.loops_after
  | handled hidles => exact Or.inr hidles.loops_after
  | expired hidles => exact Or.inr hidles.loops_after

/-- The step ends the worker or enters the loop, or there is less to try. -/
def Starts (last : ℕ) (w w' : Worker) : Prop :=
  (w'.phase.isFinished = true ∨ w'.phase.loops = true) ∨
    w'.Early ∧ (last ≤ w.world.clock → Nearer w'.earlyStage w.earlyStage)

theorem starts_of_phase {limits limits' : List ConnectionLimit} {attempts attempts' : ℕ}
    (hphase : w.phase = .starting limits attempts)
    (hphase' : w'.phase = .starting limits' attempts')
    (hattempts : attempts' < fixedRequestConnectionAttempts)
    (hnearer : last ≤ w.world.clock → limits'.length < limits.length ∨
      limits' = limits ∧ attempts < attempts') : w.Starts last w' := by
  refine Or.inr ⟨by rwa [Early, hphase'], fun hlast => ?_⟩
  rw [earlyStage, earlyStage, hphase, hphase']
  obtain hfewer | ⟨rfl, hmore⟩ := hnearer hlast
  · exact .left _ _ hfewer
  · exact .right _ (by omega)

theorem attemptFailed_starts {limit : ConnectionLimit} {limits : List ConnectionLimit}
    {attempts : ℕ} {world : World} (hphase : w.phase = .starting (limit :: limits) attempts)
    (hattempts : attempts < fixedRequestConnectionAttempts)
    (hlimit : ∀ deadline, limit = .deadline deadline → deadline ≤ last)
    (hw : w.world.clock ≤ world.clock) :
    w.Starts last (attemptFailed limit limits attempts { w with world := world }) := by
  have hpos : 0 < fixedRequestConnectionAttempts := Nat.succ_pos _
  unfold attemptFailed
  cases limit with
  | deadline deadline =>
    simp only [now_eq, sleep_eq]
    split
    · exact Or.inl (Or.inl rfl)
    · rename_i hearly
      refine starts_of_phase hphase hphase hattempts fun hlast => ?_
      -- the deadline of the limit is over
      have hle := hlimit deadline rfl
      have hnow : world.clock ≤ world.advance.clock := (World.later_advance world).clock_le
      exact absurd (((hle.trans hlast).trans hw).trans hnow) hearly
  | requests requests =>
    simp only [sleep_eq]
    split
    · exact starts_of_phase hphase rfl hpos fun _ => Or.inl (Nat.lt_succ_self _)
    · rename_i hmore
      exact starts_of_phase hphase rfl (by omega) fun _ => Or.inr ⟨rfl, Nat.lt_succ_self _⟩

theorem startNext_starts {limit : ConnectionLimit} {limits : List ConnectionLimit}
    {attempts : ℕ} (hphase : w.phase = .starting (limit :: limits) attempts)
    (hattempts : attempts < fixedRequestConnectionAttempts)
    (hlimit : ∀ deadline, limit = .deadline deadline → deadline ≤ last) :
    w.Starts last (startNext limit limits attempts w) := by
  unfold startNext
  have hspec := Connection.connect_spec w.addresses limit w.tls w.world
  split
  · rename_i h world hconnect
    have hw := hspec.of_error hconnect
    split
    · rename_i hrun
      rw [if_pos hrun] at hw
      exact attemptFailed_starts hphase hattempts hlimit hw.clock_le
    · exact Or.inl (Or.inl rfl)
  · split
    · exact Or.inl (Or.inl rfl)
    · have hpos : 0 < fixedRequestConnectionAttempts := Nat.succ_pos _
      exact starts_of_phase hphase rfl hpos fun _ => Or.inl (Nat.lt_succ_self _)

theorem OnTime.step_starts (h : w.OnTime last) (hearly : w.Early) : w.Starts last w.step := by
  cases hphase : w.phase with
  | opening limits =>
    simp only [step, hphase, openPoll]
    split
    · exact Or.inl (Or.inl rfl)
    · refine Or.inr ⟨Nat.succ_pos _, fun _ => ?_⟩
      simp only [earlyStage, hphase]
      exact .left _ _ (Nat.lt_succ_self _)
  | starting limits attempts =>
    rw [Early, hphase] at hearly
    cases limits with
    | nil =>
      simp only [step, hphase]
      exact Or.inl (Or.inr rfl)
    | cons limit limits =>
      simp only [step, hphase]
      refine startNext_starts hphase hearly (h.limits limit ?_)
      rw [hphase]
      exact List.mem_append_right _ List.mem_cons_self
  | _ =>
    rw [Early, hphase] at hearly
    exact hearly.elim

/-- A step in a run without a pacer. -/
def Steps (last : ℕ) (w w' : Worker) : Prop :=
  w.OnTime last ∧ ∃ sequence : RequestSequence, sequence.Unpaced ∧ w' = (w.sharing sequence).step

theorem OnTime.sharing (h : w.OnTime last) (sequence : RequestSequence) :
    (w.sharing sequence).OnTime last where
  paced := h.paced
  timekeeping := ⟨h.timekeeping.empty, h.timekeeping.timed, h.timekeeping.owned,
    h.timekeeping.instant⟩
  tallies := ⟨h.tallies.allOpen, h.tallies.active_eq⟩
  inOrder := ⟨h.inOrder.deadlines, h.inOrder.pacing⟩
  unpaced := ⟨h.unpaced.connections, h.unpaced.pacing⟩
  limits := h.limits

theorem Steps.clock_le (h : Steps last w w') : w.world.clock ≤ w'.world.clock := by
  obtain ⟨-, sequence, -, rfl⟩ := h
  exact (w.sharing sequence).step_clock_le

theorem Steps.loops (h : Steps last w w') (hloops : w.phase.loops = true) :
    w'.phase.isFinished = true ∨ w'.phase.loops = true := by
  obtain ⟨-, sequence, -, rfl⟩ := h
  exact step_loops (w := w.sharing sequence) hloops

theorem Steps.starts (h : Steps last w w') (hearly : w.Early) : w.Starts last w' := by
  obtain ⟨horderly, sequence, -, rfl⟩ := h
  exact (horderly.sharing sequence).step_starts hearly

theorem Steps.goesOn (h : Steps last w w') (hloops : w.phase.loops = true)
    (hlast : last ≤ w.world.clock) : w.GoesOn w' := by
  obtain ⟨horderly, sequence, hsequence, rfl⟩ := h
  exact (horderly.sharing sequence).step_goesOn hsequence hloops hlast

theorem wellFounded_nearer : WellFounded Nearer := wellFounded_lt.prod_lex wellFounded_lt

section Runs

variable {x : ℕ → Worker}
  (h : EndlessRun (Steps last) (·.world.clock) (·.phase.isFinished = true) x)

include h

/-- The start is left. -/
theorem starts_leadsTo :
    LeadsTo x Early fun w => w.phase.isFinished = true ∨ w.phase.loops = true := by
  refine (h.leadsTo_time (fun w w' hearly hstep => ?_) (fun _ _ => Or.inl) last).or_trans
    (h.leadsTo_variant wellFounded_nearer earlyStage (fun w w' hw hstep => ?_)
      fun _ _ => Or.inl)
  · exact (hstep.starts hearly).imp_right And.left
  · obtain ⟨hearly, hlast⟩ := hw
    refine (hstep.starts hearly).imp_right fun hless => ?_
    exact ⟨⟨hless.1, hlast.trans hstep.clock_le⟩, hless.2 hlast⟩

/-- In the loop the last deadline passes. -/
theorem loops_leadsTo_last : LeadsTo x (·.phase.loops = true) fun w =>
    w.phase.isFinished = true ∨ w.phase.loops = true ∧ last ≤ w.world.clock :=
  h.leadsTo_time (fun _ _ hloops hstep => hstep.loops hloops) (fun _ _ hstops => hstops) last

/-- The loop from the last deadline on, with a credit, where all waits are over by the bound. -/
structure Waits (last bound n : ℕ) (w : Worker) : Prop where
  loops : w.phase.loops = true
  late : last ≤ w.world.clock
  credit_eq : w.credit = n
  expires : w.ExpiresBy bound

/-- The worker has ended or has less credit. -/
def Less (last n : ℕ) (w : Worker) : Prop :=
  w.phase.isFinished = true ∨
    (w.phase.loops = true ∧ last ≤ w.world.clock) ∧ w.credit < n

omit h in
theorem Waits.step (hw : w.Waits last bound n) (hstep : Steps last w w') :
    w'.Less last n ∨ w'.Waits last bound n ∧
      (bound ≤ w.world.clock → Nearer (w'.stage bound) (w.stage bound)) := by
  have hlate := hw.late.trans hstep.clock_le
  obtain hfinished | ⟨hloops, hless | ⟨hsame, hstays⟩⟩ := hstep.goesOn hw.loops hw.late
  · exact Or.inl (Or.inl hfinished)
  · exact Or.inl (Or.inr ⟨⟨hloops, hlate⟩, hw.credit_eq ▸ hless⟩)
  · obtain ⟨hexpires, hnearer⟩ := hstays bound hw.expires
    exact Or.inr ⟨⟨hloops, hlate, hsame.trans hw.credit_eq, hexpires⟩, hnearer⟩

/-- What waits until a time passes comes to less. -/
theorem waits_leadsTo (bound n : ℕ) : LeadsTo x (Waits last bound n) (Less last n) := by
  refine (h.leadsTo_time (fun w w' hw hstep => ?_) (fun _ _ => Or.inl) bound).or_trans
    (h.leadsTo_variant wellFounded_nearer (stage bound) (fun w w' hw hstep => ?_)
      fun _ _ => Or.inl)
  · exact (hw.step hstep).imp_right And.left
  · obtain ⟨hwaits, hbound⟩ := hw
    refine (hwaits.step hstep).imp_right fun hstays => ?_
    exact ⟨⟨hstays.1, hbound.trans hstep.clock_le⟩, hstays.2 hbound⟩

omit h in
theorem exists_expiresBy (w : Worker) : ∃ bound, w.ExpiresBy bound := by
  refine ⟨(w.connections.map (·.lastDeadline w.timeout)).sum, fun c hc _ => ?_⟩
  exact List.single_le_sum (fun _ _ => Nat.zero_le _) _ (List.mem_map_of_mem hc)

/-- From the last deadline on the loop comes to its end. -/
theorem late_leadsTo : LeadsTo x (fun w => w.phase.loops = true ∧ last ≤ w.world.clock)
    (·.phase.isFinished = true) := by
  refine LeadsTo.induction credit fun n k hk => ?_
  obtain ⟨⟨hloops, hlate⟩, hcredit⟩ := hk
  obtain ⟨bound, hexpires⟩ := (x k).exists_expiresBy
  exact waits_leadsTo h bound n k ⟨hloops, hlate, hcredit, hexpires⟩

theorem early_leadsTo : LeadsTo x Early (·.phase.isFinished = true) :=
  (starts_leadsTo h).or_trans ((loops_leadsTo_last h).or_trans (late_leadsTo h))

end Runs

end Worker

end Rload
