import Rload.RequestAccounting

/-!
# Established connections are driven to their end

A worker that returns has ended every connection that it established, for limits of any kind,
unless it gave up to connect for a limit with a deadline: then it drops what it has.
-/

namespace Rload
open Connection

namespace Desk

variable {token timeout : ℕ} {allowed : Counter → Prop} {d d' : Desk}

/-- The active connections after a turn of an open one. -/
def Tallies (d d' : Desk) : Prop :=
  d'.active = d.active - if d'.connection.done then 1 else 0

theorem tallies_of_open (hdone : d'.connection.done = false) (hactive : d'.active = d.active) :
    Tallies d d' := by
  rw [Tallies, hdone, hactive]
  rfl

theorem tallies_of_done (hdone : d'.connection.done = true) (hactive : d'.active = d.active - 1) :
    Tallies d d' := by
  rw [Tallies, hdone, hactive]
  rfl

theorem Settles.tallies (h : Settles token timeout allowed d d')
    (hopen : d.connection.done = false) : Tallies d d' := by
  cases h with
  | cameBack h hallowed hf hassign hback hw =>
    have hdone := congrArg Progress.done (hback.progress_eq hassign)
    exact tallies_of_open (hdone.trans (h.done_eq.trans hopen)) h.active_eq
  | gaveUp h hallowed hf hup hw =>
    obtain ⟨-, rfl, -⟩ := hup
    exact tallies_of_done rfl (congrArg (· - 1) h.active_eq)
  | ranOut h hallowed hf hlimit hw => exact tallies_of_done rfl (congrArg (· - 1) h.active_eq)
  | stopped h hstop hw =>
    obtain ⟨interest, rfl⟩ := hstop.connection_eq
    exact tallies_of_done rfl (congrArg (· - 1) h.active_eq)

theorem Turn.tallies (h : Turn token timeout d d') (hopen : d.connection.done = false) :
    Tallies d d' := by
  cases h with
  | rested h => exact tallies_of_open (h.done_eq.trans hopen) h.active_eq
  | begun h => exact tallies_of_open (h.done_eq.trans hopen) h.active_eq
  | deferred h => exact tallies_of_open (h.done_eq.trans hopen) h.active_eq
  | settled h => exact h.tallies hopen
  | answeredLast => exact tallies_of_done rfl rfl
  | @answeredNext c₁ c w₁ w response uri drawn hanswer hw₁ huri hw hon hmore =>
    have hread : c₁.clearReadBytes.progress = d.connection.progress :=
      progress_of_frame (frame_of_readFrame hanswer.kept)
    have hprogress := hon.progress_eq
    rw [hread] at hprogress
    have hdone : c.done = d.connection.done := congrArg Progress.done hprogress
    exact tallies_of_open (hdone.trans hopen) rfl
  | resumed hre hopened hw =>
    have hdone := congrArg Progress.done (hopened.progress_eq fun _ => rfl)
    exact tallies_of_open (hdone.trans hopen) rfl

theorem Turns.tallies (h : Turns token timeout d d') :
    d' = d ∨ d.connection.done = false ∧ Tallies d d' := by
  induction h with
  | refl => exact Or.inl rfl
  | tail _ hturn ih =>
    obtain ⟨hopen, hturn⟩ := hturn
    cases ih with
    | inl heq =>
      subst heq
      exact Or.inr ⟨hopen, hturn.tallies hopen⟩
    | inr h =>
      obtain ⟨hfirst, htallies⟩ := h
      refine Or.inr ⟨hfirst, ?_⟩
      rw [Tallies, hopen] at htallies
      rw [Tallies, hturn.tallies hopen, htallies]
      rfl

end Desk

namespace Worker

/-- The active connections are those that are not done. -/
structure Tallies (w : Worker) : Prop where
  allOpen : w.phase.loops = false → w.phase.isFinished = false → ∀ c ∈ w.connections, c.done = false
  active_eq : w.phase.loops = true → w.active = (w.connections.map (·.progress.active)).sum

variable {w w₁ : Worker}

theorem tallies_of_starting {phase : Phase} (h : w.Tallies) (hloops : w.phase.loops = false)
    (hrunning : w.phase.isFinished = false) (hphase : w₁.phase = phase)
    (hafter : phase.loops = false) (hconnections : w₁.connections = w.connections) :
    w₁.Tallies where
  allOpen _ _ := hconnections ▸ h.allOpen hloops hrunning
  active_eq hloops' := by
    rw [hphase, hafter] at hloops'
    cases hloops'

theorem Tallies.idles {P : Timer → Prop} (h : w.Tallies) (hidles : Idles P w w₁) : w₁.Tallies where
  allOpen hloops := absurd hidles.loops_after (by simp [hloops])
  active_eq _ := by
    rw [hidles.active_eq, hidles.connections_eq]
    exact h.active_eq hidles.loops

theorem Tallies.turn {token : ℕ} {c : Connection} {d : Desk} (h : w.Tallies)
    (hloops : w.phase.loops = true) (hc : w.connections[token]? = some c) (hopen : c.done = false)
    (htallies : Desk.Tallies (w.desk c) d) : (w.withDesk token d).Tallies where
  allOpen hnot := absurd hloops (by simp [show w.phase.loops = false from hnot])
  active_eq _ := by
    have hsum := SharedResource.sum_set (fun c => c.progress.active) hc d.connection
    have htotal := h.active_eq hloops
    have hbefore : c.progress.active = 1 := by
      rw [Progress.active, show c.progress.done = false from hopen]
      rfl
    have hafter : d.connection.progress.active = if d.connection.done then 0 else 1 := rfl
    have hactive : d.active = w.active - if d.connection.done then 1 else 0 := htallies
    have hgoal : d.active =
        ((w.connections.set token d.connection).map (·.progress.active)).sum := by
      rw [hbefore, hafter] at hsum
      rw [hactive, htotal]
      cases hd : d.connection.done with
      | true =>
        simp only [hd, if_true] at hsum ⊢
        omega
      | false =>
        simp only [hd, Bool.false_eq_true, if_false] at hsum ⊢
        omega
    exact hgoal

theorem invariant_tallies : Invariant Tallies where
  sharing w sequence h := ⟨h.1, h.2⟩
  move w w' hrunning h hmove := by
    cases hmove with
    | halted hhalts =>
      refine ⟨fun _ hfinished => ?_, fun hloops => ?_⟩
      · rw [hhalts.phase_eq] at hfinished
        cases hfinished
      · rw [hhalts.phase_eq] at hloops
        cases hloops
    | opened hphase =>
      exact tallies_of_starting h (by rw [hphase]; rfl) hrunning rfl rfl rfl
    | connected hphase =>
      constructor
      · intro _ _ c hc
        cases List.mem_append.mp hc with
        | inl hmem => exact h.allOpen (by rw [hphase]; rfl) hrunning c hmem
        | inr hnew =>
          rw [List.mem_singleton] at hnew
          exact hnew ▸ rfl
      · intro hloops
        cases hloops
    | refused hphase => exact tallies_of_starting h (by rw [hphase]; rfl) hrunning rfl rfl rfl
    | gaveUp hphase => exact tallies_of_starting h (by rw [hphase]; rfl) hrunning rfl rfl rfl
    | ranOut hphase => exact tallies_of_starting h (by rw [hphase]; rfl) hrunning rfl rfl rfl
    | entered hphase =>
      constructor
      · intro hloops
        cases hloops
      · intro _
        exact (sum_active_of_open (h.allOpen (by rw [hphase]; rfl) hrunning)).symm
    | ended hphase =>
      constructor
      · intro _ hfinished
        cases hfinished
      · intro hloops
        cases hloops
    | idled hidles => exact h.idles hidles
    | handled hidles hc hturns =>
      have h₁ := h.idles hidles
      cases hturns.tallies with
      | inl heq =>
        subst heq
        rw [withDesk_desk hc]
        exact h₁
      | inr htallies => exact h₁.turn hidles.loops_after hc htallies.1 htallies.2
    | expired hidles hphase ht hdue htoken hgeneration hc hdone hsettles =>
      exact (h.idles hidles).turn hidles.loops_after hc hdone (hsettles.tallies hdone)

/-- In the next step a connection with a deadline cannot be made in time, and the worker has
made others before. -/
def strands (w : Worker) : Bool :=
  match w.phase with
  | .starting (.deadline deadline :: _) _ =>
    match Connection.connect w.addresses (.deadline deadline) w.tls w.world with
    | .error (.error _) world => decide (deadline ≤ world.advance.clock) && !w.connections.isEmpty
    | _ => false
  | _ => false

/-- The steps of a worker while others change the sequence that they share. -/
def steps (w : Worker) : List RequestSequence → Worker
  | [] => w
  | sequence :: turns => steps (w.sharing sequence).step turns

def strandsIn (w : Worker) : List RequestSequence → Bool
  | [] => false
  | sequence :: turns => (w.sharing sequence).strands || strandsIn (w.sharing sequence).step turns

/-- A worker that returns from its setup has made no connection, or strands those it made. -/
theorem strands_eq {s : RunSummary} (hloops : w.phase.loops = false)
    (hrunning : w.phase.isFinished = false) (h : w.step.phase = .finished (.ok s)) :
    w.step.connections = w.connections ∧ w.strands = !w.connections.isEmpty := by
  cases hphase : w.phase with
  | opening limits =>
    rw [step, hphase] at h
    simp only [openPoll] at h
    split at h
    · cases h
    · cases h
  | starting limits attempts =>
    cases limits with
    | nil =>
      rw [step, hphase] at h
      cases h
    | cons limit limits =>
      rw [step, hphase] at h ⊢
      simp only [startNext] at h ⊢
      cases hc : Connection.connect w.addresses limit w.tls w.world with
      | ok c world =>
        rw [hc] at h
        simp only at h
        split at h
        · cases h
        · cases h
      | error e world =>
        rw [hc] at h
        cases e with
        | error e =>
          simp only [Halt.isRunError, if_true, attemptFailed] at h ⊢
          cases limit with
          | requests requests =>
            simp only [sleep_eq] at h
            split at h
            · cases h
            · cases h
          | deadline deadline =>
            simp only [now_eq, sleep_eq] at h ⊢
            split at h
            · rename_i hover
              rw [if_pos hover]
              refine ⟨rfl, ?_⟩
              rw [strands, hphase]
              simp only [hc, hover, decide_true, Bool.true_and]
            · rw [hphase] at h
              cases h
        | panic message => cases h
        | diverge => cases h
  | finished result =>
    rw [hphase] at hrunning
    cases hrunning
  | _ =>
    rw [hphase] at hloops
    cases hloops

theorem strands_of_loops (h : w.phase.loops = true) : w.strands = false := by
  cases hphase : w.phase with
  | starting limits attempts =>
    rw [hphase] at h
    cases h
  | _ =>
    rw [strands, hphase]

/-- A worker that strands its connections returns. -/
theorem phase_of_strands (h : w.strands = true) : ∃ s, w.step.phase = .finished (.ok s) := by
  unfold strands at h
  split at h
  · rename_i deadline limits attempts hphase
    split at h
    · rename_i e world hc
      rw [Bool.and_eq_true, decide_eq_true_eq] at h
      refine ⟨countConnectError w.summary, ?_⟩
      rw [step, hphase]
      simp only [startNext, hc, Halt.isRunError, if_true, attemptFailed, now_eq, if_pos h.1, goTo]
    · cases h
  · cases h

theorem steps_of_finished (h : w.phase.isFinished = true) (turns : List RequestSequence) :
    (w.steps turns).phase = w.phase ∧ (w.steps turns).connections = w.connections ∧
      w.strandsIn turns = false := by
  induction turns generalizing w with
  | nil => exact ⟨rfl, rfl, rfl⟩
  | cons sequence turns ih =>
    have hstep : (w.sharing sequence).step = w.sharing sequence := step_of_finished h
    have hstrands : (w.sharing sequence).strands = false := by
      by_contra hstrands
      rw [Bool.not_eq_false] at hstrands
      unfold strands at hstrands
      split at hstrands
      · rename_i hphase
        rw [show w.phase = _ from hphase] at h
        cases h
      · cases hstrands
    have hrest := @ih (w.sharing sequence) h
    simp only [steps, strandsIn, hstep, hstrands, Bool.false_or]
    exact hrest

/-- The loop returns from its top, where no connection is active. -/
theorem ended_of_loops {s : RunSummary} (hloops : w.phase.loops = true)
    (hphase : w.step.phase = .finished (.ok s)) :
    (w.phase = .polling ∧ w.active = 0) ∧ w.step.connections = w.connections := by
  have hrunning : w.phase.isFinished = false := by
    cases hp : w.phase with
    | finished result =>
      rw [hp] at hloops
      cases hloops
    | _ => rfl
  have hmove := step_moves hrunning
  generalize w.step = w' at hmove hphase
  cases hmove with
  | halted hhalts =>
    rw [hhalts.phase_eq] at hphase
    cases hphase
  | ended hpolling hactive => exact ⟨⟨hpolling, hactive⟩, rfl⟩
  | ranOut hstarting =>
    rw [hstarting] at hloops
    cases hloops
  | idled hidles =>
    have hafter := hidles.loops_after
    rw [hphase] at hafter
    cases hafter
  | @handled w₁ token c d hidles =>
    have hafter := hidles.loops_after
    rw [show w₁.phase = _ from hphase] at hafter
    cases hafter
  | @expired w₁ token now t c d hidles =>
    have hafter := hidles.loops_after
    rw [show w₁.phase = _ from hphase] at hafter
    cases hafter
  | _ => cases hphase

/-- A step by which a worker returns. -/
theorem Tallies.returned {s : RunSummary} (h : w.Tallies) (hrunning : w.phase.isFinished = false)
    (hphase : w.step.phase = .finished (.ok s)) :
    (∀ c ∈ w.step.connections, c.done = true) ↔ w.strands = false := by
  cases hloops : w.phase.loops with
  | true =>
    obtain ⟨hactive, hconnections⟩ := ended_of_loops hloops hphase
    have hdone : ∀ c ∈ w.step.connections, c.done = true := by
      rw [hconnections]
      apply sum_active_eq_zero.mp
      rw [← h.active_eq hloops]
      exact hactive.2
    exact iff_of_true hdone (strands_of_loops hloops)
  | false =>
    obtain ⟨hconnections, hstrands⟩ := strands_eq hloops hrunning hphase
    rw [hconnections, hstrands]
    cases hc : w.connections with
    | nil => simp
    | cons c connections =>
      have hopen := h.allOpen hloops hrunning c (by rw [hc]; exact List.mem_cons_self)
      simp [hopen]

theorem Tallies.returns (h : w.Tallies) (hrunning : w.phase.isFinished = false)
    (turns : List RequestSequence) {s : RunSummary}
    (hphase : (w.steps turns).phase = .finished (.ok s)) :
    (∀ c ∈ (w.steps turns).connections, c.done = true) ↔ w.strandsIn turns = false := by
  induction turns generalizing w with
  | nil =>
    rw [show w.phase = _ from hphase] at hrunning
    cases hrunning
  | cons sequence turns ih =>
    have h₁ : (w.sharing sequence).Tallies := invariant_tallies.sharing w sequence h
    have hrunning₁ : (w.sharing sequence).phase.isFinished = false := hrunning
    have h₂ := invariant_tallies.step h₁
    simp only [steps, strandsIn, Bool.or_eq_false_iff] at hphase ⊢
    cases hnext : (w.sharing sequence).step.phase.isFinished with
    | true =>
      obtain ⟨hsame, hconnections, hrest⟩ := steps_of_finished hnext turns
      rw [hsame] at hphase
      rw [hconnections, hrest, h₁.returned hrunning₁ hphase]
      simp
    | false =>
      have hstrands : (w.sharing sequence).strands = false := by
        by_contra hstrands
        rw [Bool.not_eq_false] at hstrands
        obtain ⟨s', hs'⟩ := phase_of_strands hstrands
        rw [hs'] at hnext
        cases hnext
      rw [ih h₂ hnext hphase, hstrands]
      simp

/-- A worker that returns has ended every connection that it established, unless it could not
make another one before its deadline. -/
theorem established_done (addresses : List SocketAddr) (limits : List ConnectionLimit)
    (timeout : ℕ) (tls : Bool) (world : World) (turns : List RequestSequence) {s : RunSummary}
    (hphase : ((new addresses limits timeout tls world).steps turns).phase = .finished (.ok s)) :
    (∀ c ∈ ((new addresses limits timeout tls world).steps turns).connections, c.done = true) ↔
      (new addresses limits timeout tls world).strandsIn turns = false := by
  apply Tallies.returns _ rfl turns hphase
  constructor
  · intro _ _ c hc
    cases hc
  · intro hloops
    cases hloops

def returns (w : Worker) : Bool :=
  match w.phase with
  | .finished (.ok _) => true
  | _ => false

theorem exists_of_returns (h : w.returns = true) : ∃ s, w.phase = .finished (.ok s) := by
  unfold returns at h
  split at h
  · rename_i s hphase
    exact ⟨s, hphase⟩
  · cases h

/-- A worker of a run that takes one request after the other, before its first step. -/
def fresh (limits : List ConnectionLimit) (replies : ℕ → Reply) : Worker :=
  new [{ ip := 0, port := 80 }] limits (10 ^ 9) false
    (LoadRun.worldOf (fun _ => replies) 0 0 (.inOrder [getRoot]))

theorem established_done_sample :
    ((fresh [.requests 2] fun _ => promptReply).steps
        (List.replicate 14 (.inOrder [getRoot]))).connections.length = 1 ∧
      ∀ c ∈ ((fresh [.requests 2] fun _ => promptReply).steps
        (List.replicate 14 (.inOrder [getRoot]))).connections, c.done = true := by
  have hreturns : ((fresh [.requests 2] fun _ => promptReply).steps
      (List.replicate 14 (.inOrder [getRoot]))).returns = true := by decide +kernel
  obtain ⟨s, hphase⟩ := exists_of_returns hreturns
  exact ⟨by decide +kernel, (established_done _ _ _ _ _ _ hphase).mpr (by decide +kernel)⟩

/-- One connection in time, and then only refusals, until the deadline of 1 ms is over. -/
def refusing (call : ℕ) : Reply :=
  if call < 5 then {} else { elapsed := 2000000, fault := some ⟨.other, "connection refused"⟩ }

/-- The connection that was established is dropped. -/
theorem established_dropped :
    ¬ ∀ (addresses : List SocketAddr) (limits : List ConnectionLimit) (timeout : ℕ) (tls : Bool)
      (world : World) (turns : List RequestSequence) (s : RunSummary),
      ((new addresses limits timeout tls world).steps turns).phase = .finished (.ok s) →
        ∀ c ∈ ((new addresses limits timeout tls world).steps turns).connections,
          c.done = true := by
  intro h
  have hreturns : ((fresh [.deadline 1000000, .deadline 1000000] refusing).steps
      (List.replicate 3 (.inOrder [getRoot]))).returns = true := by decide +kernel
  obtain ⟨s, hphase⟩ := exists_of_returns hreturns
  exact absurd (h _ _ _ _ _ _ s hphase) (by decide +kernel)

end Worker

end Rload
