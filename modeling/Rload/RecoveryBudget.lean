import Rload.EstablishedConnections
import Rload.RunOutcomes

/-!
# The budget of recovery attempts

In a run with a fixed number of requests each request has three attempts to recover, whichever
of the methods makes them, and the next request has three of its own. The summary counts every
attempt once.
-/

namespace Rload
open Connection

/-- The attempts for the current request, and those for each answered one, the newest first. -/
def Happening.spending : List Happening → ℕ × List ℕ
  | [] => (0, [])
  | .attempted :: history => ((spending history).1 + 1, (spending history).2)
  | .answered _ _ :: history => (0, (spending history).1 :: (spending history).2)
  | _ :: history => spending history

namespace Happening

theorem spending_attempted (n : ℕ) (history : List Happening) :
    spending (List.replicate n .attempted ++ history) =
      ((spending history).1 + n, (spending history).2) := by
  induction n with
  | zero => rfl
  | succ n ih => rw [List.replicate_succ, List.cons_append, spending, ih, Nat.add_assoc]

theorem spending_total (history : List Happening) :
    (spending history).1 + (spending history).2.sum = history.count .attempted := by
  induction history with
  | nil => rfl
  | cons h history ih =>
    rw [List.count_cons, ← ih]
    cases h with
    | attempted =>
      simp only [spending, beq_self_eq_true, if_true]
      omega
    | answered entry started =>
      simp [spending]
    | _ => simp [spending]

end Happening

namespace Connection

/-- The attempts for the current request. -/
def currentAttempts (c : Connection) : ℕ := (Happening.spending c.history).1

/-- The attempts for each of the requests that are answered. -/
def earlierAttempts (c : Connection) : List ℕ := (Happening.spending c.history).2

def attemptsMade (c : Connection) : ℕ := c.history.count .attempted

/-- The connection has given up its last requests. -/
def isAbandoned (c : Connection) : Bool := c.done && decide (0 < c.unfinishedRequests)

/-- No request has had more attempts than its budget. -/
structure Budget (c : Connection) : Prop where
  current_eq : c.currentAttempts = c.recoveryAttempts
  current_le : c.currentAttempts ≤ fixedRequestRecoveryAttempts
  earlier_le : ∀ n ∈ c.earlierAttempts, n ≤ fixedRequestRecoveryAttempts
  length_eq : c.earlierAttempts.length = c.completed

def Budgeted (c : Connection) : Prop := ∀ count, c.limit = .requests count → c.Budget

variable {c c' : Connection}

theorem attemptsMade_eq (c : Connection) :
    c.attemptsMade = c.currentAttempts + c.earlierAttempts.sum :=
  (Happening.spending_total c.history).symm

theorem Budgeted.of_same (h : c.Budgeted)
    (hspending : Happening.spending c'.history = Happening.spending c.history)
    (hused : c'.recoveryAttempts = c.recoveryAttempts) (hcompleted : c'.completed = c.completed)
    (hlimit : c'.limit = c.limit) : c'.Budgeted := by
  intro count hcount
  obtain ⟨heq, hle, hearlier, hlength⟩ := h count (hlimit ▸ hcount)
  refine ⟨?_, ?_, ?_, ?_⟩
  · rw [currentAttempts, hspending, hused]
    exact heq
  · rw [currentAttempts, hspending]
    exact hle
  · rw [earlierAttempts, hspending]
    exact hearlier
  · rw [earlierAttempts, hspending, hcompleted]
    exact hlength

theorem spending_hear (data : List UInt8) (eof : Bool) (c : Connection) :
    Happening.spending (c.hear data eof).history = Happening.spending c.history := by
  rw [hear]
  split <;> rfl

theorem Budgeted.attempts {tried made limited : ℕ} (h : c.Budgeted)
    (hspends : Spends c tried made limited) : (attempts tried made limited c).Budgeted := by
  intro count hcount
  obtain ⟨heq, hle, hearlier, hlength⟩ := h count hcount
  obtain ⟨-, rfl, hwithin⟩ := hspends count hcount
  have hspending := Happening.spending_attempted limited c.history
  have hcurrent : (Connection.attempts limited made limited c).currentAttempts =
      c.currentAttempts + limited := congrArg Prod.fst hspending
  have hsame : (Connection.attempts limited made limited c).earlierAttempts =
      c.earlierAttempts := by
    have hsnd := congrArg Prod.snd hspending
    exact hsnd
  refine ⟨?_, ?_, hsame ▸ hearlier, hsame ▸ hlength⟩
  · rw [hcurrent, heq]
    rfl
  · rw [hcurrent]
    cases hwithin with
    | inl hzero => omega
    | inr hwithin => omega

theorem Budgeted.complete (h : c.Budgeted) : (complete c).Budgeted := by
  intro count hcount
  obtain ⟨heq, hle, hearlier, hlength⟩ := h count hcount
  refine ⟨rfl, Nat.zero_le _, List.forall_mem_cons.mpr ⟨hle, hearlier⟩, ?_⟩
  exact congrArg (· + 1) hlength

theorem Budgeted.hear (h : c.Budgeted) (data : List UInt8) (eof : Bool) :
    (c.hear data eof).Budgeted := by
  have hread := readFrame_hear data eof c
  exact h.of_same (spending_hear data eof c) (congrArg (·.recoveryAttempts) hread)
    (congrArg (·.completed) hread) (congrArg (·.limit) hread)

theorem invariant_budgeted : Invariant fun _ c => c.Budgeted where
  time _ _ _ _ h := h
  move t c c' h hmove := by
    cases hmove with
    | hear data eof => exact h.hear data eof
    | awaitPace =>
      rw [awaitPace]
      split
      · exact h
      · exact h.of_same rfl rfl rfl rfl
    | begin =>
      rw [begin]
      split
      · exact h.of_same rfl rfl rfl rfl
      · exact h.of_same rfl rfl rfl rfl
    | attempts hspends => exact h.attempts hspends
    | opened hassign =>
      cases hassign with
      | next => exact h.of_same rfl rfl rfl rfl
      | retry => exact h.of_same rfl rfl rfl rfl
      | recover => exact h.of_same rfl rfl rfl rfl
      | resume => exact h.of_same rfl rfl rfl rfl
    | answer => exact (h.hear _ _).complete
    | _ => exact h.of_same rfl rfl rfl rfl
  connected _ _ _ _ _ _ := fun _ _ =>
    ⟨rfl, Nat.zero_le _, fun _ hn => absurd hn List.not_mem_nil, rfl⟩

theorem attemptsMade_hear (data : List UInt8) (eof : Bool) (c : Connection) :
    (c.hear data eof).attemptsMade = c.attemptsMade := by
  rw [attemptsMade_eq, attemptsMade_eq, currentAttempts, earlierAttempts, spending_hear]
  rfl

theorem Reads.attemptsMade_eq (h : Reads c c') : c'.attemptsMade = c.attemptsMade := by
  induction h with
  | refl => rfl
  | hear _ hgoes ih => exact (attemptsMade_hear _ _ _).trans ih

theorem Exchange.attemptsMade_eq {t t' : ℕ} (h : Exchange t t' c c') :
    c'.attemptsMade = c.attemptsMade := by
  induction h with
  | refl => rfl
  | later _ hle ih => exact ih
  | awaitPace _ hpace hearly ih =>
    rw [← ih, Connection.awaitPace]
    split <;> rfl
  | begin _ hpace ih =>
    rw [← ih, Connection.begin]
    split
    · exact List.count_cons_of_ne (by simp)
    · rfl
  | advance _ hstarted hpos hle ih =>
    rw [← ih]
    exact List.count_cons_of_ne (by simp)
  | watch _ interest ih => exact ih

theorem attemptsMade_attempts (tried made limited : ℕ) (c : Connection) :
    (attempts tried made limited c).attemptsMade = c.attemptsMade + tried := by
  rw [attemptsMade, attempts, List.count_append, List.count_replicate_self, Nat.add_comm]
  rfl

theorem ComesBack.attempts {assign : Connection → Connection} {k : ℕ} {w w' : World}
    {c c' : Connection} (h : ComesBack assign k w c c' w')
    (hassign : assign = toRetry ∨ assign = toRecover) :
    ∃ tried made limited, Spends c tried made limited ∧
      c'.pendingRecoveryAttempts = c.pendingRecoveryAttempts + made ∧
      c'.attemptsMade = c.attemptsMade + tried := by
  obtain ⟨tried, made, limited, htries, addressIndex, now, -, -, rfl⟩ := h.reopens
  have hattempts := attemptsMade_attempts tried made limited (c.watch none)
  refine ⟨tried, made, limited, htries.spends, ?_⟩
  cases hassign with
  | inl h =>
    subst h
    refine ⟨rfl, Eq.trans ?_ hattempts⟩
    exact (List.count_cons_of_ne (by simp)).trans (List.count_cons_of_ne (by simp))
  | inr h =>
    subst h
    refine ⟨rfl, Eq.trans ?_ hattempts⟩
    exact (List.count_cons_of_ne (by simp)).trans (List.count_cons_of_ne (by simp))

theorem Answers.attemptsMade_eq {t : ℕ} {c c' : Connection} {response : CompletedResponse}
    (h : Answers t c c' response) : (complete c').attemptsMade = c.attemptsMade := by
  cases h with
  | @mk c' h data eof hdata parsed hdecoded =>
    have hcomplete : (complete (c'.hear data eof)).attemptsMade = (c'.hear data eof).attemptsMade :=
      List.count_cons_of_ne (by simp)
    exact hcomplete.trans ((attemptsMade_hear data eof c').trans h.attemptsMade_eq)

theorem GoesOn.attemptsMade_eq {drawn : Drawn} {w w' : World} {c c' : Connection}
    (h : GoesOn drawn w c c' w') : c'.attemptsMade = (complete c).attemptsMade := by
  have hturned : (turned drawn c).attemptsMade = (complete c).attemptsMade :=
    (List.count_cons_of_ne (by simp)).trans (List.count_cons_of_ne (by simp))
  rw [← hturned]
  cases h with
  | reopened h =>
    obtain ⟨addressIndex, now, -, -, rfl⟩ := h
    exact List.count_cons_of_ne (by simp)
  | reused h => exact h.attemptsMade_eq

theorem GoesOn.pendingRecoveryAttempts_eq {drawn : Drawn} {w w' : World} {c c' : Connection}
    (h : GoesOn drawn w c c' w') : c'.pendingRecoveryAttempts = c.pendingRecoveryAttempts := by
  cases h with
  | reopened h =>
    obtain ⟨addressIndex, now, -, -, rfl⟩ := h
    rfl
  | reused h => exact congrArg (·.pendingRecoveryAttempts) h.kept

/-- A connection that has left has used its budget up, or has answered all its requests and
made no attempt since. -/
def Closed (c : Connection) : Prop :=
  if 0 < c.unfinishedRequests then c.recoveryAttempts = fixedRequestRecoveryAttempts
  else c.recoveryAttempts = 0

end Connection

namespace Desk

variable {token timeout : ℕ} {n : FailureCounts} {allowed : Counter → Prop} {d d₁ d' : Desk}

/-- What a connection owes the summary is paid, and the summary counts what it did. -/
structure Pays (d d' : Desk) : Prop where
  pending_eq : d'.connection.pendingRecoveryAttempts = 0
  attempts_eq : d'.summary.recoveryAttempts + d.connection.attemptsMade =
    d.summary.recoveryAttempts + d'.connection.attemptsMade
  completed_eq : d'.summary.completed + d.connection.completed =
    d.summary.completed + d'.connection.completed
  closed : d'.connection.done = true → d'.connection.Closed

theorem Touches.attemptsMade_eq (h : Touches d n d₁) :
    d₁.connection.attemptsMade = d.connection.attemptsMade := by
  induction h with
  | refl => rfl
  | exchange _ hx hw ih => exact hx.attemptsMade_eq.trans ih
  | read _ hr hw ih => exact hr.attemptsMade_eq.trans ih

theorem Touches.recoveryAttempts_eq (h : Touches d n d₁) :
    d₁.summary.recoveryAttempts = d.summary.recoveryAttempts :=
  congrArg (·.recoveryAttempts) h.summary_eq

/-- The desk after a turn that neither tries to recover nor answers. -/
theorem pays_of_same (h : Touches d n d₁) (hopen : d.connection.done = false)
    (hpending : d.connection.pendingRecoveryAttempts = 0)
    (hprogress : d'.connection.progress = d₁.connection.progress)
    (howed : d'.connection.pendingRecoveryAttempts = d₁.connection.pendingRecoveryAttempts)
    (hattempts : d'.connection.attemptsMade = d₁.connection.attemptsMade)
    (hsummary : d'.summary.recoveryAttempts = d₁.summary.recoveryAttempts)
    (hcompleted : d'.summary.completed = d₁.summary.completed) : Pays d d' := by
  have hpending₁ := (congrArg (·.pendingRecoveryAttempts) h.kept).trans hpending
  have hprogress' := hprogress.trans h.progress_eq
  refine ⟨howed.trans hpending₁, ?_, ?_, fun hdone => ?_⟩
  · rw [hsummary, h.recoveryAttempts_eq, hattempts, h.attemptsMade_eq]
  · rw [hcompleted, h.completed_eq]
    exact congrArg _ (congrArg Progress.completed hprogress').symm
  · have hstill := (congrArg Progress.done hprogress').trans hopen
    rw [show d'.connection.done = false from hstill] at hdone
    cases hdone

theorem Settles.pays (h : Settles token timeout allowed d d') (hopen : d.connection.done = false)
    (hc : d.connection.progress.OnCourse) (hbudget : d.connection.Budgeted)
    (hpending : d.connection.pendingRecoveryAttempts = 0) : Pays d d' := by
  obtain ⟨count, hlimit, hbelow⟩ := hc
  have hlimit : d.connection.limit = .requests count := hlimit
  cases h with
  | @cameBack d₁ c w k counter f assign h hallowed hf hassign hback hw =>
    have hlimit₁ : d₁.connection.limit = .requests count :=
      (congrArg Progress.limit h.progress_eq).trans hlimit
    have hpending₁ : d₁.connection.pendingRecoveryAttempts = 0 :=
      (congrArg (·.pendingRecoveryAttempts) h.kept).trans hpending
    obtain ⟨tried, made, limited, hspends, howed, hmade⟩ := hback.attempts hassign
    obtain ⟨rfl, -, -⟩ := hspends count hlimit₁
    have hprogress := hback.progress_eq hassign
    rw [h.progress_eq] at hprogress
    refine ⟨rfl, ?_, ?_, fun hdone => ?_⟩
    · have hsum : d₁.summary.recoveryAttempts + c.pendingRecoveryAttempts +
          d.connection.attemptsMade = d.summary.recoveryAttempts + c.attemptsMade := by
        rw [howed, hmade, hpending₁, h.recoveryAttempts_eq, h.attemptsMade_eq]
        omega
      exact hsum
    · have hcompleted : c.completed = d.connection.completed :=
        congrArg Progress.completed hprogress
      have hsum : d₁.summary.completed + d.connection.completed =
          d.summary.completed + c.completed := by
        rw [h.completed_eq, hcompleted]
      exact hsum
    · have hstill : c.done = false := (congrArg Progress.done hprogress).trans hopen
      rw [show c.done = true from hdone] at hstill
      cases hstill
  | @gaveUp d₁ c w k counter f h hallowed hf hup hw =>
    obtain ⟨-, rfl, hused, hwithin⟩ := hup
    have hless := hbelow hopen
    have hkept := h.kept
    have hlimit₁ : d₁.connection.limit = .requests count :=
      (congrArg Progress.limit h.progress_eq).trans hlimit
    have hpending₁ : d₁.connection.pendingRecoveryAttempts = 0 :=
      (congrArg (·.pendingRecoveryAttempts) hkept).trans hpending
    have hcompleted₁ : d₁.connection.completed = d.connection.completed :=
      congrArg (·.completed) hkept
    have hused₁ : d₁.connection.recoveryAttempts = d.connection.recoveryAttempts :=
      congrArg (·.recoveryAttempts) hkept
    refine ⟨rfl, ?_, ?_, fun _ => ?_⟩
    · have hmade := attemptsMade_attempts k k k (d₁.connection.watch none)
      have hsum : d₁.summary.recoveryAttempts + (d₁.connection.pendingRecoveryAttempts + k) +
          d.connection.attemptsMade = d.summary.recoveryAttempts +
            (Connection.attempts k k k (d₁.connection.watch none)).attemptsMade := by
        rw [hmade, hpending₁, h.recoveryAttempts_eq]
        have hwatch : (d₁.connection.watch none).attemptsMade = d.connection.attemptsMade :=
          h.attemptsMade_eq
        omega
      exact hsum
    · have hsum : d₁.summary.completed + d.connection.completed =
          d.summary.completed + d₁.connection.completed := by
        rw [h.completed_eq, hcompleted₁]
      exact hsum
    · have hunfinished : 0 < unfinishedRequests (clearRecoveryAttempts (finish
          (Connection.attempts k k k (d₁.connection.watch none)))) := by
        have heq : unfinishedRequests (clearRecoveryAttempts (finish
            (Connection.attempts k k k (d₁.connection.watch none)))) =
            d₁.connection.unfinishedRequests := rfl
        rw [heq, unfinishedRequests_eq, hlimit₁, hcompleted₁]
        exact Nat.sub_pos_of_lt hless
      have hle := (hbudget count hlimit).current_le
      rw [(hbudget count hlimit).current_eq] at hle
      have hfull : d₁.connection.recoveryAttempts + k = fixedRequestRecoveryAttempts := by
        rw [hused₁] at hused hwithin ⊢
        omega
      have hclosed : Connection.Closed (clearRecoveryAttempts (finish
          (Connection.attempts k k k (d₁.connection.watch none)))) := by
        rw [Closed, if_pos hunfinished]
        exact hfull
      exact hclosed
  | ranOut h hallowed hf htime hw =>
    have hlimit₁ := (congrArg Progress.limit h.progress_eq).trans hlimit
    exact absurd (htime.symm.trans hlimit₁) (by simp)
  | stopped h hstop hw =>
    have hlimit₁ := (congrArg Progress.limit h.progress_eq).trans hlimit
    have hcompleted₁ := congrArg Progress.completed h.progress_eq
    have hreached := hstop.reached count hlimit₁
    have hless := hbelow hopen
    simp only [progress] at hcompleted₁ hless
    omega

theorem Turn.pays (h : Turn token timeout d d') (hopen : d.connection.done = false)
    (hc : d.connection.progress.OnCourse) (hbudget : d.connection.Budgeted)
    (hpending : d.connection.pendingRecoveryAttempts = 0) : Pays d d' := by
  cases h with
  | rested h => exact pays_of_same h hopen hpending rfl rfl rfl rfl rfl
  | begun h => exact pays_of_same h hopen hpending rfl rfl rfl rfl rfl
  | deferred h hf hstarted hpace hw => exact pays_of_same h hopen hpending rfl rfl rfl rfl rfl
  | settled h => exact h.pays hopen hc hbudget hpending
  | @answeredLast c₁ w₁ w response uri hanswer hw₁ huri hw hlast =>
    obtain ⟨count, hlimit, -⟩ := hc
    have hframe := frame_of_readFrame hanswer.kept
    have hcompleted : c₁.completed = d.connection.completed := congrArg (·.completed) hframe
    refine ⟨(congrArg (·.pendingRecoveryAttempts) hframe).trans hpending, ?_, ?_, fun _ => ?_⟩
    · have hmade : (complete c₁).attemptsMade = d.connection.attemptsMade :=
        hanswer.attemptsMade_eq
      have hsum : d.summary.recoveryAttempts + d.connection.attemptsMade =
          d.summary.recoveryAttempts + (complete c₁).attemptsMade := by rw [hmade]
      exact hsum
    · have hsum : d.summary.completed + 1 + d.connection.completed =
          d.summary.completed + (c₁.completed + 1) := by omega
      exact hsum
    · have hunfinished :
          ¬ 0 < unfinishedRequests ((finish (complete c₁.clearReadBytes)).watch none) := by
        have heq : ((finish (complete c₁.clearReadBytes)).watch none).limit = .requests count :=
          (congrArg (·.limit) hframe).trans hlimit
        have hafter : ((finish (complete c₁.clearReadBytes)).watch none).completed =
            d.connection.completed + 1 := congrArg (· + 1) hcompleted
        have hreached := hlast count hlimit
        rw [unfinishedRequests_eq, heq, hafter, ConnectionLimit.requests?, Option.getD_some]
        omega
      have hclosed : Connection.Closed ((finish (complete c₁.clearReadBytes)).watch none) := by
        rw [Closed, if_neg hunfinished]
        rfl
      exact hclosed
  | @answeredNext c₁ c w₁ w response uri drawn hanswer hw₁ huri hw hon hmore =>
    have hread : c₁.clearReadBytes.progress = d.connection.progress :=
      progress_of_frame (frame_of_readFrame hanswer.kept)
    have hprogress := hon.progress_eq
    rw [hread] at hprogress
    have hcompleted : c.completed = d.connection.completed + 1 :=
      congrArg Progress.completed hprogress
    have hmade : c.attemptsMade = d.connection.attemptsMade :=
      hon.attemptsMade_eq.trans hanswer.attemptsMade_eq
    refine ⟨?_, ?_, ?_, fun hdone => ?_⟩
    · have howed : c₁.pendingRecoveryAttempts = 0 :=
        (congrArg (·.pendingRecoveryAttempts) hanswer.kept).trans hpending
      exact hon.pendingRecoveryAttempts_eq.trans howed
    · have hsum : d.summary.recoveryAttempts + d.connection.attemptsMade =
          d.summary.recoveryAttempts + c.attemptsMade := by rw [hmade]
      exact hsum
    · have hsum : d.summary.completed + 1 + d.connection.completed =
          d.summary.completed + c.completed := by omega
      exact hsum
    · have hstill : c.done = false := (congrArg Progress.done hprogress).trans hopen
      rw [show c.done = true from hdone] at hstill
      cases hstill
  | @resumed c w hre hopened hw =>
    obtain ⟨addressIndex, now, -, -, rfl⟩ := hopened
    have hmade : (reopened toResume addressIndex now d.connection).attemptsMade =
        d.connection.attemptsMade :=
      (List.count_cons_of_ne (by simp)).trans (List.count_cons_of_ne (by simp))
    exact pays_of_same .refl hopen hpending rfl rfl hmade rfl rfl

theorem Pays.trans (h : Pays d d₁) (h' : Pays d₁ d') : Pays d d' where
  pending_eq := h'.pending_eq
  attempts_eq := by
    have hfirst := h.attempts_eq
    have hsecond := h'.attempts_eq
    omega
  completed_eq := by
    have hfirst := h.completed_eq
    have hsecond := h'.completed_eq
    omega
  closed := h'.closed

/-- The connection of the desk has a fixed limit, is within its budget and owes nothing. -/
structure Solvent (d : Desk) : Prop where
  onCourse : d.connection.progress.OnCourse
  budgeted : d.connection.Budgeted
  pending_eq : d.connection.pendingRecoveryAttempts = 0

theorem Solvent.turn (h : d.Solvent) (hturn : Turn token timeout d d')
    (hopen : d.connection.done = false) : Pays d d' ∧ d'.Solvent := by
  have hpays := hturn.pays hopen h.onCourse h.budgeted h.pending_eq
  refine ⟨hpays, (hturn.balances hopen h.onCourse).onCourse, ?_, hpays.pending_eq⟩
  exact hturn.moves.keeps invariant_budgeted.time invariant_budgeted.move h.budgeted

theorem Solvent.settles (h : d.Solvent) (hsettles : Settles token timeout allowed d d')
    (hopen : d.connection.done = false) : Pays d d' ∧ d'.Solvent := by
  have hpays := hsettles.pays hopen h.onCourse h.budgeted h.pending_eq
  refine ⟨hpays, (hsettles.balances hopen h.onCourse).onCourse, ?_, hpays.pending_eq⟩
  exact hsettles.moves.keeps invariant_budgeted.time invariant_budgeted.move h.budgeted

theorem Solvent.turns (h : d.Solvent) (hturns : Turns token timeout d d') :
    d' = d ∨ Pays d d' ∧ d'.Solvent := by
  induction hturns with
  | refl => exact Or.inl rfl
  | tail _ hturn ih =>
    obtain ⟨hopen, hturn⟩ := hturn
    cases ih with
    | inl heq =>
      subst heq
      exact Or.inr (h.turn hturn hopen)
    | inr hsofar =>
      obtain ⟨hpays, hsolvent⟩ := hsofar
      obtain ⟨hpays', hsolvent'⟩ := hsolvent.turn hturn hopen
      exact Or.inr ⟨hpays.trans hpays', hsolvent'⟩

end Desk

namespace Worker

/-- The books of a worker with fixed limits: its connections owe nothing, and its summary
counts what they did. -/
structure Ledger (w : Worker) : Prop where
  pending_fixed : ∀ limit ∈ w.phase.pending, ∃ count, limit = .requests count ∧ 0 < count
  solvent : ∀ c ∈ w.connections, (w.desk c).Solvent
  closed : ∀ c ∈ w.connections, c.done = true → c.Closed
  attempts_eq : w.summary.recoveryAttempts = (w.connections.map attemptsMade).sum
  completed_eq : w.summary.completed = (w.connections.map (·.completed)).sum
  allDone : ∀ s, w.phase = .finished (.ok s) → ∀ c ∈ w.connections, c.done = true

variable {w w₁ w' : Worker}

theorem Ledger.starting (h : w.Ledger)
    (hpending : ∀ limit ∈ w'.phase.pending, limit ∈ w.phase.pending)
    (hconnections : w'.connections = w.connections)
    (hattempts : w'.summary.recoveryAttempts = w.summary.recoveryAttempts)
    (hcompleted : w'.summary.completed = w.summary.completed)
    (hreturns : w'.returns = false) : w'.Ledger where
  pending_fixed limit hlimit := h.pending_fixed limit (hpending limit hlimit)
  solvent c hc := by
    obtain ⟨honCourse, hbudgeted, hpaid⟩ := h.solvent c (hconnections ▸ hc)
    exact ⟨honCourse, hbudgeted, hpaid⟩
  closed := hconnections ▸ h.closed
  attempts_eq := by rw [hattempts, hconnections, h.attempts_eq]
  completed_eq := by rw [hcompleted, hconnections, h.completed_eq]
  allDone s hs := by
    rw [returns, hs] at hreturns
    cases hreturns

theorem Ledger.idles {P : Timer → Prop} (h : w.Ledger) (hidles : Idles P w w₁) : w₁.Ledger := by
  apply h.starting _ hidles.connections_eq
  · rw [hidles.summary_eq]
  · rw [hidles.summary_eq]
  · have hloops := hidles.loops_after
    unfold returns
    split
    · rename_i s hs
      rw [hs] at hloops
      cases hloops
    · rfl
  · rw [pending_of_loops hidles.loops_after]
    exact fun limit hlimit => absurd hlimit List.not_mem_nil

theorem Ledger.turn {token : ℕ} {c : Connection} {d : Desk} (h : w.Ledger)
    (hloops : w.phase.loops = true) (hc : w.connections[token]? = some c)
    (hpays : Desk.Pays (w.desk c) d) (hsolvent : d.Solvent) : (w.withDesk token d).Ledger where
  pending_fixed := h.pending_fixed
  solvent := by
    intro c' hc'
    cases List.mem_or_eq_of_mem_set hc' with
    | inl hmem =>
      obtain ⟨honCourse, hbudgeted, hpaid⟩ := h.solvent c' hmem
      exact ⟨honCourse, hbudgeted, hpaid⟩
    | inr heq =>
      obtain ⟨honCourse, hbudgeted, hpaid⟩ := hsolvent
      exact heq ▸ ⟨honCourse, hbudgeted, hpaid⟩
  closed := by
    intro c' hc'
    cases List.mem_or_eq_of_mem_set hc' with
    | inl hmem => exact h.closed c' hmem
    | inr heq => exact heq ▸ hpays.closed
  attempts_eq := by
    have hsum := SharedResource.sum_set attemptsMade hc d.connection
    have hdesk := hpays.attempts_eq
    have htotal := h.attempts_eq
    simp only [withDesk, desk] at hsum hdesk htotal ⊢
    omega
  completed_eq := by
    have hsum := SharedResource.sum_set (fun c => c.completed) hc d.connection
    have hdesk := hpays.completed_eq
    have htotal := h.completed_eq
    simp only [withDesk, desk] at hsum hdesk htotal ⊢
    omega
  allDone s hs := by
    rw [show w.phase = _ from hs] at hloops
    cases hloops

/-- A connection that was just opened owes nothing. -/
theorem Ledger.connected {limit : ConnectionLimit} {limits : List ConnectionLimit}
    {attempts addressIndex now : ℕ} {drawn : Drawn} {world : World} (h : w.Ledger)
    (hphase : w.phase = .starting (limit :: limits) attempts) :
    Ledger { w with
      connections := w.connections ++ [(Connection.connected w.addresses limit w.tls drawn
        addressIndex now).watch (some ⟨true⟩)]
      world := world
      phase := .starting limits 0 } := by
  have hpending := h.pending_fixed
  rw [hphase] at hpending
  obtain ⟨count, rfl, hpos⟩ := hpending _ List.mem_cons_self
  have hnew : ∀ c ∈ w.connections ++ [(Connection.connected w.addresses (.requests count) w.tls
      drawn addressIndex now).watch (some ⟨true⟩)], c ∈ w.connections ∨
      c = (Connection.connected w.addresses (.requests count) w.tls drawn addressIndex
        now).watch (some ⟨true⟩) := by
    intro c hc
    exact (List.mem_append.mp hc).imp id List.mem_singleton.mp
  refine ⟨?_, fun c hc => ?_, fun c hc hdone => ?_, ?_, ?_, fun s hs => by cases hs⟩
  · exact fun limit hlimit => hpending limit (List.mem_cons_of_mem _ hlimit)
  · cases hnew c hc with
    | inl hmem =>
      obtain ⟨honCourse, hbudgeted, hpaid⟩ := h.solvent c hmem
      exact ⟨honCourse, hbudgeted, hpaid⟩
    | inr heq =>
      subst heq
      have hfirst := invariant_budgeted.connected w.addresses (.requests count) w.tls drawn
        addressIndex now
      exact ⟨⟨count, rfl, fun _ => hpos⟩, hfirst.of_same rfl rfl rfl rfl, rfl⟩
  · cases hnew c hc with
    | inl hmem => exact h.closed c hmem hdone
    | inr heq =>
      subst heq
      cases hdone
  · have hsum := h.attempts_eq
    simp only [List.map_append, List.sum_append]
    exact hsum
  · have hsum := h.completed_eq
    simp only [List.map_append, List.sum_append]
    exact hsum

/-- The loop ends when all connections are done. -/
theorem Ledger.ended (h : w.Ledger) (htallies : w.Tallies) (hphase : w.phase = .polling)
    (hactive : w.active = 0) : Ledger (w.goTo (.finished (.ok w.summary))) := by
  refine ⟨fun limit hlimit => absurd hlimit List.not_mem_nil, fun c hc => ?_, h.closed,
    h.attempts_eq, h.completed_eq, fun _ _ => ?_⟩
  · obtain ⟨honCourse, hbudgeted, hpaid⟩ := h.solvent c hc
    exact ⟨honCourse, hbudgeted, hpaid⟩
  · apply sum_active_eq_zero.mp
    rw [← hactive]
    exact (htallies.active_eq (by rw [hphase]; rfl)).symm

theorem invariant_ledger : Invariant fun w => w.Tallies ∧ w.Ledger where
  sharing w sequence h := by
    obtain ⟨htallies, hledger⟩ := h
    refine ⟨invariant_tallies.sharing w sequence htallies, ?_⟩
    refine ⟨hledger.pending_fixed, fun c hc => ?_, hledger.closed, hledger.attempts_eq,
      hledger.completed_eq, hledger.allDone⟩
    obtain ⟨honCourse, hbudgeted, hpaid⟩ := hledger.solvent c hc
    exact ⟨honCourse, hbudgeted, hpaid⟩
  move w w' hrunning h hmove := by
    refine ⟨invariant_tallies.move w w' hrunning h.1 hmove, ?_⟩
    obtain ⟨htallies, h⟩ := h
    cases hmove with
    | halted hhalts =>
      apply h.starting _ hhalts.connections_eq
      · rw [hhalts.summary_eq]
      · rw [hhalts.summary_eq]
      · rw [returns, hhalts.phase_eq]
      · rw [hhalts.phase_eq]
        exact fun limit hlimit => absurd hlimit List.not_mem_nil
    | opened hphase =>
      refine h.starting ?_ rfl rfl rfl rfl
      rw [hphase]
      exact fun limit hlimit => hlimit
    | connected hphase => exact h.connected hphase
    | refused hphase =>
      refine h.starting ?_ rfl rfl rfl rfl
      rw [hphase]
      exact fun limit hlimit => hlimit
    | gaveUp hphase =>
      refine h.starting ?_ rfl rfl rfl rfl
      rw [hphase]
      exact fun limit hlimit => List.mem_cons_of_mem _ hlimit
    | ranOut hphase =>
      have hpending := h.pending_fixed
      rw [hphase] at hpending
      obtain ⟨count, hcount, -⟩ := hpending _ List.mem_cons_self
      cases hcount
    | entered hphase =>
      exact h.starting (fun limit hlimit => absurd hlimit List.not_mem_nil) rfl rfl rfl rfl
    | ended hphase hactive => exact h.ended htallies hphase hactive
    | idled hidles => exact h.idles hidles
    | handled hidles hc hturns =>
      have h₁ := h.idles hidles
      cases (h₁.solvent _ (List.mem_of_getElem? hc)).turns hturns with
      | inl heq =>
        subst heq
        rw [withDesk_desk hc]
        exact h₁
      | inr hpays => exact h₁.turn hidles.loops_after hc hpays.1 hpays.2
    | expired hidles hphase ht hdue htoken hgeneration hc hdone hsettles =>
      have h₁ := h.idles hidles
      obtain ⟨hpays, hsolvent⟩ := (h₁.solvent _ (List.mem_of_getElem? hc)).settles hsettles hdone
      exact h₁.turn hidles.loops_after hc hpays hsolvent

end Worker

theorem sum_le_mul {α : Type} {f g : α → ℕ} {k : ℕ} {l : List α}
    (h : ∀ a ∈ l, f a ≤ k * g a) : (l.map f).sum ≤ k * (l.map g).sum := by
  rw [← List.sum_map_mul_left]
  exact List.sum_le_sum h

theorem countP_eq_sum {α : Type} (p : α → Bool) (l : List α) :
    l.countP p = (l.map fun a => if p a then 1 else 0).sum := by
  induction l with
  | nil => rfl
  | cons a l ih => rw [List.countP_cons, List.map_cons, List.sum_cons, ih, Nat.add_comm]

theorem Connection.attemptsMade_le {c : Connection} (hbudget : c.Budget) (hdone : c.done = true)
    (hclosed : c.Closed) :
    c.attemptsMade ≤ fixedRequestRecoveryAttempts *
      (c.completed + if c.isAbandoned then 1 else 0) := by
  have hearlier : c.earlierAttempts.sum ≤ c.completed * fixedRequestRecoveryAttempts := by
    rw [← hbudget.length_eq]
    exact List.sum_le_card_nsmul _ _ hbudget.earlier_le
  have hcurrent := hbudget.current_eq
  have hle := hbudget.current_le
  rw [attemptsMade_eq, Nat.mul_add, Nat.mul_comm _ c.completed]
  unfold Closed at hclosed
  by_cases hunfinished : 0 < c.unfinishedRequests
  · have habandoned : c.isAbandoned = true := by simp [isAbandoned, hdone, hunfinished]
    rw [habandoned, if_pos rfl]
    omega
  · rw [if_neg hunfinished] at hclosed
    omega

namespace LoadRun

/-- The attempts of all connections. -/
def attemptsMade (r : LoadRun) : ℕ :=
  (r.components.map fun w => (w.connections.map Connection.attemptsMade).sum).sum

def abandonedConnections (r : LoadRun) : ℕ :=
  (r.components.map fun w => w.connections.countP isAbandoned).sum

end LoadRun

theorem additive_recoveryAttempts : RunSummary.Additive (·.recoveryAttempts) :=
  ⟨rfl, fun _ _ => rfl, fun _ _ => rfl⟩

theorem additive_completed : RunSummary.Additive (·.completed) :=
  ⟨rfl, fun _ _ => rfl, fun _ _ => rfl⟩

theorem Worker.Ledger.attempts_le {w : Worker} (h : w.Ledger)
    (hdone : ∀ c ∈ w.connections, c.done = true) :
    w.summary.recoveryAttempts ≤ fixedRequestRecoveryAttempts *
      (w.summary.completed + w.connections.countP isAbandoned) := by
  have hall : ∀ c ∈ w.connections, c.attemptsMade ≤ fixedRequestRecoveryAttempts *
      (c.completed + if c.isAbandoned then 1 else 0) := by
    intro c hc
    obtain ⟨⟨count, hlimit, -⟩, hbudgeted, -⟩ := h.solvent c hc
    exact attemptsMade_le (hbudgeted count hlimit) (hdone c hc) (h.closed c hc (hdone c hc))
  rw [h.attempts_eq, h.completed_eq, countP_eq_sum, ← List.sum_map_add]
  exact sum_le_mul hall

namespace RunInput

variable (input : RunInput)

theorem ledger (hpos : ∀ limits ∈ input.limits, ∀ limit ∈ limits,
      ∃ count, limit = .requests count ∧ 0 < count) (schedule : List ℕ) :
    ∀ w ∈ (input.after schedule).components, w.Ledger := by
  have hall := input.forall_worker Worker.invariant_ledger
    (fun limits hlimits worker => ?_) schedule
  · exact fun w hw => (hall w hw).2
  · refine ⟨⟨fun _ _ c hc => ?_, fun hloops => ?_⟩, ?_⟩
    · cases hc
    · cases hloops
    · exact ⟨hpos limits hlimits, fun c hc => absurd hc List.not_mem_nil,
        fun c hc => absurd hc List.not_mem_nil, rfl, rfl, fun s hs => by cases hs⟩

/-- In a run with a fixed number of requests no request has more than three attempts to
recover, a connection gives up only when its request has had them all, and the summary of the
run counts the attempts of all connections. -/
theorem recovery_limited {n : ℕ} (hvalid : input.prepared.config.validate = .ok ())
    (hlimit : input.prepared.config.limit = .requests n) (schedule : List ℕ) :
    (∀ w ∈ (input.after schedule).components, ∀ c ∈ w.connections, c.Budget ∧
      (c.isAbandoned = true → c.currentAttempts = fixedRequestRecoveryAttempts)) ∧
    ∀ summary, (input.after schedule).outcome input.prepared = some (.ok summary) →
      summary.recoveryAttempts = (input.after schedule).attemptsMade ∧
      summary.recoveryAttempts ≤ fixedRequestRecoveryAttempts *
        (summary.completed + (input.after schedule).abandonedConnections) := by
  have hledger := input.ledger (limits_pos hvalid hlimit) schedule
  refine ⟨fun w hw c hc => ?_, fun summary houtcome => ?_⟩
  · obtain ⟨⟨count, hcount, -⟩, hbudgeted, -⟩ := (hledger w hw).solvent c hc
    have hbudget := hbudgeted count hcount
    refine ⟨hbudget, fun habandoned => ?_⟩
    rw [isAbandoned, Bool.and_eq_true, decide_eq_true_eq] at habandoned
    have hclosed := (hledger w hw).closed c hc habandoned.1
    rw [Closed, if_pos habandoned.2] at hclosed
    exact hbudget.current_eq.trans hclosed
  · obtain ⟨hattempts, hreturned⟩ := input.outcome_sum additive_recoveryAttempts schedule houtcome
    obtain ⟨hcompleted, -⟩ := input.outcome_sum additive_completed schedule houtcome
    rw [hattempts, hcompleted]
    constructor
    · rw [LoadRun.attemptsMade, List.map_congr_left fun w hw => (hledger w hw).attempts_eq]
    · rw [LoadRun.abandonedConnections, ← List.sum_map_add]
      apply sum_le_mul
      intro w hw
      obtain ⟨s, hs⟩ := hreturned w hw
      exact (hledger w hw).attempts_le ((hledger w hw).allDone s hs)

/-- Two requests on one connection, which the server closes before it answers the first. -/
def flakyRun : RunInput :=
  plain (.requests 2) 1 (.inOrder [getRoot]) none fun call =>
    if call < 12 then { promptReply with reads := [.ok []] } else promptReply

theorem recovery_limited_sample :
    ∃ summary, (flakyRun.after (List.replicate 19 0)).outcome flakyRun.prepared =
        some (.ok summary) ∧ summary.recoveryAttempts = 1 ∧
      summary.recoveryAttempts ≤ fixedRequestRecoveryAttempts * (summary.completed + 0) := by
  have hreturns : (flakyRun.after (List.replicate 19 0)).returns flakyRun.prepared = true := by
    decide +kernel
  obtain ⟨summary, h⟩ := LoadRun.exists_of_returns hreturns
  obtain ⟨hattempts, hle⟩ := (recovery_limited flakyRun rfl rfl _).2 summary h
  have hone : (flakyRun.after (List.replicate 19 0)).attemptsMade = 1 := by decide +kernel
  have hnone : (flakyRun.after (List.replicate 19 0)).abandonedConnections = 0 := by
    decide +kernel
  rw [hnone] at hle
  exact ⟨summary, h, hattempts.trans hone, hle⟩

end RunInput

end Rload
