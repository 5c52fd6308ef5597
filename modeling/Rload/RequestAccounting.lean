import Rload.LimitSplit
import Rload.TurnEffects

/-!
# Every request is completed or abandoned

In a run with a fixed number of requests every one of them is, at every moment, completed,
abandoned, or still to be sent by a connection that has it in its limit.
-/

namespace Rload
open Connection

namespace Connection.Progress

/-- What is left of the limit. -/
def outstanding (p : Progress) : ℕ :=
  if p.done then 0 else (p.limit.requests?.getD 0) - p.completed

def active (p : Progress) : ℕ := if p.done then 0 else 1

/-- The limit is a number of requests, which a connection that is not done has not reached. -/
def OnCourse (p : Progress) : Prop :=
  ∃ count, p.limit = .requests count ∧ (p.done = false → p.completed < count)

theorem outstanding_of_done {p : Progress} (h : p.done = true) : p.outstanding = 0 := if_pos h

theorem outstanding_of_open {p : Progress} {count : ℕ} (h : p.done = false)
    (hlimit : p.limit = .requests count) : p.outstanding = count - p.completed := by
  rw [outstanding, h, hlimit]
  rfl

end Connection.Progress

theorem Connection.unfinishedRequests_eq (c : Connection) :
    c.unfinishedRequests = (c.limit.requests?.getD 0) - c.completed := by
  rw [unfinishedRequests]
  cases c.limit with
  | requests count => rfl
  | deadline time => exact (Nat.zero_sub _).symm

namespace Desk

/-- The requests that are counted, and those that the connection has not finished. -/
def accounted (d : Desk) : ℕ :=
  d.summary.completed + d.summary.abandonedRequests + d.connection.progress.outstanding

/-- What turns keep in a run with a fixed number of requests. -/
structure Balances (d d' : Desk) : Prop where
  onCourse : d'.connection.progress.OnCourse
  accounted_eq : d'.accounted = d.accounted
  active_eq : d'.active = d.active - if d'.connection.done then 1 else 0

variable {token timeout : ℕ} {n : FailureCounts} {allowed : Counter → Prop} {d d₁ d' : Desk}

theorem Touches.completed_eq (h : Touches d n d₁) : d₁.summary.completed = d.summary.completed :=
  congrArg (·.completed) h.summary_eq

theorem Touches.abandoned_eq (h : Touches d n d₁) :
    d₁.summary.abandonedRequests = d.summary.abandonedRequests :=
  congrArg (·.abandonedRequests) h.summary_eq

/-- The desk after a turn whose connection goes on as before. -/
theorem balances_of_same (hc : d.connection.progress.OnCourse)
    (hopen : d.connection.done = false) (hprogress : d'.connection.progress = d.connection.progress)
    (hcompleted : d'.summary.completed = d.summary.completed)
    (habandoned : d'.summary.abandonedRequests = d.summary.abandonedRequests)
    (hactive : d'.active = d.active) : Balances d d' where
  onCourse := hprogress ▸ hc
  accounted_eq := by rw [accounted, accounted, hprogress, hcompleted, habandoned]
  active_eq := by
    have hdone : d'.connection.done = false := (congrArg Progress.done hprogress).trans hopen
    rw [hactive, hdone]
    rfl

/-- The desk after a turn whose connection leaves: what was left of the limit is counted. -/
theorem balances_of_leave {count : ℕ} (hlimit : d.connection.limit = .requests count)
    (hopen : d.connection.done = false) (hlimit' : d'.connection.limit = .requests count)
    (hdone : d'.connection.done = true)
    (hsum : d'.summary.completed + d'.summary.abandonedRequests =
      d.summary.completed + d.summary.abandonedRequests + (count - d.connection.completed))
    (hactive : d'.active = d.active - 1) : Balances d d' where
  onCourse := ⟨count, hlimit', fun h =>
    absurd hdone (by simp [show d'.connection.done = false from h])⟩
  accounted_eq := by
    rw [accounted, accounted, Progress.outstanding_of_done hdone,
      Progress.outstanding_of_open hopen hlimit, hsum]
    rfl
  active_eq := by rw [hactive, hdone]; rfl

theorem Settles.balances (h : Settles token timeout allowed d d')
    (hopen : d.connection.done = false)
    (hc : d.connection.progress.OnCourse) : Balances d d' := by
  cases h with
  | cameBack h hallowed hf hassign hback hw =>
    exact balances_of_same hc hopen ((hback.progress_eq hassign).trans h.progress_eq)
      h.completed_eq h.abandoned_eq h.active_eq
  | @gaveUp d₁ c w k counter f h hallowed hf hup hw =>
    obtain ⟨-, rfl, -⟩ := hup
    obtain ⟨count, hlimit, hbelow⟩ := hc
    have hlimit₁ := (congrArg Progress.limit h.progress_eq).trans hlimit
    have hcompleted₁ := congrArg Progress.completed h.progress_eq
    apply balances_of_leave hlimit hopen
    · exact hlimit₁
    · rfl
    · have hunfinished : unfinishedRequests (finish (attempts k k k (watch none d₁.connection))) =
          count - d₁.connection.completed := by
        rw [unfinishedRequests_eq]
        exact congrArg (fun l => l.requests?.getD 0 - d₁.connection.completed) hlimit₁
      have hsum : d₁.summary.completed + (d₁.summary.abandonedRequests +
          unfinishedRequests (finish (attempts k k k (watch none d₁.connection)))) =
          d.summary.completed + d.summary.abandonedRequests +
            (count - d.connection.completed) := by
        rw [hunfinished, h.completed_eq, h.abandoned_eq, Nat.add_assoc]
        exact congrArg _ (congrArg _ (congrArg _ hcompleted₁))
      exact hsum
    · exact congrArg (· - 1) h.active_eq
  | ranOut h hallowed hf hlimit hw =>
    obtain ⟨count, hcount, -⟩ := hc
    have hlimit₁ := (congrArg Progress.limit h.progress_eq).trans hcount
    exact absurd (hlimit.symm.trans hlimit₁) (by simp)
  | stopped h hstop hw =>
    obtain ⟨count, hcount, hbelow⟩ := hc
    have hlimit₁ := (congrArg Progress.limit h.progress_eq).trans hcount
    have hcompleted₁ := congrArg Progress.completed h.progress_eq
    have hreached := hstop.reached count hlimit₁
    have hless := hbelow hopen
    simp only [progress] at hcompleted₁ hless
    omega

theorem Turn.balances (h : Turn token timeout d d') (hopen : d.connection.done = false)
    (hc : d.connection.progress.OnCourse) : Balances d d' := by
  cases h with
  | rested h =>
    exact balances_of_same hc hopen h.progress_eq h.completed_eq h.abandoned_eq h.active_eq
  | begun h =>
    exact balances_of_same hc hopen h.progress_eq h.completed_eq h.abandoned_eq h.active_eq
  | deferred h hf hstarted hpace hw =>
    exact balances_of_same hc hopen h.progress_eq h.completed_eq h.abandoned_eq h.active_eq
  | settled h => exact h.balances hopen hc
  | answeredLast hanswer hw₁ huri hw hlast =>
    obtain ⟨count, hlimit, hbelow⟩ := hc
    have hless := hbelow hopen
    have hreached := hlast count hlimit
    have hprogress := progress_of_frame (frame_of_readFrame hanswer.kept)
    apply balances_of_leave hlimit hopen
    · exact (congrArg Progress.limit hprogress).trans hlimit
    · rfl
    · have hsum : d.summary.completed + 1 + d.summary.abandonedRequests =
          d.summary.completed + d.summary.abandonedRequests +
            (count - d.connection.completed) := by
        simp only [progress] at hless
        omega
      exact hsum
    · rfl
  | answeredNext hanswer hw₁ huri hw hon hmore =>
    obtain ⟨count, hlimit, hbelow⟩ := hc
    have hless := hmore count hlimit
    rename_i c₁ c w₁ w response uri drawn
    have hread : c₁.clearReadBytes.progress = d.connection.progress :=
      progress_of_frame (frame_of_readFrame hanswer.kept)
    have hprogress := hon.progress_eq
    rw [hread] at hprogress
    have hopen' : c.done = false := (congrArg Progress.done hprogress).trans hopen
    have hlimit' : c.limit = .requests count := (congrArg Progress.limit hprogress).trans hlimit
    have hcompleted' : c.completed = d.connection.completed + 1 :=
      congrArg Progress.completed hprogress
    have hless' : c.completed < count := hcompleted' ▸ hless
    refine ⟨⟨count, hlimit', fun _ => hless'⟩, ?_, ?_⟩
    · have hsum : d.summary.completed + 1 + d.summary.abandonedRequests +
          c.progress.outstanding = d.accounted := by
        rw [accounted, Progress.outstanding_of_open hopen' hlimit',
          Progress.outstanding_of_open hopen hlimit]
        simp only [progress, hcompleted']
        omega
      exact hsum
    · have hactive : d.active = d.active - if c.done then 1 else 0 := by
        rw [hopen']
        rfl
      exact hactive
  | resumed hre hopened hw =>
    exact balances_of_same hc hopen (hopened.progress_eq fun _ => rfl) rfl rfl rfl

theorem Balances.trans (h : Balances d d₁) (hopen : d₁.connection.done = false)
    (h' : Balances d₁ d') : Balances d d' where
  onCourse := h'.onCourse
  accounted_eq := h'.accounted_eq.trans h.accounted_eq
  active_eq := by
    rw [h'.active_eq, h.active_eq, hopen]
    rfl

theorem Turns.balances (h : Turns token timeout d d') (hc : d.connection.progress.OnCourse) :
    d' = d ∨ d.connection.done = false ∧ Balances d d' := by
  induction h with
  | refl => exact Or.inl rfl
  | tail _ hturn ih =>
    obtain ⟨hopen, hturn⟩ := hturn
    cases ih with
    | inl heq =>
      subst heq
      exact Or.inr ⟨hopen, hturn.balances hopen hc⟩
    | inr h => exact Or.inr ⟨h.1, h.2.trans hopen (hturn.balances hopen h.2.onCourse)⟩

end Desk

/-- The limits that no connection was made for yet. -/
def Phase.pending : Phase → List ConnectionLimit
  | .opening limits | .starting limits _ => limits
  | _ => []

namespace Worker

def accounted (w : Worker) : ℕ :=
  w.summary.completed + w.summary.abandonedRequests +
    (w.connections.map (·.progress.outstanding)).sum +
    promisedSum w.phase.pending

/-- The books of a worker that has `total` requests to send. -/
structure Accounts (total : ℕ) (w : Worker) : Prop where
  pending_fixed : ∀ limit ∈ w.phase.pending, ∃ count, limit = .requests count ∧ 0 < count
  onCourse : ∀ c ∈ w.connections, c.progress.OnCourse
  accounted_eq : w.accounted = total
  allActive : w.phase.loops = false → w.phase.isFinished = false →
    ∀ c ∈ w.connections, c.done = false
  active_eq : w.phase.loops = true → w.active = (w.connections.map (·.progress.active)).sum
  result_eq : ∀ s, w.phase = .finished (.ok s) → s.completed + s.abandonedRequests = total

variable {total : ℕ} {w w₁ : Worker}

theorem pending_of_loops {phase : Phase} (h : phase.loops = true) : phase.pending = [] := by
  cases phase <;> first | rfl | cases h

/-- The books after the loop has gone on without a look at a connection. -/
theorem Accounts.idles {P : Timer → Prop} (h : Accounts total w) (hidles : Idles P w w₁) :
    Accounts total w₁ where
  pending_fixed := by simp [pending_of_loops hidles.loops_after]
  onCourse := hidles.connections_eq ▸ h.onCourse
  accounted_eq := by
    rw [← h.accounted_eq, accounted, accounted, hidles.connections_eq, hidles.summary_eq,
      pending_of_loops hidles.loops, pending_of_loops hidles.loops_after]
  allActive := fun hloops => absurd hidles.loops_after (by simp [hloops])
  active_eq := fun _ => by
    rw [hidles.active_eq, hidles.connections_eq]
    exact h.active_eq hidles.loops
  result_eq := by
    intro s hs
    have hloops := hidles.loops_after
    rw [hs] at hloops
    cases hloops

theorem withDesk_desk {token : ℕ} {c : Connection} (hc : w.connections[token]? = some c) :
    w.withDesk token (w.desk c) = w := by
  obtain ⟨hlt, hget⟩ := List.getElem?_eq_some_iff.mp hc
  have hset : w.connections.set token c = w.connections := hget ▸ List.set_getElem_self hlt
  simp only [withDesk, desk, hset]

/-- The books after a turn of one connection. -/
theorem Accounts.turn {token : ℕ} {c : Connection} {d : Desk} (h : Accounts total w)
    (hloops : w.phase.loops = true) (hc : w.connections[token]? = some c)
    (hopen : c.done = false) (hbalances : Desk.Balances (w.desk c) d) :
    Accounts total (w.withDesk token d) where
  pending_fixed := h.pending_fixed
  onCourse := by
    intro c' hc'
    cases List.mem_or_eq_of_mem_set hc' with
    | inl hmem => exact h.onCourse c' hmem
    | inr heq => exact heq ▸ hbalances.onCourse
  accounted_eq := by
    have hsum := SharedResource.sum_set (fun c => c.progress.outstanding) hc d.connection
    have hdesk := hbalances.accounted_eq
    have htotal := h.accounted_eq
    simp only [accounted, Desk.accounted, withDesk, desk] at hsum hdesk htotal ⊢
    omega
  allActive := fun hnot => absurd hloops (by simp [show w.phase.loops = false from hnot])
  active_eq := by
    intro _
    have hsum := SharedResource.sum_set (fun c => c.progress.active) hc d.connection
    have hdesk := hbalances.active_eq
    have htotal := h.active_eq hloops
    have hbefore : c.progress.active = 1 := by
      rw [Progress.active, show c.progress.done = false from hopen]
      rfl
    have hafter : d.connection.progress.active = if d.connection.done then 0 else 1 := rfl
    simp only [withDesk, desk, hbefore, hafter] at hsum hdesk htotal ⊢
    cases hd : d.connection.done with
    | true =>
      simp only [hd, if_true] at hsum hdesk
      omega
    | false =>
      simp only [hd, Bool.false_eq_true, if_false] at hsum hdesk
      omega
  result_eq := h.result_eq

theorem sum_active (connections : List Connection) :
    (connections.map (·.progress.active)).sum = connections.countP fun c => !c.done := by
  induction connections with
  | nil => rfl
  | cons c connections ih =>
    have hactive : c.progress.active = if !c.done then 1 else 0 := by
      rw [Progress.active, show c.progress.done = c.done from rfl]
      cases c.done with
      | true => rfl
      | false => rfl
    rw [List.map_cons, List.sum_cons, ih, List.countP_cons, hactive, Nat.add_comm]

theorem sum_active_eq_zero {connections : List Connection} :
    (connections.map (·.progress.active)).sum = 0 ↔ ∀ c ∈ connections, c.done = true := by
  rw [sum_active, List.countP_eq_zero]
  simp

theorem sum_active_of_open {connections : List Connection}
    (h : ∀ c ∈ connections, c.done = false) :
    (connections.map (·.progress.active)).sum = connections.length := by
  rw [sum_active, List.countP_eq_length]
  intro c hc
  rw [h c hc]
  rfl

theorem sum_outstanding_of_done {connections : List Connection}
    (h : (connections.map (·.progress.active)).sum = 0) :
    (connections.map (·.progress.outstanding)).sum = 0 := by
  rw [List.sum_eq_zero_iff]
  intro n hn
  obtain ⟨c, hc, rfl⟩ := List.mem_map.mp hn
  exact Progress.outstanding_of_done (sum_active_eq_zero.mp h c hc)

section Setup

variable {limit : ConnectionLimit} {limits : List ConnectionLimit} {attempts attempts' : ℕ}
  {world : World} {summary : RunSummary}

/-- The books of a worker that has as many connections to open as before. -/
theorem Accounts.starting (h : Accounts total w) (hpending : w.phase.pending = limits)
    (hloops : w.phase.loops = false) (hfinished : w.phase.isFinished = false)
    (hsummary : summary.completed + summary.abandonedRequests =
      w.summary.completed + w.summary.abandonedRequests) :
    Accounts total { w with summary := summary, world := world, phase := .starting limits attempts }
    where
  pending_fixed := hpending ▸ h.pending_fixed
  onCourse := h.onCourse
  accounted_eq := by
    rw [← h.accounted_eq, accounted, accounted, hsummary, hpending]
    rfl
  allActive := fun _ _ => h.allActive hloops hfinished
  active_eq := by simp [Phase.loops]
  result_eq := by simp

/-- The requests of a new connection were pending before. -/
theorem Accounts.connected {c : Connection} (h : Accounts total w)
    (hphase : w.phase = .starting (limit :: limits) attempts)
    (hprogress : c.progress = ⟨limit, 0, false⟩) :
    Accounts total { w with
      connections := w.connections ++ [c]
      world := world
      phase := .starting limits 0 } := by
  have htotal := h.accounted_eq
  have hpending := h.pending_fixed
  have hopen := h.allActive (by rw [hphase]; rfl) (by rw [hphase]; rfl)
  rw [accounted, hphase] at htotal
  rw [hphase] at hpending
  obtain ⟨count, rfl, hpos⟩ := hpending _ List.mem_cons_self
  have hmem : ∀ c' ∈ w.connections ++ [c], c' ∈ w.connections ∨ c' = c := by simp
  refine ⟨?_, ?_, ?_, ?_, by simp [Phase.loops], by simp⟩
  · exact fun limit hlimit => hpending limit (List.mem_cons_of_mem _ hlimit)
  · intro c' hc'
    obtain hold | rfl := hmem c' hc'
    · exact h.onCourse c' hold
    · rw [hprogress]
      exact ⟨count, rfl, fun _ => hpos⟩
  · rw [← htotal, accounted, List.map_append, List.sum_append]
    simp only [Phase.pending, promisedSum, List.map_cons, List.map_nil, List.sum_cons,
      List.sum_nil, ConnectionLimit.promised, ConnectionLimit.requests?, Option.getD_some,
      Nat.add_assoc, Nat.zero_add, hprogress]
    rfl
  · intro _ _ c' hc'
    obtain hold | rfl := hmem c' hc'
    · exact hopen c' hold
    · exact congrArg Progress.done hprogress

/-- The requests of a connection that is not opened are abandoned. -/
theorem Accounts.gaveUp {requests : ℕ} (h : Accounts total w)
    (hphase : w.phase = .starting (.requests requests :: limits) attempts) :
    Accounts total { w with
      summary := abandonFirst requests (countConnectError w.summary)
      world := world
      phase := .starting limits 0 } := by
  have htotal := h.accounted_eq
  have hpending := h.pending_fixed
  have hopen := h.allActive (by rw [hphase]; rfl) (by rw [hphase]; rfl)
  rw [accounted, hphase] at htotal
  rw [hphase] at hpending
  refine ⟨?_, h.onCourse, ?_, fun _ _ => hopen, by simp [Phase.loops], by simp⟩
  · exact fun limit hlimit => hpending limit (List.mem_cons_of_mem _ hlimit)
  · rw [← htotal]
    simp only [accounted, abandonFirst, countConnectError, Phase.pending, promisedSum,
      List.map_cons, List.sum_cons, ConnectionLimit.promised, ConnectionLimit.requests?,
      Option.getD_some]
    omega

theorem Accounts.entered (h : Accounts total w) (hphase : w.phase = .starting [] attempts) :
    Accounts total w.enterLoop := by
  have htotal := h.accounted_eq
  have hopen := h.allActive (by rw [hphase]; rfl) (by rw [hphase]; rfl)
  rw [accounted, hphase] at htotal
  refine ⟨by simp [enterLoop, Phase.pending], h.onCourse, htotal, ?_, fun _ => ?_, ?_⟩
  · exact fun hloops => absurd hloops (by simp [enterLoop, Phase.loops])
  · exact (sum_active_of_open hopen).symm
  · simp [enterLoop]

/-- A worker without an active connection has all its requests in the summary. -/
theorem Accounts.ended (h : Accounts total w) (hphase : w.phase = .polling)
    (hactive : w.active = 0) : Accounts total (w.goTo (.finished (.ok w.summary))) := by
  have htotal := h.accounted_eq
  have hsum := h.active_eq (by rw [hphase]; rfl)
  rw [hactive] at hsum
  have hdone := sum_outstanding_of_done hsum.symm
  rw [accounted, hphase, hdone] at htotal
  refine ⟨by simp [goTo, Phase.pending], h.onCourse, ?_, ?_, ?_, ?_⟩
  · rw [← htotal, accounted]
    exact congrArg (fun n => _ + n + _) hdone
  · exact fun _ hfinished => absurd hfinished (by simp [goTo, Phase.isFinished])
  · exact fun hloops => absurd hloops (by simp [goTo, Phase.loops])
  · intro s hs
    cases hs
    exact htotal

end Setup

theorem invariant_accounts (total : ℕ) : Invariant fun w => w.failed ∨ Accounts total w where
  sharing w sequence h := h.imp id fun h => ⟨h.1, h.2, h.3, h.4, h.5, h.6⟩
  move w w' hrunning h hmove := by
    have h : Accounts total w := by
      cases h with
      | inl hfailed => exact absurd hfailed (not_failed_of_running hrunning)
      | inr h => exact h
    cases hmove with
    | halted hhalts => exact Or.inl ⟨_, hhalts.phase_eq⟩
    | opened hphase hw =>
      exact Or.inr (h.starting (by rw [hphase]; rfl) (by rw [hphase]; rfl) hrunning rfl)
    | connected hphase hw hfrom hto => exact Or.inr (h.connected hphase rfl)
    | refused hphase hw =>
      exact Or.inr (h.starting (by rw [hphase]; rfl) (by rw [hphase]; rfl) hrunning rfl)
    | gaveUp hphase hw => exact Or.inr (h.gaveUp hphase)
    | ranOut hphase hw =>
      have hpending := h.pending_fixed
      rw [hphase] at hpending
      obtain ⟨count, hcount, -⟩ := hpending _ List.mem_cons_self
      cases hcount
    | entered hphase => exact Or.inr (h.entered hphase)
    | ended hphase hactive => exact Or.inr (h.ended hphase hactive)
    | idled hidles => exact Or.inr (h.idles hidles)
    | handled hidles hc hturns =>
      have h₁ := h.idles hidles
      have honCourse := h₁.onCourse _ (List.mem_of_getElem? hc)
      cases hturns.balances honCourse with
      | inl heq =>
        subst heq
        rw [withDesk_desk hc]
        exact Or.inr h₁
      | inr hbalances =>
        exact Or.inr (h₁.turn hidles.loops_after hc hbalances.1 hbalances.2)
    | expired hidles hphase ht hdue htoken hgeneration hc hdone hsettles =>
      have h₁ := h.idles hidles
      have honCourse := h₁.onCourse _ (List.mem_of_getElem? hc)
      exact Or.inr (h₁.turn hidles.loops_after hc hdone (hsettles.balances hdone honCourse))

end Worker

/-- Every worker has ended, none of them by an error. -/
def LoadRun.returns (prepared : PreparedRun) (r : LoadRun) : Bool :=
  match r.outcome prepared with
  | some (.ok _) => true
  | _ => false

theorem LoadRun.exists_of_returns {prepared : PreparedRun} {r : LoadRun}
    (h : r.returns prepared = true) : ∃ summary, r.outcome prepared = some (.ok summary) := by
  unfold returns at h
  split at h
  · rename_i summary hsummary
    exact ⟨summary, hsummary⟩
  · cases h

theorem forall₂_mapM {α β : Type} {f : α → Option β} {as : List α} {bs : List β}
    (h : as.mapM f = some bs) : List.Forall₂ (fun a b => f a = some b) as bs := by
  induction as generalizing bs with
  | nil =>
    cases h
    exact .nil
  | cons a as ih =>
    rw [List.mapM_cons] at h
    cases ha : f a with
    | none =>
      rw [ha] at h
      cases h
    | some b =>
      cases has : as.mapM f with
      | none =>
        rw [ha, has] at h
        cases h
      | some bs' =>
        rw [ha, has] at h
        cases h
        exact .cons ha (ih has)

theorem forall₂_through {α β γ : Type} {R : α → β → Prop} {S : α → γ → Prop} {as : List α}
    {bs : List β} {cs : List γ} (h : List.Forall₂ R as bs) (h' : List.Forall₂ S as cs) :
    List.Forall₂ (fun b c => ∃ a, R a b ∧ S a c) bs cs := by
  induction h generalizing cs with
  | nil =>
    cases h'
    exact .nil
  | cons hab _ ih =>
    cases h' with
    | cons hac h' => exact .cons ⟨_, hab, hac⟩ (ih h')

theorem Worker.phase_of_result {w : Worker} {s : RunSummary} (h : w.result? = some (.ok s)) :
    w.phase = .finished (.ok s) := by
  unfold result? at h
  split at h
  · rename_i summary hphase
    cases h
    exact hphase
  · cases h
  · cases h
  · cases h

theorem mergeAll_accounted {results : List (Except RunError RunSummary)} {totals : List ℕ}
    (h : List.Forall₂ (fun result total =>
      ∀ s, result = .ok s → s.completed + s.abandonedRequests = total) results totals)
    {summary merged : RunSummary} (hmerge : mergeAll summary results = .ok merged) :
    merged.completed + merged.abandonedRequests =
      summary.completed + summary.abandonedRequests + totals.sum := by
  induction h generalizing summary with
  | nil =>
    cases hmerge
    rfl
  | @cons result total results totals hresult _ ih =>
    cases result with
    | error e => cases hmerge
    | ok s =>
      have hmerged := ih hmerge
      have hs := hresult s rfl
      simp only [RunSummary.merge] at hmerged
      rw [List.sum_cons]
      omega

namespace RunInput

variable (input : RunInput)

/-- Each worker keeps its own books. -/
theorem accounts (hpos : ∀ limits ∈ input.limits, ∀ limit ∈ limits,
      ∃ count, limit = .requests count ∧ 0 < count) (schedule : List ℕ) :
    List.Forall₂ (fun w limits => w.failed ∨ Worker.Accounts (promisedSum limits) w)
      (input.after schedule).components input.limits := by
  apply input.forall₂_worker fun limits => Worker.invariant_accounts (promisedSum limits)
  intro limits hlimits worker
  apply Or.inr
  refine ⟨hpos limits hlimits, ?_, ?_, ?_, ?_, ?_⟩
  · exact fun c hc => absurd hc List.not_mem_nil
  · exact Nat.zero_add _
  · exact fun _ _ c hc => absurd hc List.not_mem_nil
  · intro hloops
    cases hloops
  · intro s hs
    cases hs

theorem result_accounted {w : Worker} {total : ℕ} (h : w.failed ∨ Worker.Accounts total w)
    {s : RunSummary} (hresult : w.result? = some (.ok s)) :
    s.completed + s.abandonedRequests = total := by
  have hphase : w.phase = .finished (.ok s) := Worker.phase_of_result hresult
  cases h with
  | inl hfailed =>
    obtain ⟨e, hfailed⟩ := hfailed
    rw [hphase] at hfailed
    cases hfailed
  | inr h => exact h.result_eq s hphase

/-- In every run with a fixed number of requests that returns, each request is completed or
abandoned. -/
theorem requests_accounted {n : ℕ} (hvalid : input.prepared.config.validate = .ok ())
    (hlimit : input.prepared.config.limit = .requests n) (schedule : List ℕ)
    {summary : RunSummary}
    (houtcome : (input.after schedule).outcome input.prepared = some (.ok summary)) :
    summary.completed + summary.abandonedRequests = n := by
  have haccounts := input.accounts (limits_pos hvalid hlimit) schedule
  unfold LoadRun.outcome at houtcome
  cases hresults : (input.after schedule).components.mapM Worker.result? with
  | none =>
    rw [hresults] at houtcome
    cases houtcome
  | some results =>
    rw [hresults] at houtcome
    cases hmerge : mergeAll {} results with
    | error e =>
      rw [Option.map_some, hmerge] at houtcome
      cases houtcome
    | ok merged =>
      rw [Option.map_some, hmerge] at houtcome
      cases houtcome
      have hresult := forall₂_mapM hresults
      have htotals : List.Forall₂ (fun result total =>
          ∀ s, result = .ok s → s.completed + s.abandonedRequests = total) results
          (input.limits.map promisedSum) := by
        rw [List.forall₂_map_right_iff]
        apply (forall₂_through hresult haccounts).imp
        rintro result limits ⟨w, hw, hbooks⟩ s rfl
        exact result_accounted hbooks hw
      have hsum := mergeAll_accounted htotals hmerge
      rw [promised_limits hvalid hlimit] at hsum
      exact hsum.trans (Nat.zero_add n)

theorem promptRun_returns :
    (promptRun.after (List.replicate 14 0)).returns promptRun.prepared = true := by
  decide +kernel

/-- Two requests on one connection, which the server closes after the first response and whenever
it is opened again. -/
def desertedRun : RunInput :=
  plain (.requests 2) 1 (.inOrder [getRoot]) none fun call =>
    if call < 16 then promptReply else { promptReply with reads := [.ok []] }

theorem requests_accounted_sample :
    ∃ summary, (desertedRun.after (List.replicate 32 0)).outcome desertedRun.prepared =
        some (.ok summary) ∧ summary.abandonedRequests = 1 ∧
      summary.completed + summary.abandonedRequests = 2 := by
  have habandoned : ((desertedRun.after (List.replicate 32 0)).outcome desertedRun.prepared).map
      (·.toOption.map (·.abandonedRequests)) = some (some 1) := by
    decide +kernel
  obtain ⟨result, hresult, habandoned⟩ := Option.map_eq_some_iff.mp habandoned
  obtain ⟨summary, hsummary, habandoned⟩ := Option.map_eq_some_iff.mp habandoned
  have houtcome := hresult.trans (congrArg some (ok_of_toOption hsummary))
  exact ⟨summary, houtcome, habandoned, requests_accounted desertedRun rfl rfl _ houtcome⟩

end RunInput

end Rload
