import Rload.RunInvariants
import Rload.TurnEffects

/-!
# Deadlines and generations

A deadline stays in the queue of its worker until it is due, and counts only while its
connection is of the same generation. Whatever a deadline is for changes together with the
generation.
-/

namespace Rload
open StatefulPrograms

namespace Happening

def isOpening : Happening → Bool
  | .opened _ _ => true
  | _ => false

def isReconnect : Happening → Bool
  | .reconnectedAtPace _ => true
  | _ => false

end Happening

namespace Connection

/-- A started request waits for no pace, and its pace has come. -/
def Paced (t : ℕ) (c : Connection) : Prop :=
  c.started.isSome → c.awaitingPace = false ∧
    ∀ notBefore, c.notBefore = some notBefore → notBefore ≤ t

/-- What a timer of a connection is for: the request and the transport, by their numbers, and
what the connection waits for. -/
structure Occasion where
  requests : ℕ
  transports : ℕ
  started : Option ℕ
  awaitingPace : Bool
  connectedAt : ℕ
  limit : ConnectionLimit

def occasion (c : Connection) : Occasion where
  requests := c.history.countP Happening.isDraw
  transports := c.history.countP Happening.isOpening
  started := c.started
  awaitingPace := c.awaitingPace
  connectedAt := c.connectedAt
  limit := c.limit

variable {t t' : ℕ} {c c' c'' : Connection}

theorem paced_of_unstarted (h : c.started = none) : c.Paced t := by
  intro hstarted
  rw [h] at hstarted
  cases hstarted

theorem Paced.of_same (h : c.Paced t) (hstarted : c'.started = c.started)
    (hwait : c'.awaitingPace = false ∨ c'.awaitingPace = c.awaitingPace)
    (hpace : c'.notBefore = c.notBefore) : c'.Paced t := by
  intro hsome
  rw [hstarted] at hsome
  obtain ⟨hawaiting, hcome⟩ := h hsome
  refine ⟨?_, hpace ▸ hcome⟩
  cases hwait with
  | inl hfalse => exact hfalse
  | inr hsame => exact hsame.trans hawaiting

theorem Paced.hear (h : c.Paced t) (data : List UInt8) (eof : Bool) :
    (c.hear data eof).Paced t := by
  rw [Connection.hear]
  split
  · exact h.of_same rfl (Or.inr rfl) rfl
  · exact h.of_same rfl (Or.inr rfl) rfl

theorem invariant_paced : Connection.Invariant Paced where
  time t t' c hle h hstarted := by
    obtain ⟨hawaiting, hcome⟩ := h hstarted
    exact ⟨hawaiting, fun notBefore hpace => (hcome notBefore hpace).trans hle⟩
  move t c c' h hmove := by
    cases hmove with
    | watch interest => exact h
    | hear data eof => exact h.hear data eof
    | @awaitPace notBefore hpace hearly =>
      rw [Connection.awaitPace]
      split
      · exact h
      · intro hstarted
        have hcome := (h hstarted).2 notBefore hpace
        omega
    | begin hpace =>
      rw [Connection.begin]
      split
      · exact fun _ => ⟨rfl, hpace⟩
      · exact h.of_same rfl (Or.inl rfl) rfl
    | advance hstarted hpos hle => exact h
    | @attempts tried made limited hspends => exact h
    | clearReadBytes => exact h
    | clearRecoveryAttempts => exact h
    | defer hstarted hpace => exact paced_of_unstarted hstarted
    | finish => exact h
    | opened hassign addressIndex =>
      cases hassign with
      | next => exact h
      | retry => exact h.of_same rfl (Or.inl rfl) rfl
      | recover => exact paced_of_unstarted rfl
      | resume hre => exact h.of_same rfl (Or.inl rfl) rfl
    | @answer data eof parsed hdata hdecoded => exact h.hear data eof
    | next drawn => exact paced_of_unstarted rfl
  connected addresses limit tls drawn addressIndex t := paced_of_unstarted rfl

/-- Where the occasion changes, the generation has grown. -/
def Follows (c c' : Connection) : Prop :=
  c.timerGeneration < c'.timerGeneration ∨
    c'.timerGeneration = c.timerGeneration ∧ c'.occasion = c.occasion

theorem Follows.refl (c : Connection) : Follows c c := Or.inr ⟨rfl, rfl⟩

theorem Follows.trans (h : Follows c c') (h' : Follows c' c'') : Follows c c'' := by
  cases h with
  | inl hlt =>
    cases h' with
    | inl hlt' => exact Or.inl (hlt.trans hlt')
    | inr heq => exact Or.inl (heq.1 ▸ hlt)
  | inr heq =>
    cases h' with
    | inl hlt' => exact Or.inl (heq.1 ▸ hlt')
    | inr heq' => exact Or.inr ⟨heq'.1.trans heq.1, heq'.2.trans heq.2⟩

theorem Follows.generation_le (h : Follows c c') : c.timerGeneration ≤ c'.timerGeneration := by
  cases h with
  | inl hlt => exact hlt.le
  | inr heq => exact heq.1.ge

theorem Follows.occasion_eq (h : Follows c c')
    (hgeneration : c'.timerGeneration = c.timerGeneration) :
    c'.occasion = c.occasion := by
  cases h with
  | inl hlt => omega
  | inr heq => exact heq.2

theorem follows_of_eq (hgeneration : c'.timerGeneration = c.timerGeneration)
    (hoccasion : c'.occasion = c.occasion) : Follows c c' := Or.inr ⟨hgeneration, hoccasion⟩

theorem follows_hear (data : List UInt8) (eof : Bool) (c : Connection) :
    Follows c (c.hear data eof) := by
  rw [Connection.hear]
  split
  · exact follows_of_eq rfl rfl
  · exact follows_of_eq rfl rfl

theorem Reads.follows (h : Reads c c') : Follows c c' := by
  induction h with
  | refl => exact .refl _
  | hear _ hgoes ih => exact ih.trans (follows_hear _ _ _)

theorem Answers.follows {response : CompletedResponse} (h : Answers t c c' response) :
    Follows c c' := by
  cases h with
  | mk h hdata hdecoded => exact h.follows.trans (follows_hear _ _ _)

theorem Exchange.follows (h : Exchange t t' c c') (hpaced : c.Paced t) : Follows c c' := by
  induction h with
  | refl => exact .refl _
  | later _ _ ih => exact ih hpaced
  | awaitPace _ hpace hearly ih =>
    apply (ih hpaced).trans
    rw [Connection.awaitPace]
    split
    · exact .refl _
    · exact Or.inl (Nat.lt_succ_self _)
  | @begin t' c c' h hpace ih =>
    apply (ih hpaced).trans
    rw [Connection.begin]
    split
    · exact Or.inl (Nat.lt_succ_self _)
    · rename_i hstarted
      -- the request has been started before, so that there is no wait to end
      have hkept := h.moves.keeps invariant_paced.time invariant_paced.move hpaced
      have hawaiting := (hkept (by simpa [Option.isSome_iff_ne_none] using hstarted)).1
      have hsame : c'.endWait = c' := by rw [endWait, ← hawaiting]
      rw [hsame]
      exact .refl _
  | advance _ _ _ _ ih => exact (ih hpaced).trans (follows_of_eq rfl rfl)
  | watch _ interest ih => exact (ih hpaced).trans (follows_of_eq rfl rfl)

theorem occasion_attempts (tried made limited : ℕ) (c : Connection) :
    (attempts tried made limited c).occasion = c.occasion := by
  have hdraws : (List.replicate tried Happening.attempted).countP Happening.isDraw = 0 :=
    List.countP_eq_zero.mpr fun h hmem => by
      rw [List.eq_of_mem_replicate hmem]
      exact Bool.false_ne_true
  have hopenings : (List.replicate tried Happening.attempted).countP Happening.isOpening = 0 :=
    List.countP_eq_zero.mpr fun h hmem => by
      rw [List.eq_of_mem_replicate hmem]
      exact Bool.false_ne_true
  simp only [occasion, attempts, List.countP_append, hdraws, hopenings, Nat.zero_add]

theorem nextDeadline_of_occasion (timeout : ℕ) (h : c'.occasion = c.occasion) :
    c'.nextDeadline timeout = c.nextDeadline timeout := by
  have hstarted : c'.started = c.started := congrArg (·.started) h
  have hawaiting : c'.awaitingPace = c.awaitingPace := congrArg (·.awaitingPace) h
  have hconnected : c'.connectedAt = c.connectedAt := congrArg (·.connectedAt) h
  have hlimit : c'.limit = c.limit := congrArg (·.limit) h
  rw [nextDeadline, nextDeadline, hstarted, hawaiting, hconnected, hlimit]

theorem awaitingPace_of_nextDeadline {timeout time : ℕ} (h : c.nextDeadline timeout = some time) :
    c.awaitingPace = false := by
  rw [nextDeadline] at h
  split at h
  · cases h
  · rename_i hawaiting
    exact Bool.not_eq_true _ ▸ hawaiting

theorem nextDeadline_isSome (timeout : ℕ) (h : c.awaitingPace = false) :
    ∃ time, c.nextDeadline timeout = some time := by
  rw [nextDeadline, if_neg (by simp [h])]
  cases c.started with
  | none => exact ⟨_, rfl⟩
  | some started => exact ⟨_, rfl⟩

/-- Nothing that happened is forgotten. -/
theorem Move.history_subset (h : Move t c c') : c.history ⊆ c'.history := by
  intro happening hmem
  cases h with
  | hear data eof =>
    rw [Connection.hear]
    split
    · exact hmem
    · exact List.mem_cons_of_mem _ hmem
  | awaitPace hpace hearly =>
    rw [Connection.awaitPace]
    split
    · exact hmem
    · exact hmem
  | begin hpace =>
    rw [Connection.begin]
    split
    · exact List.mem_cons_of_mem _ hmem
    · exact hmem
  | advance hstarted hpos hle => exact List.mem_cons_of_mem _ hmem
  | @attempts tried made limited hspends => exact List.mem_append_right _ hmem
  | opened hassign addressIndex =>
    apply List.mem_cons_of_mem
    cases hassign with
    | next => exact hmem
    | retry => exact List.mem_cons_of_mem _ hmem
    | recover => exact List.mem_cons_of_mem _ hmem
    | resume hre => exact List.mem_cons_of_mem _ hmem
  | @answer data eof parsed hdata hdecoded =>
    apply List.mem_cons_of_mem
    rw [Connection.hear]
    split
    · exact hmem
    · exact List.mem_cons_of_mem _ hmem
  | next drawn => exact List.mem_cons_of_mem _ (List.mem_cons_of_mem _ hmem)
  | _ => exact hmem

theorem Moves.history_subset (h : Moves t c t' c') : c.history ⊆ c'.history := by
  induction h with
  | refl => exact List.Subset.refl _
  | later _ _ ih => exact ih
  | move _ hm ih => exact List.Subset.trans ih hm.history_subset

end Connection

namespace Desk
open Connection

variable {token timeout : ℕ} {n : FailureCounts} {allowed : Counter → Prop} {d d₁ d' : Desk}
  {c c' : Connection} {q : TimerQueue}

theorem Touches.paced (h : Touches d n d₁) (hpaced : d.connection.Paced d.world.clock) :
    d₁.connection.Paced d₁.world.clock :=
  h.moves.keeps invariant_paced.time invariant_paced.move hpaced

theorem Touches.follows (h : Touches d n d₁) (hpaced : d.connection.Paced d.world.clock) :
    Follows d.connection d₁.connection := by
  induction h with
  | refl => exact .refl _
  | exchange h hx hw ih => exact ih.trans (hx.follows (h.paced hpaced))
  | read h hr hw ih => exact (ih.trans hr.follows).trans (follows_of_eq rfl rfl)

theorem ComesBack.generation_lt {assign : Connection → Connection} {k : ℕ} {w w' : World}
    (h : ComesBack assign k w c c' w') (hassign : assign = toRetry ∨ assign = toRecover) :
    c.timerGeneration < c'.timerGeneration := by
  obtain ⟨tried, made, limited, -, addressIndex, now, -, -, rfl⟩ := h.reopens
  cases hassign with
  | inl h => rw [h]; exact Nat.lt_succ_self _
  | inr h => rw [h]; exact Nat.lt_succ_self _

theorem Settles.follows (h : Settles token timeout allowed d d')
    (hpaced : d.connection.Paced d.world.clock) : Follows d.connection d'.connection := by
  cases h with
  | cameBack h hallowed hf hassign hback hw =>
    have hlt := ComesBack.generation_lt hback hassign
    have hfollows := (h.follows hpaced).trans (Or.inl hlt)
    exact hfollows
  | @gaveUp d₁ c w k counter f h hallowed hf hup hw =>
    obtain ⟨-, rfl, -⟩ := hup
    have hfollows : Follows d₁.connection (finish (attempts k k k (d₁.connection.watch none))) :=
      follows_of_eq rfl (occasion_attempts k k k (d₁.connection.watch none))
    exact (h.follows hpaced).trans hfollows
  | ranOut h hallowed hf hlimit hw => exact (h.follows hpaced).trans (follows_of_eq rfl rfl)
  | stopped h hstop hw =>
    obtain ⟨interest, rfl⟩ := hstop.connection_eq
    exact (h.follows hpaced).trans (follows_of_eq rfl rfl)

theorem GoesOn.generation_lt {drawn : Drawn} {w w' : World} (h : GoesOn drawn w c c' w') :
    c.timerGeneration < c'.timerGeneration := by
  cases h with
  | reopened h =>
    obtain ⟨addressIndex, now, -, -, rfl⟩ := h
    exact Nat.lt_succ_self _
  | reused h => exact (h.follows (paced_of_unstarted rfl)).generation_le

theorem Turn.follows (h : Turn token timeout d d') (hpaced : d.connection.Paced d.world.clock) :
    Follows d.connection d'.connection := by
  cases h with
  | rested h => exact h.follows hpaced
  | begun h => exact h.follows hpaced
  | deferred h => exact (h.follows hpaced).trans (Or.inl (Nat.lt_succ_self _))
  | settled h => exact h.follows hpaced
  | answeredLast hanswer => exact hanswer.follows.trans (follows_of_eq rfl rfl)
  | answeredNext hanswer _ _ _ hon =>
    have hlt := GoesOn.generation_lt hon
    have hfollows := hanswer.follows.trans (Or.inl hlt)
    exact hfollows
  | resumed _ hopen =>
    obtain ⟨addressIndex, now, -, -, rfl⟩ := hopen
    exact Or.inl (Nat.lt_succ_self _)

theorem Turns.paced (h : Turns token timeout d d')
    (hpaced : d.connection.Paced d.world.clock) : d'.connection.Paced d'.world.clock :=
  h.moves.keeps invariant_paced.time invariant_paced.move hpaced

theorem Turns.follows (h : Turns token timeout d d')
    (hpaced : d.connection.Paced d.world.clock) : Follows d.connection d'.connection := by
  induction h with
  | refl => exact .refl _
  | tail hturns hturn ih => exact ih.trans (hturn.2.follows (Turns.paced hturns hpaced))

/-- The deadlines of the connection are of no later generation, and those of its generation are
for what it waits for now. -/
def Timed (token timeout : ℕ) (c : Connection) (q : TimerQueue) : Prop :=
  ∀ t ∈ q, t.token = token → t.generation ≤ c.timerGeneration ∧
    (t.generation = c.timerGeneration → c.nextDeadline timeout = some t.time)

/-- A connection that waits for no pace has a deadline, unless it has ever connected again at
its pace. -/
def Covered (token : ℕ) (c : Connection) (q : TimerQueue) : Prop :=
  c.done = false → c.awaitingPace = false → (∀ h ∈ c.history, h.isReconnect = false) →
    ∃ t ∈ q, t.token = token ∧ t.generation = c.timerGeneration

theorem Timed.follows (h : Timed token timeout c q) (hfollows : Follows c c') :
    Timed token timeout c' q := by
  intro t ht htoken
  obtain ⟨hle, hcurrent⟩ := h t ht htoken
  have hgrown := hfollows.generation_le
  refine ⟨hle.trans hgrown, fun hgeneration => ?_⟩
  have hsame : c'.timerGeneration = c.timerGeneration := by omega
  rw [nextDeadline_of_occasion timeout (hfollows.occasion_eq hsame)]
  exact hcurrent (hgeneration.trans hsame)

theorem Timed.subset {q' : TimerQueue} (h : Timed token timeout c q) (hsub : ∀ t ∈ q', t ∈ q) :
    Timed token timeout c q' := fun t ht htoken => h t (hsub t ht) htoken

theorem mem_scheduledDeadlines {t : Timer} :
    t ∈ scheduledDeadlines token timeout c q ↔ t ∈ q ∨
      t.token = token ∧ t.generation = c.timerGeneration ∧
        c.nextDeadline timeout = some t.time := by
  rw [scheduledDeadlines]
  cases hnext : c.nextDeadline timeout with
  | none => simp
  | some deadline =>
    simp only [TimerQueue.push, List.mem_orderedInsert]
    constructor
    · intro h
      cases h with
      | inl heq => exact Or.inr ⟨by rw [heq], by rw [heq], by rw [heq]⟩
      | inr hmem => exact Or.inl hmem
    · intro h
      cases h with
      | inl hmem => exact Or.inr hmem
      | inr heq =>
        obtain ⟨time, token', generation⟩ := t
        obtain ⟨rfl, rfl, htime⟩ := heq
        cases htime
        exact Or.inl rfl

theorem Timed.scheduled (h : Timed token timeout c q) :
    Timed token timeout c (scheduledDeadlines token timeout c q) := by
  intro t ht htoken
  cases mem_scheduledDeadlines.mp ht with
  | inl hmem => exact h t hmem htoken
  | inr hnew => exact ⟨hnew.2.1.le, fun _ => hnew.2.2⟩

theorem covered_scheduled : Covered token c (scheduledDeadlines token timeout c q) := by
  intro _ hawaiting _
  obtain ⟨time, htime⟩ := nextDeadline_isSome timeout hawaiting
  exact ⟨⟨time, token, c.timerGeneration⟩, mem_scheduledDeadlines.mpr (Or.inr ⟨rfl, rfl, htime⟩),
    rfl, rfl⟩

theorem covered_of_done (h : c.done = true) : Covered token c q := by
  intro hopen
  rw [h] at hopen
  cases hopen

/-- The queue after a turn: the one before it, or with a deadline for what is waited for now. -/
theorem Settles.deadlines_eq (h : Settles token timeout allowed d d') :
    d'.deadlines = d.deadlines ∧ d'.connection.done = true ∨
      d'.deadlines = scheduledDeadlines token timeout d'.connection d.deadlines := by
  cases h with
  | cameBack h =>
    refine Or.inr ?_
    rw [← h.deadlines_eq]
    rfl
  | gaveUp h hallowed hf hup hw => exact Or.inl ⟨h.deadlines_eq, hup.done_after⟩
  | ranOut h => exact Or.inl ⟨h.deadlines_eq, rfl⟩
  | stopped h hstop hw =>
    obtain ⟨interest, hc⟩ := hstop.connection_eq
    refine Or.inl ⟨h.deadlines_eq, ?_⟩
    have hdone := congrArg (·.done) hc
    exact hdone

theorem Turn.deadlines_eq (h : Turn token timeout d d') :
    d'.deadlines = d.deadlines ∨
      d'.deadlines = scheduledDeadlines token timeout d'.connection d.deadlines := by
  cases h with
  | rested h => exact Or.inl h.deadlines_eq
  | begun h =>
    refine Or.inr ?_
    rw [← h.deadlines_eq]
    rfl
  | deferred h => exact Or.inl h.deadlines_eq
  | settled h => exact h.deadlines_eq.imp And.left id
  | answeredLast => exact Or.inl rfl
  | answeredNext => exact Or.inr rfl
  | resumed => exact Or.inl rfl

theorem timed_of_deadlines (h : Timed token timeout d.connection d.deadlines)
    (hfollows : Follows d.connection d'.connection)
    (hq : d'.deadlines = d.deadlines ∨
      d'.deadlines = scheduledDeadlines token timeout d'.connection d.deadlines) :
    Timed token timeout d'.connection d'.deadlines := by
  have hkept := h.follows hfollows
  cases hq with
  | inl hsame => rw [hsame]; exact hkept
  | inr hnew => rw [hnew]; exact hkept.scheduled

theorem Turns.timed (h : Turns token timeout d d') (hpaced : d.connection.Paced d.world.clock)
    (htimed : Timed token timeout d.connection d.deadlines) :
    Timed token timeout d'.connection d'.deadlines := by
  induction h with
  | refl => exact htimed
  | tail hturns hturn ih =>
    exact timed_of_deadlines ih (hturn.2.follows (Turns.paced hturns hpaced)) hturn.2.deadlines_eq

theorem Settles.covered (h : Settles token timeout allowed d d') :
    Covered token d'.connection d'.deadlines := by
  cases h.deadlines_eq with
  | inl hdone => exact covered_of_done hdone.2
  | inr hnew => rw [hnew]; exact covered_scheduled

theorem Turn.covered (h : Turn token timeout d d') (hpaced : d.connection.Paced d.world.clock)
    (hcovered : Covered token d.connection d.deadlines) :
    Covered token d'.connection d'.deadlines := by
  have hsubset := h.moves.history_subset
  have hfollows := h.follows hpaced
  cases h with
  | rested h hgen =>
    intro hdone hawaiting hnever
    have hsame := hfollows.occasion_eq hgen
    obtain ⟨t, ht, htoken, hgeneration⟩ := hcovered (h.done_eq ▸ hdone)
      ((congrArg (·.awaitingPace) hsame).symm.trans hawaiting)
      fun happening hmem => hnever happening (hsubset hmem)
    exact ⟨t, h.deadlines_eq ▸ ht, htoken, hgeneration.trans hgen.symm⟩
  | begun h => exact covered_scheduled
  | deferred h =>
    intro _ hawaiting _
    cases hawaiting
  | settled h => exact h.covered
  | answeredLast => exact covered_of_done rfl
  | answeredNext => exact covered_scheduled
  | resumed hre hopen hw =>
    obtain ⟨addressIndex, now, -, -, rfl⟩ := hopen
    intro _ _ hnever
    have hreconnect := hnever (.reconnectedAtPace d.connection.hasStarted)
      (List.mem_cons_of_mem _ List.mem_cons_self)
    cases hreconnect

theorem Turns.covered (h : Turns token timeout d d') (hpaced : d.connection.Paced d.world.clock)
    (hcovered : Covered token d.connection d.deadlines) :
    Covered token d'.connection d'.deadlines := by
  induction h with
  | refl => exact hcovered
  | tail hturns hturn ih => exact hturn.2.covered (Turns.paced hturns hpaced) ih

/-- The deadlines of other connections stay. -/
theorem mem_of_deadlines {t : Timer} (ht : t.token ≠ token)
    (hq : d'.deadlines = d.deadlines ∨
      d'.deadlines = scheduledDeadlines token timeout d'.connection d.deadlines) :
    t ∈ d'.deadlines ↔ t ∈ d.deadlines := by
  cases hq with
  | inl hsame => rw [hsame]
  | inr hnew =>
    rw [hnew, mem_scheduledDeadlines]
    exact ⟨fun h => h.resolve_right fun hnew => ht hnew.1, Or.inl⟩

theorem Turns.mem_iff {t : Timer} (h : Turns token timeout d d') (ht : t.token ≠ token) :
    t ∈ d'.deadlines ↔ t ∈ d.deadlines := by
  induction h with
  | refl => exact Iff.rfl
  | tail hturns hturn ih => exact (mem_of_deadlines ht hturn.2.deadlines_eq).trans ih

end Desk

end Rload
