import Rload.RunInvariants
import Rload.TurnEffects
import Mathlib.Tactic.Abel

/-!
# Failures and what they cost

A failure that a transport delivers is counted and costs its connection at most the current
request, wherever the operation that meets it is guarded. A few operations are not: they pass
the error on, and the whole worker ends by it.
-/

namespace Rload
open Connection

/-- The operations whose failure ends the worker, although only one transport has failed:
opening or writing to a transport for the next request, connecting again at a pace, and
connecting again under a duration. -/
def Operation.unguarded : Operation → Bool
  | .reconnect | .writeNext | .resumeAtPace => true
  | .retryAddress deadline | .recoverRequest deadline => deadline
  | _ => false

theorem Failure.fatal_of_operation {f : Failure} (h : f.operation ≠ .service) :
    f.fatal = f.operation.unguarded := by
  obtain ⟨operation, error⟩ := f
  cases operation with
  | service => exact absurd rfl h
  | _ => rfl

theorem World.hasFatal_eq_false_iff {w : World} (h : ∀ f ∈ w.failures, f.operation ≠ .service) :
    w.hasFatal = false ↔ ∀ f ∈ w.failures, f.operation.unguarded = false := by
  rw [hasFatal, List.any_eq_false]
  constructor
  · intro hfatal f hf
    rw [← Failure.fatal_of_operation (h f hf)]
    simpa using hfatal f hf
  · intro hguarded f hf
    rw [Failure.fatal_of_operation (h f hf), hguarded f hf]
    simp

/-- What the summary says about failures. -/
def RunSummary.counts (s : RunSummary) : FailureCounts :=
  s.socketErrors.counts + Pi.single .attempts s.recoveryAttempts

namespace Desk

variable {token timeout : ℕ} {n : FailureCounts} {allowed : Counter → Prop} {d d₁ d' : Desk}

theorem Touches.counts_eq (h : Touches d n d₁) : d₁.summary.counts = d.summary.counts :=
  congrArg (·.counts) h.summary_eq

theorem counts_countedError {counter : Counter} {f : SocketErrors → SocketErrors}
    (hf : AddsOne counter f) (d : Desk) :
    (d.countedError f).summary.counts = d.summary.counts + Pi.single counter 1 := by
  have hone := hf d.summary.socketErrors
  simp only [countedError, counted, RunSummary.counts, hone]
  abel

theorem counts_countedAttempts (d : Desk) :
    d.countedAttempts.summary.counts =
      d.summary.counts + Pi.single .attempts d.connection.pendingRecoveryAttempts := by
  simp only [countedAttempts, counted, moved, RunSummary.counts, Pi.single_add]
  abel

/-- The attempts that failed are counted. -/
theorem ComesBack.pending_le {assign : Connection → Connection} {k : ℕ} {w w' : World}
    {c c' : Connection} (h : ComesBack assign k w c c' w')
    (hassign : assign = toRetry ∨ assign = toRecover) :
    k ≤ c'.pendingRecoveryAttempts := by
  obtain ⟨tried, made, limited, htries, addressIndex, now, -, -, rfl⟩ := h.reopens
  have hmade : k ≤ made := by
    cases htries with
    | fixed hlimit hk => exact Nat.le_succ k
    | deadline made hlimit => exact Nat.zero_le _
  have hpending : (reopened assign addressIndex now
      (attempts tried made limited (c.watch none))).pendingRecoveryAttempts =
      c.pendingRecoveryAttempts + made := by
    cases hassign with
    | inl h => rw [h]; rfl
    | inr h => rw [h]; rfl
  rw [hpending]
  omega

/-- The failures that a turn meets are counted, and so are some attempts that succeed. -/
def Counts (d d' : Desk) : Prop :=
  ∃ failed succeeded, d'.world.counts = d.world.counts + failed ∧
    d'.summary.counts = d.summary.counts + failed + Pi.single .attempts succeeded

theorem Counts.trans (h : Counts d d₁) (h' : Counts d₁ d') : Counts d d' := by
  obtain ⟨failed, succeeded, hworld, hsummary⟩ := h
  obtain ⟨failed', succeeded', hworld', hsummary'⟩ := h'
  refine ⟨failed + failed', succeeded + succeeded', ?_, ?_⟩
  · rw [hworld', hworld, add_assoc]
  · rw [hsummary', hsummary, Pi.single_add]
    abel

theorem counts_of_same (hworld : d'.world.counts = d.world.counts)
    (hsummary : d'.summary.counts = d.summary.counts) : Counts d d' := by
  refine ⟨0, 0, ?_, ?_⟩
  · rw [hworld, add_zero]
  · rw [hsummary, Pi.single_zero, add_zero, add_zero]

/-- A failure for one counter, then `k` attempts that failed among those that are counted. -/
theorem counts_of_failure {counter : Counter} {k made : ℕ}
    (hworld : d'.world.counts = d.world.counts + Pi.single counter 1 + Pi.single .attempts k)
    (hsummary : d'.summary.counts =
      d.summary.counts + Pi.single .attempts made + Pi.single counter 1)
    (hle : k ≤ made) : Counts d d' := by
  refine ⟨Pi.single counter 1 + Pi.single .attempts k, made - k, ?_, ?_⟩
  · rw [hworld, add_assoc]
  · have hmade : (Pi.single .attempts made : FailureCounts) =
        Pi.single .attempts k + Pi.single .attempts (made - k) := by
      rw [← Pi.single_add, Nat.add_sub_cancel' hle]
    rw [hsummary, hmade]
    abel

theorem Settles.counts (h : Settles token timeout allowed d d') : Counts d d' := by
  cases h with
  | @cameBack d₁ c w k counter f assign h hallowed hf hassign hback hw =>
    have hpending := ComesBack.pending_le hback hassign
    have hworld : w.counts = d.world.counts + Pi.single counter 1 + Pi.single .attempts k := by
      rw [hw.count_eq, h.later.count_eq]
    have hsummary : ((d₁.moved c w).countedAttempts.countedError f).summary.counts =
        d.summary.counts + Pi.single .attempts c.pendingRecoveryAttempts + Pi.single counter 1 := by
      rw [counts_countedError hf, counts_countedAttempts, ← h.counts_eq]
      rfl
    exact counts_of_failure hworld hsummary hpending
  | @gaveUp d₁ c w k counter f h hallowed hf hup hw =>
    have hpending : k ≤ c.pendingRecoveryAttempts := by
      rw [hup.connection_eq]
      exact Nat.le_add_left k _
    have hworld : w.counts = d.world.counts + Pi.single counter 1 + Pi.single .attempts k := by
      rw [hw.count_eq, h.later.count_eq]
    have hsummary : ((d₁.moved c w).countedAttempts.countedError f).summary.counts =
        d.summary.counts + Pi.single .attempts c.pendingRecoveryAttempts + Pi.single counter 1 := by
      rw [counts_countedError hf, counts_countedAttempts, ← h.counts_eq]
      rfl
    exact counts_of_failure hworld hsummary hpending
  | @ranOut d₁ w counter f time h hallowed hf hlimit hw =>
    have hworld : w.counts = d.world.counts + Pi.single counter 1 + Pi.single .attempts 0 := by
      rw [hw.count_eq, h.later.count_eq, add_zero, Pi.single_zero, add_zero]
    have hsummary : (d₁.countedAttempts.countedError f).summary.counts = d.summary.counts +
        Pi.single .attempts d₁.connection.pendingRecoveryAttempts + Pi.single counter 1 := by
      rw [counts_countedError hf, counts_countedAttempts, ← h.counts_eq]
    exact counts_of_failure hworld hsummary (Nat.zero_le _)
  | stopped h hstop hw =>
    have hworld := hw.count_eq.trans (add_zero _)
    exact counts_of_same (hworld.trans (h.later.count_eq.trans (add_zero _))) h.counts_eq

theorem Turn.counts (h : Turn token timeout d d') : Counts d d' := by
  cases h with
  | rested h => exact counts_of_same (h.later.count_eq.trans (add_zero _)) h.counts_eq
  | begun h => exact counts_of_same (h.later.count_eq.trans (add_zero _)) h.counts_eq
  | @deferred d₁ w f h hf hstarted hpace hw =>
    have hworld : w.counts = d.world.counts + Pi.single .connect 1 + Pi.single .attempts 0 := by
      rw [hw.count_eq, h.later.count_eq, add_zero, Pi.single_zero, add_zero]
    have hsummary : (d₁.countedError f).summary.counts =
        d.summary.counts + Pi.single .attempts 0 + Pi.single .connect 1 := by
      rw [counts_countedError hf, h.counts_eq, Pi.single_zero, add_zero]
    exact counts_of_failure hworld hsummary le_rfl
  | settled h => exact h.counts
  | answeredLast hanswer hw₁ huri hw hlast =>
    have hworld := (hw.count_eq.trans (add_zero _)).trans (hw₁.count_eq.trans (add_zero _))
    exact counts_of_same hworld rfl
  | answeredNext hanswer hw₁ huri hw hon hmore =>
    exact counts_of_same (hw.count_eq.trans (hw₁.count_eq.trans (add_zero _))) rfl
  | resumed hre hopened hw => exact counts_of_same (hw.count_eq.trans (add_zero _)) rfl

theorem Turns.counts (h : Turns token timeout d d') : Counts d d' := by
  induction h with
  | refl => exact counts_of_same rfl rfl
  | tail _ hturn ih => exact ih.trans hturn.2.counts

end Desk

namespace Worker

/-- No fatal failure, and all failures counted. -/
structure Sound (w : Worker) : Prop where
  noFatal : w.world.hasFatal = false
  counted : ∃ succeeded, w.summary.counts = w.world.counts + Pi.single .attempts succeeded

/-- A worker that ends by an error does so by an I/O error only after a fatal failure. -/
def EndsSoundly (w : Worker) : Prop :=
  (∃ h, w.phase = .finished (.error h) ∧ w.world.hasFatal = h.isIo) ∨ ¬ w.failed ∧ w.Sound

variable {w w₁ w' : Worker}

theorem Sound.later {n : FailureCounts} {world : World} (h : w.Sound) (hw : w.world.Later n world)
    (hworld : w'.world = world) (hsummary : w'.summary.counts = w.summary.counts + n) :
    w'.Sound where
  noFatal := by rw [hworld, hw.fatal_eq, h.noFatal]
  counted := by
    obtain ⟨succeeded, hcounted⟩ := h.counted
    refine ⟨succeeded, ?_⟩
    rw [hworld, hw.count_eq, hsummary, hcounted]
    abel

theorem Sound.turn {P : Timer → Prop} {token : ℕ} {c : Connection} {d : Desk} (h : w.Sound)
    (hidles : Idles P w w₁) (hsteady : w₁.world.Steady d.world)
    (hcounts : Desk.Counts (w₁.desk c) d) : (w₁.withDesk token d).Sound := by
  have h₁ : w₁.Sound := h.later hidles.later rfl (by rw [hidles.summary_eq, add_zero])
  refine ⟨hsteady.fatal_eq.trans h₁.noFatal, ?_⟩
  obtain ⟨succeeded, hcounted⟩ := h₁.counted
  obtain ⟨failed, succeeded', hworld, hsummary⟩ := hcounts
  have hworld : d.world.counts = w₁.world.counts + failed := hworld
  have hsummary : d.summary.counts =
      w₁.summary.counts + failed + Pi.single .attempts succeeded' := hsummary
  refine ⟨succeeded + succeeded', ?_⟩
  have hall : d.summary.counts =
      d.world.counts + Pi.single .attempts (succeeded + succeeded') := by
    rw [hsummary, hcounted, hworld, Pi.single_add]
    abel
  exact hall

theorem counts_countConnectError (s : RunSummary) :
    (countConnectError s).counts = s.counts + Pi.single .connect 1 := by
  have hone := Desk.addsOne_addConnect s.socketErrors
  simp only [RunSummary.counts, countConnectError, hone]
  abel

theorem invariant_endsSoundly : Invariant EndsSoundly where
  sharing w sequence h := h.imp id fun h => ⟨h.1, ⟨h.2.1, h.2.2⟩⟩
  move w w' hrunning h hmove := by
    have h : w.Sound := by
      cases h with
      | inl hfailed =>
        obtain ⟨e, hphase, -⟩ := hfailed
        exact absurd ⟨e, hphase⟩ (not_failed_of_running hrunning)
      | inr h => exact h.2
    cases hmove with
    | halted hhalts =>
      refine Or.inl ⟨_, hhalts.phase_eq, ?_⟩
      rw [hhalts.ends.fatal_eq, h.noFatal, Bool.false_or]
    | opened hphase hw => exact Or.inr ⟨by simp [failed], h.later hw rfl (add_zero _).symm⟩
    | connected hphase hw hfrom hto =>
      refine Or.inr ⟨by simp [failed], hw.fatal_eq.trans h.noFatal, ?_⟩
      obtain ⟨succeeded, hcounted⟩ := h.counted
      exact ⟨succeeded, hcounted.trans (congrArg (· + _) hw.count_eq.symm)⟩
    | refused hphase hw =>
      exact Or.inr ⟨by simp [failed], h.later hw rfl (counts_countConnectError _)⟩
    | gaveUp hphase hw =>
      exact Or.inr ⟨by simp [failed], h.later hw rfl (counts_countConnectError _)⟩
    | ranOut hphase hw =>
      exact Or.inr ⟨by simp [failed], h.later hw rfl (counts_countConnectError _)⟩
    | entered hphase => exact Or.inr ⟨by simp [failed, enterLoop], h.noFatal, h.counted⟩
    | ended hphase hactive => exact Or.inr ⟨by simp [failed, goTo], h.noFatal, h.counted⟩
    | idled hidles =>
      refine Or.inr ⟨not_failed_of_loops hidles.loops_after, h.later hidles.later rfl ?_⟩
      rw [hidles.summary_eq, add_zero]
    | handled hidles hc hturns =>
      exact Or.inr ⟨not_failed_of_loops hidles.loops_after,
        h.turn hidles hturns.steady hturns.counts⟩
    | expired hidles hphase ht hdue htoken hgeneration hc hdone hsettles =>
      exact Or.inr ⟨not_failed_of_loops hidles.loops_after,
        h.turn hidles hsettles.steady hsettles.counts⟩

/-- Where the loop runs, a step touches one connection at most. -/
theorem step_others (hloops : w.phase.loops = true) :
    ∃ token : ℕ, ∀ other : ℕ, other ≠ token →
      w.step.connections[other]? = w.connections[other]? := by
  have hrunning : w.phase.isFinished = false := by
    cases hp : w.phase with
    | finished result =>
      rw [hp] at hloops
      cases hloops
    | _ => rfl
  have hset : ∀ {P : Timer → Prop} {w₁ : Worker}, Idles P w w₁ → w₁.connections = w.connections :=
    fun hidles => hidles.connections_eq
  have hmove := step_moves hrunning
  generalize w.step = w' at hmove
  cases hmove with
  | halted hhalts => exact ⟨0, fun _ _ => by rw [hhalts.connections_eq]⟩
  | opened hphase => rw [hphase] at hloops; cases hloops
  | connected hphase => rw [hphase] at hloops; cases hloops
  | refused hphase => rw [hphase] at hloops; cases hloops
  | gaveUp hphase => rw [hphase] at hloops; cases hloops
  | ranOut hphase => rw [hphase] at hloops; cases hloops
  | entered hphase => rw [hphase] at hloops; cases hloops
  | ended hphase hactive => exact ⟨0, fun _ _ => rfl⟩
  | idled hidles => exact ⟨0, fun _ _ => by rw [hidles.connections_eq]⟩
  | @handled w₁ token c d hidles hc hturns =>
    refine ⟨token, fun other hother => ?_⟩
    rw [← hset hidles]
    exact List.getElem?_set_ne (Ne.symm hother)
  | @expired w₁ token now t c d hidles hphase ht hdue htoken hgeneration hc hdone hsettles =>
    refine ⟨token, fun other hother => ?_⟩
    rw [← hset hidles]
    exact List.getElem?_set_ne (Ne.symm hother)

/-- What failures do to a worker: they do not end it by an I/O error, each is counted once and
by its own counter, and a step reaches no other connection. The recovery attempts have those
that succeeded in addition. -/
structure Isolates (w : Worker) : Prop where
  not_io : ∀ error, w.phase ≠ .finished (.error (.error (.io error)))
  counted : ¬ w.failed →
    ∃ succeeded, w.summary.counts = w.world.counts + Pi.single .attempts succeeded
  others : w.phase.loops = true → ∃ token : ℕ, ∀ other : ℕ, other ≠ token →
    w.step.connections[other]? = w.connections[other]?

theorem EndsSoundly.isolates_unless (h : w.EndsSoundly)
    (hservices : ∀ f ∈ w.world.failures, f.operation ≠ .service) :
    w.Isolates ↔ ∀ f ∈ w.world.failures, f.operation.unguarded = false := by
  rw [← World.hasFatal_eq_false_iff hservices]
  constructor
  · intro hisolates
    cases h with
    | inr hsound => exact hsound.2.noFatal
    | inl hends =>
      obtain ⟨e, hphase, hfatal⟩ := hends
      rw [hfatal]
      cases e with
      | error e =>
        cases e with
        | io error => exact absurd hphase (hisolates.not_io error)
        | _ => rfl
      | _ => rfl
  · intro hfatal
    refine ⟨?_, ?_, step_others⟩
    · intro error hphase
      cases h with
      | inr hsound => exact hsound.1 ⟨_, hphase⟩
      | inl hends =>
        obtain ⟨e, hphase', heq⟩ := hends
        rw [hphase] at hphase'
        cases hphase'
        rw [hfatal] at heq
        cases heq
    · intro hrunning
      cases h with
      | inr hsound => exact hsound.2.counted
      | inl hends => exact absurd ⟨_, hends.choose_spec.1⟩ hrunning

end Worker

namespace RunInput

theorem endsSoundly (input : RunInput) (schedule : List ℕ) :
    ∀ w ∈ (input.after schedule).components, w.EndsSoundly := by
  apply input.forall_worker Worker.invariant_endsSoundly
  intro limits _ worker
  refine Or.inr ⟨?_, rfl, 0, ?_⟩
  · rintro ⟨e, he⟩
    cases he
  · funext counter
    cases counter <;> rfl

/-- Where the poll and its registry never fail, the failures of transports are isolated in a
worker if and only if none of them meets an unguarded operation. -/
theorem isolates_iff (input : RunInput) (schedule : List ℕ)
    (hservices : ∀ w ∈ (input.after schedule).components, ∀ f ∈ w.world.failures,
      f.operation ≠ .service) :
    ∀ w ∈ (input.after schedule).components,
      w.Isolates ↔ ∀ f ∈ w.world.failures, f.operation.unguarded = false :=
  fun w hw => (input.endsSoundly schedule w hw).isolates_unless (hservices w hw)

def connectionReset : IoError := ⟨.other, "connection reset by peer"⟩

/-- Every read of the response fails. -/
def resetRun : RunInput :=
  plain (.requests 1) 1 (.inOrder [getRoot]) none fun _ =>
    { promptReply with reads := [.error connectionReset] }

theorem isolates_iff_sample :
    (resetRun.after (List.replicate 24 0)).components.length = 1 ∧
      ∀ w ∈ (resetRun.after (List.replicate 24 0)).components,
        w.world.failures.length = 4 ∧ w.Isolates := by
  have hfailures : (resetRun.after (List.replicate 24 0)).components.length = 1 ∧
      ∀ w ∈ (resetRun.after (List.replicate 24 0)).components, w.world.failures.length = 4 ∧
        ∀ f ∈ w.world.failures, f.operation ≠ .service ∧ f.operation.unguarded = false := by
    decide +kernel
  refine ⟨hfailures.1, fun w hw => ⟨(hfailures.2 w hw).1, ?_⟩⟩
  have hservices : ∀ w ∈ (resetRun.after (List.replicate 24 0)).components,
      ∀ f ∈ w.world.failures, f.operation ≠ .service :=
    fun w hw f hf => ((hfailures.2 w hw).2 f hf).1
  exact (isolates_iff resetRun _ hservices w hw).mpr fun f hf => ((hfailures.2 w hw).2 f hf).2

/-- The first write of the second request, inside `finish_response`, fails. -/
def lateResetRun : RunInput :=
  plain (.requests 2) 1 (.inOrder [getRoot]) none fun call =>
    if call = 16 then { promptReply with writes := [.error connectionReset] } else promptReply

def endsByIo (w : Worker) : Bool :=
  match w.phase with
  | .finished (.error h) => h.isIo
  | _ => false

theorem late_reset_ends_worker :
    ¬ ∀ (input : RunInput) (schedule : List ℕ), input.prepared.config.validate = .ok () →
      input.tls = false →
      (∀ w ∈ (input.after schedule).components, ∀ f ∈ w.world.failures,
        f.operation ≠ .service) →
      ∀ w ∈ (input.after schedule).components, w.Isolates := by
  intro h
  have hends : (∀ w ∈ (lateResetRun.after (List.replicate 6 0)).components,
        ∀ f ∈ w.world.failures, f.operation ≠ .service) ∧
      ∃ w ∈ (lateResetRun.after (List.replicate 6 0)).components, endsByIo w = true := by
    decide +kernel
  obtain ⟨hservices, w, hw, hio⟩ := hends
  have hnot := (h lateResetRun (List.replicate 6 0) rfl rfl hservices w hw).not_io
  unfold endsByIo at hio
  split at hio
  · rename_i e hphase
    cases e with
    | error e =>
      cases e with
      | io error => exact hnot error hphase
      | _ => cases hio
    | _ => cases hio
  · cases hio

end RunInput

end Rload
