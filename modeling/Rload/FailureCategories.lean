import Rload.FailureIsolation
import Rload.RecoveryBudget

/-!
# The categories of socket errors

Each failed attempt of a transport belongs to a category, and the summary counts it there once,
but for two kinds of failures: a connect attempt that fails inside the recovery of a fixed
request is not counted as a socket error, and the error of a started request that shows at a
writable event is counted as a connect error.
-/

namespace Rload
open Connection

namespace Failure

/-- The category of a failed attempt of a transport: opening it, writing a request to it,
reading its response, or waiting for that. What the poll and a handshake report in addition
is no attempt of its own. -/
def category (f : Failure) : Option Counter :=
  match f.operation with
  | .service | .handshake => none
  | .session initial => if initial then some .connect else none
  | .connect | .reconnect | .resumeAtPace | .retryAddress _ | .recoverRequest _ => some .connect
  | .write started => some (if started then .write else .connect)
  | .writeNext => some .write
  | .read started =>
    if started then some .read
    else if f.error.kind = .notConnected then none
    else some .connect
  | .socket started written | .writableSocket started written =>
    some (if started then if written then .read else .write else .connect)
  | .expiry started => some (if started then .timeout else .connect)

/-- The code does not count the failure in its category. -/
def isMiscounted (f : Failure) : Bool :=
  match f.operation with
  | .retryAddress deadline | .recoverRequest deadline => !deadline
  | .writableSocket started _ => started
  | _ => false

theorem category_eq_counter {f : Failure} (h : f.isMiscounted = false) :
    f.category = f.counter := by
  obtain ⟨operation, error⟩ := f
  cases operation with
  | retryAddress deadline =>
    cases deadline with
    | true => rfl
    | false => cases h
  | recoverRequest deadline =>
    cases deadline with
    | true => rfl
    | false => cases h
  | writableSocket started written =>
    cases started with
    | true => cases h
    | false => rfl
  | _ => rfl

theorem category_of_counter {f : Failure} {counter : Counter} (h : f.counter = some counter)
    (hconnect : counter ≠ .connect) (hattempts : counter ≠ .attempts) :
    f.category = some counter := by
  cases hmiscounted : f.isMiscounted with
  | false => rw [category_eq_counter hmiscounted, h]
  | true =>
    obtain ⟨operation, error⟩ := f
    cases operation with
    | retryAddress deadline =>
      cases deadline with
      | true => cases hmiscounted
      | false => exact absurd (Option.some_injective _ h).symm hattempts
    | recoverRequest deadline =>
      cases deadline with
      | true => cases hmiscounted
      | false => exact absurd (Option.some_injective _ h).symm hattempts
    | writableSocket started written => exact absurd (Option.some_injective _ h).symm hconnect
    | _ => cases hmiscounted

/-- A failure that the code does not count in its category is missing from one. -/
theorem category_of_miscounted {f : Failure} (h : f.isMiscounted = true) :
    ∃ counter, f.category = some counter ∧ f.counter ≠ some counter ∧
      (counter = .connect ∧ f.counter = some .attempts ∨ counter = .read ∨ counter = .write) := by
  obtain ⟨operation, error⟩ := f
  cases operation with
  | retryAddress deadline =>
    cases deadline with
    | true => cases h
    | false => exact ⟨.connect, rfl, by simp [counter], Or.inl ⟨rfl, rfl⟩⟩
  | recoverRequest deadline =>
    cases deadline with
    | true => cases h
    | false => exact ⟨.connect, rfl, by simp [counter], Or.inl ⟨rfl, rfl⟩⟩
  | writableSocket started written =>
    obtain rfl : started = true := h
    cases written with
    | true => exact ⟨.read, rfl, by simp [counter], Or.inr (Or.inl rfl)⟩
    | false => exact ⟨.write, rfl, by simp [counter], Or.inr (Or.inr rfl)⟩
  | _ => cases h

theorem category_ne_attempts (f : Failure) : f.category ≠ some .attempts := by
  cases hmiscounted : f.isMiscounted with
  | true =>
    obtain ⟨counter, hcategory, -, hcounter⟩ := category_of_miscounted hmiscounted
    rw [hcategory]
    rintro heq
    cases heq
    rcases hcounter with ⟨h, -⟩ | h | h <;> cases h
  | false =>
    obtain ⟨operation, error⟩ := f
    cases operation with
    | session initial => cases initial <;> simp [category]
    | write started => cases started <;> simp [category]
    | read started =>
      cases started with
      | true => simp [category]
      | false =>
        simp only [category, Bool.false_eq_true, if_false]
        split <;> simp
    | socket started written => cases started <;> cases written <;> simp [category]
    | writableSocket started written => cases started <;> cases written <;> simp [category]
    | expiry started => cases started <;> simp [category]
    | _ => simp [category]

end Failure

namespace Worker

variable {w : Worker}

/-- A worker that returns has counted its failures under their counters. -/
theorem EndsSoundly.counts_eq (h : w.EndsSoundly) {s : RunSummary}
    (hphase : w.phase = .finished (.ok s)) {counter : Counter} (hattempts : counter ≠ .attempts) :
    w.summary.socketErrors.counts counter = w.world.counts counter := by
  cases h with
  | inl hends =>
    obtain ⟨e, herror, -⟩ := hends
    rw [hphase] at herror
    cases herror
  | inr hsound =>
    obtain ⟨succeeded, hcounted⟩ := hsound.2.counted
    have hat := congrFun hcounted counter
    rw [RunSummary.counts, Pi.add_apply, Pi.add_apply, Pi.single_eq_of_ne hattempts,
      Pi.single_eq_of_ne hattempts] at hat
    exact hat

end Worker

/-- Of two counts where the first property implies the second, equality needs the converse. -/
theorem countP_eq_iff_of_imp {α : Type} {p q : α → Bool} {l : List α}
    (h : ∀ a ∈ l, p a = true → q a = true) :
    l.countP p = l.countP q ↔ ∀ a ∈ l, q a = true → p a = true := by
  induction l with
  | nil => simp
  | cons a l ih =>
    rw [List.forall_mem_cons] at h
    have hle := List.countP_mono_left h.2
    have hrest := ih h.2
    have hhead := h.1
    rw [List.countP_cons, List.countP_cons, List.forall_mem_cons, ← hrest]
    cases hp : p a with
    | true =>
      rw [hhead hp]
      simp
    | false =>
      cases hq : q a with
      | true =>
        simp only [Bool.false_eq_true, if_false, if_true, imp_false, not_true, false_and,
          iff_false]
        omega
      | false => simp

def FailureCounts.total (n : FailureCounts) : ℕ :=
  n .connect + n .read + n .write + n .timeout + n .attempts

namespace LoadRun

/-- The failures of all workers. -/
def failures (r : LoadRun) : List Failure := r.components.flatMap (·.world.failures)

/-- How many failures belong to a category. -/
def failuresIn (r : LoadRun) (category : Counter) : ℕ :=
  r.failures.countP (·.category = some category)

/-- How many attempts have failed, whatever the category. -/
def failedAttempts (r : LoadRun) : ℕ := r.failures.countP (·.category.isSome)

theorem failedAttempts_eq (r : LoadRun) :
    r.failedAttempts = FailureCounts.total r.failuresIn := by
  unfold failedAttempts failuresIn FailureCounts.total
  induction r.failures with
  | nil => rfl
  | cons f failures ih =>
    simp only [List.countP_cons]
    rw [ih]
    obtain hnone | ⟨category, hcategory⟩ := Option.eq_none_or_eq_some f.category
    · simp [hnone]
    · cases category <;> simp [hcategory] <;> omega

end LoadRun

theorem additive_socketErrors (counter : Counter) :
    RunSummary.Additive (·.socketErrors.counts counter) where
  empty := by cases counter <;> rfl
  merge s other := by cases counter <;> rfl
  complete _ _ := rfl

theorem SocketErrors.total_counts (e : SocketErrors) :
    FailureCounts.total e.counts = e.total := rfl

namespace RunInput

variable (input : RunInput)

/-- What the summary of a run says is the number of failures under each counter. -/
theorem socketErrors_eq (schedule : List ℕ) {summary : RunSummary}
    (h : (input.after schedule).outcome input.prepared = some (.ok summary)) {counter : Counter}
    (hattempts : counter ≠ .attempts) :
    summary.socketErrors.counts counter =
      (input.after schedule).failures.countP (·.counter = some counter) := by
  obtain ⟨hsum, hreturned⟩ := input.outcome_sum (additive_socketErrors counter) schedule h
  have heach : ∀ w ∈ (input.after schedule).components,
      w.summary.socketErrors.counts counter = w.world.counts counter := by
    intro w hw
    obtain ⟨s, hs⟩ := hreturned w hw
    exact (input.endsSoundly schedule w hw).counts_eq hs hattempts
  rw [hsum, LoadRun.failures, List.countP_flatMap]
  exact congrArg List.sum (List.map_congr_left heach)

/-- The summary of a run counts each failed attempt once and in its category if and only if no
connect attempt has failed inside a recovery under a fixed number of requests, and no started
request has met the error of its socket at a writable event. -/
theorem attempts_categorized (schedule : List ℕ) {summary : RunSummary}
    (h : (input.after schedule).outcome input.prepared = some (.ok summary)) :
    (summary.socketErrors.counts = (input.after schedule).failuresIn ∧
      summary.socketErrors.total = (input.after schedule).failedAttempts) ↔
    ∀ f ∈ (input.after schedule).failures, f.isMiscounted = false := by
  have hcounts : ∀ {counter : Counter}, counter ≠ .attempts →
      summary.socketErrors.counts counter =
        (input.after schedule).failures.countP (·.counter = some counter) :=
    fun hattempts => input.socketErrors_eq schedule h hattempts
  constructor
  · rintro ⟨heq, -⟩ f hf
    by_contra hmiscounted
    rw [Bool.not_eq_false] at hmiscounted
    -- The counters of reads and writes hold only failures of their category.
    have hlater : ∀ counter, counter = .read ∨ counter = .write →
        ∀ f ∈ (input.after schedule).failures, f.category = some counter →
          f.counter = some counter := by
      intro counter hcounter f hf hcategory
      have hne : counter ≠ .connect ∧ counter ≠ .attempts := by
        rcases hcounter with rfl | rfl <;> exact ⟨by simp, by simp⟩
      have hat := (hcounts hne.2).symm.trans (congrFun heq counter)
      have himp : ∀ f ∈ (input.after schedule).failures,
          decide (f.counter = some counter) = true → decide (f.category = some counter) = true := by
        intro f hf hc
        rw [decide_eq_true_eq] at hc ⊢
        exact Failure.category_of_counter hc hne.1 hne.2
      have hall := (countP_eq_iff_of_imp himp).mp hat f hf (decide_eq_true hcategory)
      exact of_decide_eq_true hall
    obtain ⟨counter, hcategory, hmissing, hkind⟩ := Failure.category_of_miscounted hmiscounted
    rcases hkind with ⟨rfl, hattempt⟩ | hcounter
    · -- Then so does the counter of connects.
      have hat := (hcounts (by simp)).symm.trans (congrFun heq .connect)
      have himp : ∀ f ∈ (input.after schedule).failures,
          decide (f.counter = some .connect) = true →
            decide (f.category = some .connect) = true := by
        intro f hf hc
        rw [decide_eq_true_eq] at hc ⊢
        cases hm : f.isMiscounted with
        | false => rw [Failure.category_eq_counter hm, hc]
        | true =>
          obtain ⟨counter, hcategory, hmissing, hkind⟩ := Failure.category_of_miscounted hm
          rcases hkind with ⟨rfl, -⟩ | hcounter
          · exact hcategory
          · exact absurd (hlater counter hcounter f hf hcategory) hmissing
      have hall := (countP_eq_iff_of_imp himp).mp hat f hf (decide_eq_true hcategory)
      exact hmissing (of_decide_eq_true hall)
    · exact hmissing (hlater counter hcounter f hf hcategory)
  · intro hnone
    have heq : summary.socketErrors.counts = (input.after schedule).failuresIn := by
      funext counter
      by_cases hattempts : counter = .attempts
      · subst hattempts
        symm
        rw [LoadRun.failuresIn, List.countP_eq_zero.mpr]
        · rfl
        · intro f _
          simpa using f.category_ne_attempts
      · rw [hcounts hattempts, LoadRun.failuresIn]
        apply List.countP_congr
        intro f hf
        rw [Failure.category_eq_counter (hnone f hf)]
    exact ⟨heq, by rw [LoadRun.failedAttempts_eq, ← heq, SocketErrors.total_counts]⟩

theorem attempts_categorized_sample :
    ∃ summary, (flakyRun.after (List.replicate 19 0)).outcome flakyRun.prepared =
        some (.ok summary) ∧ summary.socketErrors.total = 1 ∧
      summary.socketErrors.counts = (flakyRun.after (List.replicate 19 0)).failuresIn := by
  have hreturns : (flakyRun.after (List.replicate 19 0)).returns flakyRun.prepared = true := by
    decide +kernel
  obtain ⟨summary, h⟩ := LoadRun.exists_of_returns hreturns
  have hnone : ∀ f ∈ (flakyRun.after (List.replicate 19 0)).failures, f.isMiscounted = false := by
    decide +kernel
  have hone : (flakyRun.after (List.replicate 19 0)).failedAttempts = 1 := by decide +kernel
  obtain ⟨hcounts, htotal⟩ := (attempts_categorized flakyRun _ h).mpr hnone
  exact ⟨summary, h, htotal.trans hone, hcounts⟩

/-- The server closes the first connection before it answers, and refuses the next one. -/
def refusedRun : RunInput :=
  plain (.requests 2) 1 (.inOrder [getRoot]) none fun call =>
    if call < 12 then { promptReply with reads := [.ok []] }
    else if call = 13 then { promptReply with fault := some ⟨.other, "connection refused"⟩ }
    else promptReply

/-- The attempt that is refused is missing from the socket errors. -/
theorem refused_attempt_missing :
    ¬ ∀ (input : RunInput) (schedule : List ℕ) (summary : RunSummary),
      input.prepared.config.validate = .ok () →
      (input.after schedule).outcome input.prepared = some (.ok summary) →
      summary.socketErrors.counts = (input.after schedule).failuresIn ∧
        summary.socketErrors.total = (input.after schedule).failedAttempts := by
  intro h
  have hreturns : (refusedRun.after (List.replicate 19 0)).returns refusedRun.prepared = true := by
    decide +kernel
  obtain ⟨summary, houtcome⟩ := LoadRun.exists_of_returns hreturns
  have hcategories := h refusedRun _ summary rfl houtcome
  have hread : (refusedRun.after (List.replicate 19 0)).failures.countP
      (·.counter = some .connect) = 0 := by decide +kernel
  have hcategory : (refusedRun.after (List.replicate 19 0)).failuresIn .connect = 1 := by
    decide +kernel
  have hne : Counter.connect ≠ .attempts := by simp
  have hcounted := socketErrors_eq refusedRun _ houtcome hne
  rw [hcategories.1, hcategory, hread] at hcounted
  cases hcounted

end RunInput

end Rload
