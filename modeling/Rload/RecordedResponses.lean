import Rload.CorrectedSummaries
import Rload.ObservedRuns
import Rload.RunOutcomes

/-!
# The responses that a run records

Each step of a worker records at most one response. What the summaries say about responses is
what these responses make of it.
-/

namespace Rload
open StatefulPrograms AdditiveSummaries

/-- A response that is recorded, with the connection as it was before the reading and after it,
and the time at which the reading was over. -/
structure Answer where
  connection : Connection
  after : Connection
  response : CompletedResponse
  uri : Uri
  time : ℕ
  deriving DecidableEq, Repr

/-- What `record_response` is given. -/
def Answer.recorded (a : Answer) : RecordedResponse :=
  ⟨a.response.method, a.uri, a.response.status, a.response.latency⟩

namespace Desk

variable (token timeout : ℕ)

/-- The branches before that of a readable event. The result tells whether the connection is
read then. -/
def beforeReading (event : Event) : DeskM Bool := do
  let c ← getConnection
  if c.done then pure false
  else if ← if event.isError then handleError token timeout else pure false then pure false
  else if ← if event.isWritable then handleWritable token timeout else pure false then pure false
  else pure (event.isReadable || event.isReadClosed)

theorem handleEvent_eq (event : Event) :
    handleEvent token timeout event = (do
      if ← beforeReading token timeout event then handleReadable token timeout
      else pure ()) := by
  have hite : ∀ {c : Prop} [Decidable c] (m n : DeskM Bool) (k : Bool → DeskM Unit),
      (if c then m else n) >>= k = if c then m >>= k else n >>= k := by
    intro c _ m n k
    split <;> rfl
  unfold handleEvent beforeReading
  simp only [bind_assoc, hite, pure_bind, Bool.false_eq_true, if_false]

/-- The response that reading the connection gives, if it is complete. -/
def readAnswer (d : Desk) : Option Answer :=
  match Connection.readResponse d.session with
  | .ok (some response) s =>
    (recordedUri response).map fun uri => ⟨d.connection, s.connection, response, uri, s.world.clock⟩
  | _ => none

/-- The response that is recorded when the event is handled. -/
def answer (event : Event) (d : Desk) : Option Answer :=
  match beforeReading token timeout event d with
  | .ok true d => d.readAnswer
  | _ => none

end Desk

/-- The response that the next step of the worker records. -/
def Worker.answer? (w : Worker) : Option Answer :=
  match w.phase with
  | .handling (event :: _) =>
    w.connections[event.token]?.bind fun c => (w.desk c).answer event.token w.timeout event
  | _ => none

namespace RunSummary

/-- What a summary says about responses. -/
def responsePart (s : RunSummary) : RunSummary where
  completed := s.completed
  responseBodyBytes := s.responseBodyBytes
  statusErrors := s.statusErrors
  latencies := s.latencies
  methodSummaries := s.methodSummaries
  statusCounts := s.statusCounts
  uriTop := s.uriTop

def countAnswer (s : RunSummary) (a : Answer) : RunSummary :=
  Desk.countResponse a.response a.uri s

/-- The answers are counted from the last of the list to its first. -/
def countAnswers (s : RunSummary) (answers : List Answer) : RunSummary :=
  answers.foldr (fun a s => s.countAnswer a) s

end RunSummary

namespace Desk

/-- The program records no response. -/
def RecordsNone {α : Type} (m : DeskM α) : Prop :=
  ∀ d, Ensures m d (fun _ d' => d'.summary.responsePart = d.summary.responsePart)
    fun _ _ => True

namespace RecordsNone

variable {α β : Type}

theorem pure (a : α) : RecordsNone (Pure.pure a : DeskM α) := fun _ => rfl

theorem throw (e : Halt) : RecordsNone (MonadExcept.throw e : DeskM α) := fun _ => ⟨⟩

theorem bind {m : DeskM α} {f : α → DeskM β} (hm : RecordsNone m)
    (hf : ∀ a, RecordsNone (f a)) : RecordsNone (m >>= f) := by
  intro d
  rw [ensures_bind]
  apply (hm d).mono
  · intro a d₁ h₁
    apply (hf a d₁).mono
    · intro b d₂ h₂
      exact h₂.trans h₁
    · exact fun _ _ h => h
  · exact fun _ _ h => h

theorem ite {c : Prop} [Decidable c] {m n : DeskM α} (hm : RecordsNone m)
    (hn : RecordsNone n) : RecordsNone (if c then m else n) := by
  split
  · exact hm
  · exact hn

theorem session (m : ConnectionM α) : RecordsNone (liftM m : DeskM α) := by
  intro d
  rw [ensures_session, Ensures]
  split
  · rfl
  · exact ⟨⟩

/-- A branch that may deal with the event comes before the rest. -/
theorem branch {dealing : DeskM Bool} {rest : DeskM α} (b : Bool) (a : α)
    (hdealing : RecordsNone dealing) (hrest : RecordsNone rest) :
    RecordsNone (do if ← if b then dealing else Pure.pure false then Pure.pure a else rest) :=
  ite (bind hdealing fun _ => ite (pure a) hrest) (bind (pure false) fun _ => ite (pure a) hrest)

end RecordsNone

theorem recordsNone_getConnection : RecordsNone getConnection := fun _ => rfl

theorem recordsNone_countError (f : SocketErrors → SocketErrors) : RecordsNone (countError f) :=
  fun _ => rfl

theorem recordsNone_leave : RecordsNone leave := fun _ => rfl

theorem recordsNone_abandon : RecordsNone abandon := fun _ => rfl

theorem recordsNone_countRecoveryAttempts : RecordsNone countRecoveryAttempts :=
  (RecordsNone.session _).bind fun _ _ => rfl

theorem recordsNone_countReadBytes : RecordsNone countReadBytes :=
  (RecordsNone.session _).bind fun _ _ => rfl

section Handlers

variable (token timeout : ℕ)

theorem recordsNone_schedule : RecordsNone (schedule token timeout) := fun _ => rfl

theorem recordsNone_schedulePacing : RecordsNone (schedulePacing token) := fun _ => rfl

theorem recordsNone_recoverOrStop (addError : SocketErrors → SocketErrors) (error : RunError) :
    RecordsNone (recoverOrStop token timeout addError error) := by
  refine (RecordsNone.session _).bind fun recovered => recordsNone_countRecoveryAttempts.bind
    fun _ => .ite ?_ ((RecordsNone.session _).bind fun stopped => .ite ?_ ?_)
  · exact (recordsNone_countError _).bind fun _ => recordsNone_schedule token timeout
  · exact (recordsNone_countError _).bind fun _ => recordsNone_leave
  · refine recordsNone_getConnection.bind fun c => .ite ?_ (.throw _)
    exact (recordsNone_countError _).bind fun _ => recordsNone_abandon

theorem recordsNone_retryOrAbandon : RecordsNone (retryOrAbandon token timeout) :=
  (RecordsNone.session _).bind fun _ => recordsNone_countRecoveryAttempts.bind
    fun _ => .ite (recordsNone_schedule token timeout) recordsNone_abandon

theorem recordsNone_checkHandshake : RecordsNone checkHandshake := by
  refine recordsNone_getConnection.bind fun c => (RecordsNone.session _).bind fun _ =>
    .ite ((RecordsNone.session _).bind fun written => ?_) (.pure _)
  split
  · exact .throw _
  · exact .pure _

theorem recordsNone_failBeforeStart : RecordsNone (failBeforeStart token timeout) :=
  recordsNone_checkHandshake.bind fun _ => (recordsNone_countError _).bind fun _ =>
    (RecordsNone.session _).bind fun _ =>
      .ite (recordsNone_schedulePacing token) (recordsNone_retryOrAbandon token timeout)

theorem recordsNone_handleError : RecordsNone (handleError token timeout) := by
  refine (RecordsNone.session _).bind fun error => ?_
  cases error with
  | none => exact .pure _
  | some error =>
    refine recordsNone_getConnection.bind fun c => .ite ?_ ?_
    · exact (recordsNone_recoverOrStop token timeout _ _).bind fun _ => .pure _
    · exact (recordsNone_failBeforeStart token timeout).bind fun _ => .pure _

theorem recordsNone_handleWritable : RecordsNone (handleWritable token timeout) := by
  refine (RecordsNone.session _).bind fun stopped => .ite ?_
    ((RecordsNone.session _).bind fun pending => ?_)
  · exact recordsNone_leave.bind fun _ => .pure _
  · cases pending with
    | some error => exact (recordsNone_failBeforeStart token timeout).bind fun _ => .pure _
    | none =>
      refine recordsNone_getConnection.bind fun before => (RecordsNone.session _).bind
        fun written => ?_
      split
      · exact .throw _
      · refine recordsNone_getConnection.bind fun c => ?_
        split
        · exact (recordsNone_countError _).bind fun _ =>
            (recordsNone_retryOrAbandon token timeout).bind fun _ => .pure _
        · exact (recordsNone_recoverOrStop token timeout _ _).bind fun _ => .pure _
      · exact (RecordsNone.session _).bind fun _ => recordsNone_getConnection.bind fun c =>
          .ite ((recordsNone_schedule token timeout).bind fun _ => .pure _) (.pure _)

theorem recordsNone_beforeReading (event : Event) :
    RecordsNone (beforeReading token timeout event) :=
  recordsNone_getConnection.bind fun _ => .ite (.pure _)
    (.branch _ _ (recordsNone_handleError token timeout)
      (.branch _ _ (recordsNone_handleWritable token timeout) (.pure _)))

theorem recordsNone_handleExpired : RecordsNone (handleExpired token timeout) := by
  refine (RecordsNone.session _).bind fun expiration => ?_
  cases expiration with
  | stopped => exact recordsNone_leave
  | requestTimeout =>
    exact RecordsNone.bind (fun _ => rfl) fun _ => (recordsNone_countError _).bind fun _ =>
      recordsNone_recoverOrStop token timeout _ _
  | connectionTimeout =>
    exact RecordsNone.bind (fun _ => rfl) fun _ => (recordsNone_countError _).bind fun _ =>
      recordsNone_retryOrAbandon token timeout

theorem recordsNone_handlePace : RecordsNone handlePace :=
  (RecordsNone.session _).bind fun _ => .ite recordsNone_leave (.session _)

end Handlers

end Desk

namespace Desk

variable (token timeout : ℕ)

/-- The program records the answers. -/
def Records {α : Type} (m : DeskM α) (d : Desk) (answers : List Answer) : Prop :=
  Ensures m d (fun _ d' => d'.summary.responsePart = d.summary.responsePart.countAnswers answers)
    fun _ _ => True

theorem RecordsNone.records {α : Type} {m : DeskM α} (h : RecordsNone m) (d : Desk) :
    Records m d [] := h d

/-- Reading and what follows, after a reading that is not an answer. -/
theorem recordsNone_afterReading (response : Except RunError (Option CompletedResponse))
    (hnone : ∀ r, response ≠ .ok (some r)) :
    RecordsNone (do
      countReadBytes
      let c ← getConnection
      match response with
      | .ok (some response) => handleResponse token timeout response
      | .ok none => liftM Connection.refreshInterest
      | .error (.io error) =>
        if c.hasStarted then recoverOrStop token timeout SocketErrors.addRead (.io error)
        else if error.kind = .notConnected then liftM Connection.refreshInterest
        else failBeforeStart token timeout
      | .error error => MonadExcept.throw (.error error)) := by
  refine recordsNone_countReadBytes.bind fun _ => recordsNone_getConnection.bind fun c => ?_
  split
  · exact absurd rfl (hnone _)
  · exact .session _
  · exact .ite (recordsNone_recoverOrStop token timeout _ _)
      (.ite (.session _) (recordsNone_failBeforeStart token timeout))
  · exact .throw _

theorem handleResponse_records (a : Answer) (huri : recordedUri a.response = some a.uri)
    (d : Desk) : Records (handleResponse token timeout a.response) d [a] := by
  have hrest : RecordsNone (do
      if ← liftM (Connection.finishResponse a.response.connectionClose) then leave
      else schedule token timeout : DeskM Unit) :=
    (RecordsNone.session _).bind fun _ =>
      .ite recordsNone_leave (recordsNone_schedule token timeout)
  unfold Records handleResponse
  rw [huri, ensures_bind]
  exact hrest (d.counted (countResponse a.response a.uri))

theorem handleReadable_records (d : Desk) :
    Records (handleReadable token timeout) d d.readAnswer.toList := by
  unfold Records handleReadable readAnswer
  rw [ensures_bind, ensures_session, Ensures, attempt]
  cases hread : Connection.readResponse d.session with
  | ok response s =>
    cases response with
    | none =>
      exact recordsNone_afterReading token timeout (.ok none) (fun _ h => by cases h)
        (d.withSession s)
    | some response =>
      cases huri : recordedUri response with
      | none =>
        simp only [ensures_bind, handleResponse, huri]
        exact ⟨⟩
      | some uri =>
        simp only [ensures_bind, ensures_countReadBytes, ensures_getConnection, huri,
          Option.map_some, Option.toList_some]
        exact handleResponse_records token timeout
          ⟨d.connection, s.connection, response, uri, s.world.clock⟩
          huri (d.withSession s).countedBytes
  | error e s =>
    cases e with
    | error error =>
      exact recordsNone_afterReading token timeout (.error error) (fun _ h => by cases h)
        (d.withSession s)
    | panic message => exact ⟨⟩
    | diverge => exact ⟨⟩

theorem handleEvent_records (event : Event) (d : Desk) :
    Records (handleEvent token timeout event) d (d.answer token timeout event).toList := by
  have hbefore := recordsNone_beforeReading token timeout event d
  unfold Records answer
  rw [handleEvent_eq, ensures_bind]
  unfold Ensures at hbefore ⊢
  cases hreading : beforeReading token timeout event d with
  | error e d₁ => exact ⟨⟩
  | ok reading d₁ =>
    rw [hreading] at hbefore
    cases reading with
    | false => exact hbefore
    | true =>
      change _ = _ at hbefore
      change Ensures (handleReadable token timeout) d₁ _ _
      rw [← hbefore]
      exact handleReadable_records token timeout d₁

end Desk

namespace Worker

/-- The worker has failed, or its summary has the answers in addition. -/
def Adds (w : Worker) (answers : List Answer) (w' : Worker) : Prop :=
  w'.failed ∨ w'.summary.responsePart = w.summary.responsePart.countAnswers answers

theorem adds_halt (w w₁ : Worker) (answers : List Answer) (h : Halt) (world : World) :
    Adds w answers (w₁.halt h world) := Or.inl ⟨h, rfl⟩

theorem work_adds {token : ℕ} {handler : DeskM Unit} {w w₁ : Worker} {answers : List Answer}
    (hsummary : w₁.summary = w.summary)
    (h : ∀ c, w₁.connections[token]? = some c → Desk.Records handler (w₁.desk c) answers) :
    Adds w answers (w₁.work token handler) := by
  unfold work
  cases hc : w₁.connections[token]? with
  | none => exact adds_halt w w₁ answers _ _
  | some c =>
    have hrecords := h c hc
    unfold Desk.Records Ensures at hrecords
    cases hd : handler (w₁.desk c) with
    | error e d =>
      simp only [hd]
      exact adds_halt w w₁ answers _ _
    | ok _ d =>
      rw [hd] at hrecords
      simp only [hd]
      exact Or.inr (hsummary ▸ hrecords)

theorem openPoll_adds (limits : List ConnectionLimit) (w : Worker) :
    Adds w [] (w.openPoll limits) := by
  unfold openPoll
  split
  · exact adds_halt w w [] _ _
  · exact Or.inr rfl

theorem readClock_adds (next : ℕ → Phase) (w : Worker) : Adds w [] (w.readClock next) := by
  unfold readClock
  split
  · exact adds_halt w w [] _ _
  · exact Or.inr rfl

theorem poll_adds {w w₁ : Worker} (hsummary : w₁.summary = w.summary) : Adds w [] w₁.poll := by
  unfold poll
  simp only
  split
  · exact adds_halt w w₁ [] _ _
  · exact Or.inr (congrArg RunSummary.responsePart hsummary)

theorem attemptFailed_adds (limit : ConnectionLimit) (limits : List ConnectionLimit)
    (attempts : ℕ) {w w₁ : Worker} (hsummary : w₁.summary = w.summary) :
    Adds w [] (attemptFailed limit limits attempts w₁) := by
  have hsame : w₁.summary.responsePart = w.summary.responsePart :=
    congrArg RunSummary.responsePart hsummary
  unfold attemptFailed
  cases limit with
  | deadline deadline =>
    simp only [now_eq]
    split
    · exact Or.inr hsame
    · rw [sleep_eq]
      exact Or.inr hsame
  | requests requests =>
    simp only
    split
    · exact Or.inr hsame
    · rw [sleep_eq]
      exact Or.inr hsame

theorem startNext_adds (limit : ConnectionLimit) (limits : List ConnectionLimit) (attempts : ℕ)
    (w : Worker) : Adds w [] (startNext limit limits attempts w) := by
  unfold startNext
  split
  · split
    · exact attemptFailed_adds limit limits attempts rfl
    · exact adds_halt w w [] _ _
  · split
    · exact adds_halt w w [] _ _
    · exact Or.inr rfl

/-- A step adds the response that it records. -/
theorem step_adds (w : Worker) : Adds w w.answer?.toList w.step := by
  cases hphase : w.phase with
  | handling events =>
    cases events with
    | nil =>
      simp only [step, answer?, hphase]
      exact readClock_adds _ w
    | cons event events =>
      simp only [step, answer?, hphase]
      apply work_adds rfl
      intro c hc
      have hc : w.connections[event.token]? = some c := hc
      rw [hc, Option.bind_some]
      exact Desk.handleEvent_records event.token w.timeout event (w.desk c)
  | opening limits =>
    simp only [step, answer?, hphase]
    exact openPoll_adds limits w
  | starting limits attempts =>
    cases limits with
    | nil =>
      simp only [step, answer?, hphase]
      exact Or.inr rfl
    | cons limit limits =>
      simp only [step, answer?, hphase]
      exact startNext_adds limit limits attempts w
  | polling =>
    simp only [step, answer?, hphase]
    split
    · exact Or.inr rfl
    · exact poll_adds rfl
  | expiring now =>
    simp only [step, answer?, hphase]
    split
    · exact readClock_adds _ w
    · split
      · exact Or.inr rfl
      · apply work_adds rfl
        intro c _
        exact (Desk.recordsNone_handleExpired _ _).records _
  | resuming now =>
    simp only [step, answer?, hphase]
    split
    · exact Or.inr rfl
    · split
      · exact Or.inr rfl
      · apply work_adds rfl
        intro c _
        exact Desk.recordsNone_handlePace.records _
  | finished result =>
    simp only [step, answer?, hphase]
    exact Or.inr rfl

/-- The response that the worker records in its next turn. -/
def look (w : Worker) (sequence : RequestSequence) : List Answer :=
  (w.sharing sequence).answer?.toList

end Worker

namespace RunSummary

theorem Agrees.merge {s s' t t' : RunSummary} (h : s.Agrees s') (ht : t.Agrees t') :
    (s.merge t).Agrees (s'.merge t') where
  completed := congrArg₂ (· + ·) h.completed ht.completed
  statusErrors := congrArg₂ (· + ·) h.statusErrors ht.statusErrors
  statusCounts := congrArg₂ StatusCounts.merge h.statusCounts ht.statusCounts
  methodSummaries := congrArg₂ (fun f g m => (f m).merge (g m)) h.methodSummaries
    ht.methodSummaries
  latencies := congrArg₂ LatencyHistogram.merge h.latencies ht.latencies

theorem Agrees.refl (s : RunSummary) : s.Agrees s := ⟨rfl, rfl, rfl, rfl, rfl⟩

theorem Agrees.trans {s t u : RunSummary} (h : s.Agrees t) (h' : t.Agrees u) : s.Agrees u where
  completed := h.completed.trans h'.completed
  statusErrors := h.statusErrors.trans h'.statusErrors
  statusCounts := h.statusCounts.trans h'.statusCounts
  methodSummaries := h.methodSummaries.trans h'.methodSummaries
  latencies := h.latencies.trans h'.latencies

theorem agrees_responsePart (s : RunSummary) : s.Agrees s.responsePart :=
  ⟨rfl, rfl, rfl, rfl, rfl⟩

theorem agrees_foldl_merge {summaries others : List RunSummary}
    (h : List.Forall₂ Agrees summaries others) {s t : RunSummary} (hst : s.Agrees t) :
    (summaries.foldl merge s).Agrees (others.foldl merge t) := by
  induction h generalizing s t with
  | nil => exact hst
  | cons hhead _ ih => exact ih (hst.merge hhead)

theorem completeSummary_agrees (prepared : PreparedRun) (s : RunSummary) :
    (completeSummary prepared s).Agrees s := ⟨rfl, rfl, rfl, rfl, rfl⟩

/-- Answers count as the responses recorded one after the other. -/
theorem countAnswers_agrees (answers : List Answer) :
    (countAnswers {} answers).Agrees (recordAll (answers.reverse.map Answer.recorded)) := by
  have hrecord : ∀ (s : RunSummary) (a : Answer),
      (s.countAnswer a).Agrees (s.recordOne a.recorded) :=
    fun s a => ⟨rfl, rfl, rfl, rfl, rfl⟩
  have hcongr : ∀ {s t : RunSummary} (r : RecordedResponse), s.Agrees t →
      (s.recordOne r).Agrees (t.recordOne r) := by
    intro s t r h
    exact ⟨congrArg (· + 1) h.completed, congrArg (· + _) h.statusErrors,
      congrArg (StatusCounts.record · r.status) h.statusCounts,
      congrArg (fun f m => if m = r.method then (f m).record r.status r.latency else f m)
        h.methodSummaries,
      congrArg (LatencyHistogram.record · r.latency) h.latencies⟩
  induction answers with
  | nil => exact .refl _
  | cons a answers ih =>
    rw [List.reverse_cons, List.map_append, recordAll, List.foldl_append]
    exact (hrecord _ a).trans (hcongr a.recorded ih)

end RunSummary

theorem mergeAll_eq_ok {summary merged : RunSummary} {results : List (Except RunError RunSummary)}
    (h : mergeAll summary results = .ok merged) :
    ∃ summaries : List RunSummary,
      results = summaries.map .ok ∧ merged = summaries.foldl .merge summary := by
  induction results generalizing summary with
  | nil =>
    cases h
    exact ⟨[], rfl, rfl⟩
  | cons result results ih =>
    cases result with
    | error e => cases h
    | ok other =>
      obtain ⟨summaries, rfl, hmerged⟩ := ih h
      exact ⟨other :: summaries, rfl, hmerged⟩

/-- A run that returns merges the summaries with which its workers have finished. -/
theorem LoadRun.outcome_eq_ok {prepared : PreparedRun} {r : LoadRun} {summary : RunSummary}
    (h : r.outcome prepared = some (.ok summary)) :
    ∃ summaries : List RunSummary,
      List.Forall₂ (fun w s => w.phase = .finished (.ok s)) r.components summaries ∧
      summary = completeSummary prepared (summaries.foldl .merge {}) := by
  unfold outcome at h
  cases hresults : r.components.mapM Worker.result? with
  | none =>
    rw [hresults] at h
    cases h
  | some results =>
    rw [hresults] at h
    cases hmerge : mergeAll {} results with
    | error e =>
      rw [Option.map_some, hmerge] at h
      cases h
    | ok merged =>
      rw [Option.map_some, hmerge] at h
      cases h
      obtain ⟨summaries, rfl, rfl⟩ := mergeAll_eq_ok hmerge
      refine ⟨summaries, ?_, rfl⟩
      have hall := forall₂_mapM hresults
      rw [List.forall₂_map_right_iff] at hall
      exact hall.imp fun w s => Worker.phase_of_result

namespace RunInput

variable (input : RunInput)

/-- The run with the answers that each worker has recorded. -/
def observed (schedule : List ℕ) : SharedResource (Worker × List Answer) RequestSequence :=
  input.start.observedRun Worker.shareStep Worker.look schedule

/-- The responses that the workers have recorded, worker by worker. -/
def answers (schedule : List ℕ) : List Answer :=
  ((input.observed schedule).components.map Prod.snd).flatten

theorem observed_components (schedule : List ℕ) :
    (input.observed schedule).components.map Prod.fst = (input.after schedule).components :=
  congrArg SharedResource.components
    (SharedResource.forget_observedRun Worker.shareStep Worker.look input.start schedule)

/-- The summary of a worker counts what the worker has recorded. -/
theorem summary_answers (schedule : List ℕ) :
    ∀ a ∈ (input.observed schedule).components,
      a.1.failed ∨ a.1.summary.responsePart = RunSummary.countAnswers {} a.2 := by
  apply SharedResource.forall_observed Worker.shareStep Worker.look
    (P := fun w seen => w.failed ∨ w.summary.responsePart = RunSummary.countAnswers {} seen)
  · intro w sequence seen h
    cases h with
    | inl hfailed => exact Or.inl (Worker.failed_step (w := w.sharing sequence) hfailed)
    | inr hsummary =>
      cases (w.sharing sequence).step_adds with
      | inl hfailed => exact Or.inl hfailed
      | inr hadds =>
        refine Or.inr (hadds.trans ?_)
        rw [show (w.sharing sequence).summary.responsePart = _ from hsummary]
        exact List.foldr_append.symm
  · intro w hw
    rw [start_components, List.mem_map] at hw
    obtain ⟨⟨limits, worker⟩, -, rfl⟩ := hw
    exact Or.inr rfl

/-- What a run reports about responses is what it has recorded. -/
theorem outcome_agrees (schedule : List ℕ) {summary : RunSummary}
    (h : (input.after schedule).outcome input.prepared = some (.ok summary)) :
    summary.Agrees (RunSummary.recordAll ((input.answers schedule).map Answer.recorded)) := by
  obtain ⟨summaries, hall, rfl⟩ := LoadRun.outcome_eq_ok h
  have hreturned := input.forall_worker Worker.invariant_returned
    (fun limits _ worker s hs => by cases hs) schedule
  rw [← observed_components, List.forall₂_map_left_iff] at hall
  have hworker : ∀ a ∈ (input.observed schedule).components, ∀ s,
      a.1.phase = .finished (.ok s) →
        s.Agrees (RunSummary.recordAll (a.2.reverse.map Answer.recorded)) := by
    intro a ha s hs
    have hmem : a.1 ∈ (input.after schedule).components :=
      input.observed_components schedule ▸ List.mem_map_of_mem ha
    rw [hreturned a.1 hmem s hs]
    cases input.summary_answers schedule a ha with
    | inl hfailed =>
      obtain ⟨e, hfailed⟩ := hfailed
      rw [hs] at hfailed
      cases hfailed
    | inr hsummary =>
      apply (RunSummary.agrees_responsePart _).trans
      rw [hsummary]
      exact RunSummary.countAnswers_agrees a.2
  have hsummaries : List.Forall₂ RunSummary.Agrees summaries
      (((input.observed schedule).components.map fun a =>
        a.2.reverse.map Answer.recorded).map RunSummary.recordAll) := by
    rw [List.forall₂_map_right_iff, List.forall₂_map_right_iff]
    apply List.Forall₂.flip
    exact ((List.forall₂_and_left _ _).mpr ⟨hworker, hall⟩).imp fun a s h => h.1 s h.2
  have hparts : (((input.observed schedule).components.map fun a =>
      a.2.reverse.map Answer.recorded).flatten).Perm
        ((input.answers schedule).map Answer.recorded) := by
    rw [answers, List.map_flatten, List.map_map]
    apply List.Perm.flatten_congr
    rw [List.forall₂_map_left_iff, List.forall₂_map_right_iff]
    exact List.forall₂_same.mpr fun a _ => (List.reverse_perm a.2).map Answer.recorded
  have hmerged := RunSummary.agrees_foldl_merge hsummaries (.refl {})
  exact (RunSummary.completeSummary_agrees _ _).trans
    (hmerged.trans (RunSummary.foldl_merge_agrees hparts))

end RunInput

end Rload
