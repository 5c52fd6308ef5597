import Rload.Deadlines
import Rload.PacedRequests
import Rload.RegistryCalls

/-!
# Registered transports

Between the steps of a worker a transport is in the poll exactly when its connection is neither
done nor deferred, and the registry was only asked what fits: as long as no event is dealt with
for a deferred connection. The poll may give two events of one transport, and the first of
them may defer its connection.
-/

namespace Rload
open StatefulPrograms World

namespace Desk

open Posture

def IsProper (d : Desk) : Prop := d.world.IsProper

def posture (d : Desk) : Posture := d.connection.posture

/-- The handler leads from one posture to others, and all its calls are proper. -/
abbrev LeadsFrom {α : Type} (p : Posture) (m : DeskM α) (Q : α → Posture → Prop) : Prop :=
  Leads Desk.IsProper Desk.posture p m Q

section Handlers

variable {α : Type} {p : Posture} {fixed : Bool}

theorem session_leads {m : ConnectionM α} {Q : α → Posture → Prop}
    (hm : Connection.LeadsFrom p m Q) : LeadsFrom p (liftM m : DeskM α) Q :=
  Leads.zoom (fun _ h => ⟨h, rfl⟩) (fun _ _ h => ⟨h, rfl⟩) hm

/-- What has to do with the counters and the queues alone. -/
theorem modify_leads {f : Desk → Desk} (h : ∀ d, (f d).session = d.session) :
    LeadsFrom p (modify f : DeskM Unit) fun _ p' => p' = p := by
  apply Leads.modify
  intro d hd hp
  have hworld : (f d).world = d.world := congrArg Session.world (h d)
  have hconnection : (f d).connection = d.connection := congrArg Session.connection (h d)
  rw [IsProper, posture, hworld, hconnection]
  exact ⟨hd, hp⟩

theorem getConnection_leads :
    LeadsFrom p getConnection fun c p' => p' = p ∧ c.posture = p := fun _ hd hp => ⟨hd, hp, hp⟩

theorem looks : LeadsFrom p getConnection fun _ p' => p' = p := fun _ hd hp => ⟨hd, hp⟩

theorem countError_leads (f : SocketErrors → SocketErrors) :
    LeadsFrom p (countError f) fun _ p' => p' = p := modify_leads fun _ => rfl

theorem leave_leads : LeadsFrom p leave fun _ p' => p' = p := modify_leads fun _ => rfl

theorem abandon_leads : LeadsFrom p abandon fun _ p' => p' = p := modify_leads fun _ => rfl

theorem schedule_leads (token timeout : ℕ) :
    LeadsFrom p (schedule token timeout) fun _ p' => p' = p := modify_leads fun _ => rfl

theorem schedulePacing_leads (token : ℕ) :
    LeadsFrom p (schedulePacing token) fun _ p' => p' = p := modify_leads fun _ => rfl

theorem countRecoveryAttempts_leads :
    LeadsFrom p countRecoveryAttempts fun _ p' => p' = p := fun _ hd hp => ⟨hd, hp⟩

theorem countReadBytes_leads : LeadsFrom p countReadBytes fun _ p' => p' = p :=
  fun _ hd hp => ⟨hd, hp⟩

/-- The last part of a handler leaves one settled posture. -/
theorem settles {m : DeskM Unit} {q : Posture} (hm : LeadsFrom p m fun _ p' => p' = q)
    (hq : q.IsSettled) : LeadsFrom p m fun _ p' => p'.IsSettled := by
  refine hm.mono ?_
  rintro _ _ rfl
  exact hq

variable (token timeout : ℕ)

theorem recoverOrStop_leads (addError : SocketErrors → SocketErrors) (error : RunError) :
    LeadsFrom (working fixed) (recoverOrStop token timeout addError error) fun _ p' =>
      p'.IsSettled := by
  have hgone : ∀ {p : Posture}, p.IsSettled → LeadsFrom p (do
      let c ← getConnection
      if c.done then
        countError addError
        abandon
      else throw (.error error)) fun _ p' => p'.IsSettled := by
    intro p hp
    exact looks.next fun c => .ite
      (fun _ => (countError_leads _).next fun _ => settles abandon_leads hp) fun _ => .throw _
  refine (session_leads Connection.recoverRequest_leads).bind fun recovered p hp =>
    countRecoveryAttempts_leads.next fun _ => .ite (fun hrecovered => ?_) fun hrecovered => ?_
  · rw [hrecovered] at hp
    subst hp
    exact (countError_leads _).next fun _ =>
      settles (schedule_leads token timeout) (isSettled_working fixed)
  · rw [Bool.not_eq_true] at hrecovered
    subst hrecovered
    subst hp
    cases fixed with
    | true =>
      refine (session_leads (Connection.stopAfterDurationError_rests rfl)).bind ?_
      rintro stopped _ ⟨rfl, rfl⟩
      exact .ite (fun h => absurd h Bool.false_ne_true) fun _ => hgone (isSettled_closed true)
    | false =>
      refine (session_leads Connection.stopAfterDurationError_leads).bind ?_
      rintro stopped _ rfl
      refine .ite (fun hstopped => ?_) fun hstopped => ?_
      · rw [if_pos hstopped]
        exact (countError_leads _).next fun _ => settles leave_leads (isSettled_closed false)
      · rw [if_neg hstopped]
        exact hgone (isSettled_working false)

theorem retryOrAbandon_leads :
    LeadsFrom (working fixed) (retryOrAbandon token timeout) fun _ p' => p'.IsSettled := by
  refine (session_leads Connection.retryAddress_leads).bind ?_
  rintro retried _ rfl
  refine countRecoveryAttempts_leads.next fun _ => .ite (fun h => ?_) fun h => ?_
  · rw [if_pos h]
    exact settles (schedule_leads token timeout) (isSettled_working fixed)
  · rw [if_neg h]
    exact settles abandon_leads (isSettled_closed fixed)

/-- Also an error of writing leaves the posture. -/
theorem attemptToWrite_leads (operation : Bool → Operation) :
    LeadsFrom (working fixed) (liftM (attempt runError (Connection.writeRequest operation)) :
      DeskM (Except RunError Unit)) fun _ p' => p' = working fixed := by
  apply session_leads
  apply Leads.of_keeps
  apply KeepsOr.attempt
  intro s hs
  exact (Connection.keepsPosture_writeRequest rfl operation s hs).mono (fun _ _ h => h)
    fun _ _ h => ⟨fun _ _ => h, fun _ => h.1⟩

theorem attemptToRead_leads :
    LeadsFrom (working fixed) (liftM (attempt runError Connection.readResponse) :
      DeskM (Except RunError (Option CompletedResponse))) fun _ p' => p' = working fixed := by
  apply session_leads
  apply Leads.of_keeps
  apply KeepsOr.attempt
  intro s hs
  exact (Connection.keepsPosture_readResponse s hs).mono (fun _ _ h => h)
    fun _ _ h => ⟨fun _ _ => h, fun _ => h.1⟩

theorem checkHandshake_leads :
    LeadsFrom (working fixed) checkHandshake fun _ p' => p' = working fixed := by
  have hhandshaking : ∀ c : Connection, LeadsFrom (working fixed)
      (liftM (liftM c.stream.isTlsHandshaking : ConnectionM Bool) : DeskM Bool)
      fun _ p' => p' = working fixed := fun c =>
    session_leads (Connection.keepsPosture_world c.stream.staysProper_isTlsHandshaking).leads
  refine looks.next fun c => (hhandshaking c).next fun _ =>
    .ite (fun _ => (attemptToWrite_leads _).next fun written => ?_) fun _ => .pure rfl
  split
  · exact .throw _
  · exact .pure rfl

theorem failBeforeStart_leads :
    LeadsFrom (working fixed) (failBeforeStart token timeout) fun _ p' => p'.IsSettled := by
  refine checkHandshake_leads.next fun _ => (countError_leads _).next fun _ =>
    (session_leads Connection.deferReconnectUntilPace_leads).bind ?_
  rintro waits _ rfl
  refine .ite (fun h => ?_) fun h => ?_
  · rw [if_pos h]
    exact settles (schedulePacing_leads token) (isSettled_deferred fixed)
  · rw [if_neg h]
    exact retryOrAbandon_leads token timeout

/-- What a branch leaves: a settled connection, and one at work if the event goes on. -/
def Deals (fixed dealt : Bool) (p : Posture) : Prop :=
  p.IsSettled ∧ (dealt = false → p = working fixed)

theorem deals_true {m : DeskM Unit} (hm : LeadsFrom p m fun _ p' => p'.IsSettled) :
    LeadsFrom p (do
      m
      pure true) (Deals fixed) :=
  hm.bind fun _ _ hp' => .pure ⟨hp', fun h => absurd h (by simp)⟩

/-- A branch that may deal with the event comes before the rest. -/
theorem deals_branch {b : Bool} {dealing : DeskM Bool} {rest : DeskM Unit}
    (hdealing : LeadsFrom (working fixed) dealing (Deals fixed))
    (hrest : LeadsFrom (working fixed) rest fun _ p' => p'.IsSettled) :
    LeadsFrom (working fixed)
      (do if ← if b then dealing else pure false then pure () else rest)
      fun _ p' => p'.IsSettled := by
  have hjoin : ∀ dealt p', Deals fixed dealt p' →
      LeadsFrom p' (if dealt then pure () else rest) fun _ p' => p'.IsSettled := by
    intro dealt p' hp'
    refine .ite (fun _ => .pure hp'.1) fun h => ?_
    rw [hp'.2 (Bool.not_eq_true _ ▸ h)]
    exact hrest
  refine .ite (fun _ => hdealing.bind hjoin) fun _ => Leads.bind (Leads.pure ?_) hjoin
  exact ⟨isSettled_working fixed, fun _ => rfl⟩

theorem handleError_leads :
    LeadsFrom (working fixed) (handleError token timeout) (Deals fixed) := by
  refine (session_leads (Connection.keepsPosture_takeError _).leads).next fun error => ?_
  cases error with
  | none => exact .pure ⟨isSettled_working fixed, fun _ => rfl⟩
  | some error =>
    exact looks.next fun c => .ite
      (fun _ => deals_true (recoverOrStop_leads token timeout _ _))
      fun _ => deals_true (failBeforeStart_leads token timeout)

theorem handleWritable_leads :
    LeadsFrom (working fixed) (handleWritable token timeout) (Deals fixed) := by
  refine (session_leads (Connection.stopIfExpired_leads rfl)).bind ?_
  rintro stopped _ rfl
  refine .ite (fun h => ?_) fun h => ?_
  · rw [if_pos h]
    exact deals_true (settles leave_leads (isSettled_closed fixed))
  · rw [if_neg h]
    refine (session_leads (Connection.keepsPosture_takeError _).leads).next fun pending => ?_
    cases pending with
    | some error => exact deals_true (failBeforeStart_leads token timeout)
    | none =>
      refine looks.next fun before => (attemptToWrite_leads _).next fun written => ?_
      split
      · exact .throw _
      · refine looks.next fun c => ?_
        split
        · exact (countError_leads _).next fun _ => deals_true (retryOrAbandon_leads token timeout)
        · exact deals_true (recoverOrStop_leads token timeout _ _)
      · have hend : LeadsFrom (working fixed) (pure false : DeskM Bool) (Deals fixed) :=
          .pure ⟨isSettled_working fixed, fun _ => rfl⟩
        exact (session_leads Connection.refreshInterest_leads).next fun _ => looks.next fun c =>
          .ite (fun _ => (schedule_leads token timeout).next fun _ => hend) fun _ => hend

theorem handleResponse_leads (response : CompletedResponse) :
    LeadsFrom (working fixed) (handleResponse token timeout response) fun _ p' =>
      p'.IsSettled := by
  unfold handleResponse
  split
  · exact .throw _
  · rename_i uri _
    have hcounted : LeadsFrom (working fixed)
        (modify (counted (countResponse response uri)) : DeskM Unit)
        fun _ p' => p' = working fixed := modify_leads fun _ => rfl
    refine hcounted.next fun _ => (session_leads (Connection.finishResponse_leads _)).bind ?_
    rintro finished _ rfl
    refine .ite (fun h => ?_) fun h => ?_
    · rw [if_pos h]
      exact settles leave_leads (isSettled_closed fixed)
    · rw [if_neg h]
      exact settles (schedule_leads token timeout) (isSettled_working fixed)

theorem handleReadable_leads :
    LeadsFrom (working fixed) (handleReadable token timeout) fun _ p' => p'.IsSettled := by
  have hrefresh : LeadsFrom (working fixed) (liftM Connection.refreshInterest : DeskM Unit)
      fun _ p' => p'.IsSettled :=
    settles (session_leads Connection.refreshInterest_leads) (isSettled_working fixed)
  refine attemptToRead_leads.next fun response => countReadBytes_leads.next fun _ =>
    looks.next fun c => ?_
  split
  · exact handleResponse_leads token timeout _
  · exact hrefresh
  · exact .ite (fun _ => recoverOrStop_leads token timeout _ _) fun _ =>
      .ite (fun _ => hrefresh) fun _ => failBeforeStart_leads token timeout
  · exact .throw _

/-- An event of a connection that is done or not deferred. -/
theorem handleEvent_leads (event : Event) (hp : p.IsSettled)
    (hspared : p.done = false → p.deferral = none) :
    LeadsFrom p (handleEvent token timeout event) fun _ p' => p'.IsSettled := by
  refine getConnection_leads.bind ?_
  rintro c q ⟨rfl, hc⟩
  refine .ite (fun _ => .pure hp) fun hopen => ?_
  have hdone : q.done = false :=
    (congrArg Posture.done hc).symm.trans (Bool.not_eq_true _ ▸ hopen)
  rw [hp.eq_working hdone (hspared hdone)]
  exact deals_branch (handleError_leads token timeout) <|
    deals_branch (handleWritable_leads token timeout) <|
      .ite (fun _ => handleReadable_leads token timeout) fun _ => .pure (isSettled_working q.fixed)

theorem handleExpired_leads :
    LeadsFrom (working fixed) (handleExpired token timeout) fun _ p' => p'.IsSettled := by
  have hnote : ∀ error : IoError, LeadsFrom (working fixed) (noteExpiry error)
      fun _ p' => p' = working fixed := fun error d hd hp => ⟨hd, hp⟩
  refine (session_leads Connection.expire_leads).bind ?_
  rintro expiration _ rfl
  cases expiration with
  | stopped => exact settles leave_leads (isSettled_closed fixed)
  | requestTimeout =>
    exact (hnote _).next fun _ => (countError_leads _).next fun _ =>
      recoverOrStop_leads token timeout _ _
  | connectionTimeout =>
    exact (hnote _).next fun _ => (countError_leads _).next fun _ =>
      retryOrAbandon_leads token timeout

theorem handlePace_leads (hp : p = working fixed ∨ p = deferred fixed) :
    LeadsFrom p handlePace fun _ p' => p'.IsSettled := by
  have hregistered : p.registered = p.deferral.isNone := by
    cases hp with
    | inl h => rw [h]; rfl
    | inr h => rw [h]; rfl
  refine (session_leads (Connection.stopIfExpired_leads hregistered)).bind ?_
  rintro stopped _ rfl
  refine .ite (fun h => ?_) fun h => ?_
  · rw [if_pos h]
    refine settles leave_leads ⟨rfl, ?_⟩
    cases hp with
    | inl h => rw [h]; exact (isSettled_working fixed).2
    | inr h => rw [h]; exact (isSettled_deferred fixed).2
  · rw [if_neg h]
    exact settles (session_leads (Connection.resumeAtPace_leads hp)) (isSettled_working fixed)

end Handlers

end Desk

theorem staysProper_connect (addresses : List SocketAddr) (limit : ConnectionLimit) (tls : Bool) :
    StaysProper (Connection.connect addresses limit tls) :=
  (staysProper_connectFrom _ _ _).bind fun _ => (Transport.staysProper_new _ _).bind fun _ =>
    staysProper_drawRequest.bind fun _ => staysProper_now.bind fun _ => .pure _

namespace Worker

theorem staysProper_untilFirst (q : TimerQueue) : StaysProper (untilFirst q) := by
  unfold untilFirst
  split
  · exact .pure _
  · exact staysProper_now.bind fun _ => .pure _

theorem staysProper_pollTimeout (deadlines pacing : TimerQueue) :
    StaysProper (pollTimeout deadlines pacing) := by
  refine (staysProper_untilFirst _).bind fun left => (staysProper_untilFirst _).bind fun right => ?_
  split
  · exact .pure _
  · exact .pure _

theorem staysProper_pollEvents (timeout : Option ℕ) : StaysProper (pollEvents timeout) :=
  KeepsOr.bind (fun _ h => h) fun _ => staysProper_service.bind fun _ =>
    .ite (KeepsOr.bind (fun _ h => h) fun _ => .pure _) (.pure _)

/-- What the steps of a worker keep of its transports. -/
structure Orderly (w : Worker) : Prop where
  proper : w.world.IsProper
  settled : ∀ c ∈ w.connections, c.posture.IsSettled

/-- The next event is not for a deferred connection. -/
def sparesDeferred (w : Worker) (_ : RequestSequence) : Bool :=
  match w.phase with
  | .handling (event :: _) =>
    w.connections[event.token]?.all fun c => c.done || !c.reconnectAtPace
  | _ => true

variable {w : Worker}

theorem Orderly.work (h : w.Orderly) {token : ℕ} {handler : DeskM Unit}
    (hhandler : ∀ c, w.connections[token]? = some c →
      Desk.LeadsFrom c.posture handler fun _ p' => p'.IsSettled) :
    (w.work token handler).Orderly := by
  unfold Worker.work
  cases hc : w.connections[token]? with
  | none => exact ⟨h.proper, h.settled⟩
  | some c =>
    have hleads := hhandler c hc (w.desk c) h.proper rfl
    cases hd : handler (w.desk c) with
    | error e d =>
      simp only [hd]
      exact ⟨hleads.of_error hd, h.settled⟩
    | ok _ d =>
      simp only [hd]
      obtain ⟨hproper, hsettled⟩ := hleads.of_ok hd
      refine ⟨hproper, fun c' hc' => ?_⟩
      cases mem_connections_withDesk hc' with
      | inl hmem => exact h.settled c' hmem
      | inr heq =>
        rw [heq]
        exact hsettled

theorem Orderly.readClock (h : w.Orderly) (next : ℕ → Phase) : (w.readClock next).Orderly :=
  ⟨h.proper, h.settled⟩

theorem Orderly.openPoll (h : w.Orderly) (limits : List ConnectionLimit) :
    (w.openPoll limits).Orderly := by
  have hservice := staysProper_service w.world h.proper
  unfold Worker.openPoll
  split
  · rename_i e world hrun
    exact ⟨hservice.of_error hrun, h.settled⟩
  · rename_i world hrun
    exact ⟨hservice.of_ok hrun, h.settled⟩

theorem Orderly.attemptFailed (h : w.Orderly) (limit : ConnectionLimit)
    (limits : List ConnectionLimit) (attempts : ℕ) :
    (attemptFailed limit limits attempts w).Orderly := by
  unfold Worker.attemptFailed
  simp only [now_eq, sleep_eq]
  split
  · split
    · exact ⟨h.proper, h.settled⟩
    · exact ⟨h.proper, h.settled⟩
  · split
    · exact ⟨h.proper, h.settled⟩
    · exact ⟨h.proper, h.settled⟩

/-- The transport of a new connection is registered before it is one of the worker's. -/
theorem Orderly.startNext (h : w.Orderly) (limit : ConnectionLimit)
    (limits : List ConnectionLimit) (attempts : ℕ) :
    (startNext limit limits attempts w).Orderly := by
  have hconnect := (Connection.connect_spec w.addresses limit w.tls w.world).and
    (staysProper_connect w.addresses limit w.tls w.world h.proper)
  unfold Worker.startNext
  split
  · rename_i e world hrun
    have hproper : world.IsProper := (hconnect.of_error hrun).2
    have horderly : ({ w with world := world } : Worker).Orderly := ⟨hproper, h.settled⟩
    split
    · exact horderly.attemptFailed limit limits attempts
    · exact ⟨hproper, h.settled⟩
  · rename_i c world hrun
    obtain ⟨⟨drawn, addressIndex, now, -, -, -, rfl⟩, hproper⟩ := hconnect.of_ok hrun
    have hregister := Connection.register_leads
      ⟨Connection.connected w.addresses limit w.tls drawn addressIndex now, world⟩ hproper rfl
    split
    · rename_i e s hrun
      exact ⟨hregister.of_error hrun, h.settled⟩
    · rename_i s hrun
      obtain ⟨hproper, hworking⟩ := hregister.of_ok hrun
      refine ⟨hproper, fun c hc => ?_⟩
      cases List.mem_append.mp hc with
      | inl hmem => exact h.settled c hmem
      | inr hnew =>
        have hposture : c.posture = _ := (congrArg _ (List.mem_singleton.mp hnew)).trans hworking
        rw [hposture]
        exact Posture.isSettled_working _

theorem Orderly.poll (h : w.Orderly) : w.poll.Orderly := by
  have hpoll : StaysProper (do
      let timeout ← pollTimeout w.deadlines w.pacing
      pollEvents timeout) :=
    (staysProper_pollTimeout _ _).bind fun _ => staysProper_pollEvents _
  have hproper := hpoll w.world h.proper
  unfold Worker.poll
  simp only
  split
  · rename_i e world hrun
    exact ⟨hproper.of_error hrun, h.settled⟩
  · rename_i events world hrun
    exact ⟨hproper.of_ok hrun, h.settled⟩

/-- A deferred connection waits for its pace, so that none of its deadlines counts. -/
theorem Timekeeping.deferral_of_due {t : Timer} {c : Connection} (h : w.Timekeeping)
    (hloops : w.phase.loops = true) (ht : t ∈ w.deadlines) (hc : w.connections[t.token]? = some c)
    (hfresh : isStale w.connections t = false) (hsettled : c.posture.IsSettled) :
    c.posture.deferral = none := by
  have hnext := ((h.timed hloops t.token c hc).1 t ht rfl).2 (not_stale_generation hfresh hc)
  have hawaiting := Connection.awaitingPace_of_nextDeadline hnext
  have hwaits := hsettled.2
  rw [Connection.posture, hawaiting] at hwaits ⊢
  split
  · rename_i hdeferred
    rw [if_pos hdeferred] at hwaits
    exact absurd rfl hwaits
  · rfl

theorem Orderly.step (h : w.Orderly) (htime : w.Timekeeping) (sequence : RequestSequence)
    (hspares : w.sparesDeferred sequence) : w.step.Orderly := by
  cases hphase : w.phase with
  | opening limits =>
    simp only [Worker.step, hphase]
    exact h.openPoll limits
  | starting limits attempts =>
    cases limits with
    | nil =>
      simp only [Worker.step, hphase]
      exact ⟨h.proper, h.settled⟩
    | cons limit limits =>
      simp only [Worker.step, hphase]
      exact h.startNext limit limits attempts
  | polling =>
    simp only [Worker.step, hphase]
    split
    · exact ⟨h.proper, h.settled⟩
    · have hdiscarded : w.discardStale.Orderly := ⟨h.proper, h.settled⟩
      exact hdiscarded.poll
  | handling events =>
    cases events with
    | nil =>
      simp only [Worker.step, hphase]
      exact h.readClock _
    | cons event events =>
      simp only [Worker.step, hphase]
      have hnext : (w.goTo (.handling events)).Orderly := ⟨h.proper, h.settled⟩
      refine hnext.work fun c hc => ?_
      have hc : w.connections[event.token]? = some c := hc
      refine Desk.handleEvent_leads event.token w.timeout event
        (h.settled c (List.mem_of_getElem? hc)) fun hopen => ?_
      simp only [sparesDeferred, hphase, hc, Option.all_some, Bool.or_eq_true,
        Bool.not_eq_true'] at hspares
      cases hspares with
      | inl hdone =>
        have hopen : c.done = false := hopen
        rw [hopen] at hdone
        cases hdone
      | inr hundeferred => rw [Connection.posture_of_undeferred hundeferred]
  | expiring now =>
    simp only [Worker.step, hphase]
    split
    · exact h.readClock _
    · rename_i t deadlines hdue
      have htaken : ({ w with deadlines := deadlines, phase := .expiring now } : Worker).Orderly :=
        ⟨h.proper, h.settled⟩
      split
      · exact htaken
      · rename_i hfresh
        refine htaken.work fun c hc => ?_
        have hc : w.connections[t.token]? = some c := hc
        have hsettled := h.settled c (List.mem_of_getElem? hc)
        have ht : t ∈ w.deadlines := by
          rw [(due_eq_some hdue).1]
          exact List.mem_cons_self
        have hfresh : isStale w.connections t = false := Bool.not_eq_true _ ▸ hfresh
        have hdeferral := htime.deferral_of_due (by rw [hphase]; rfl) ht hc hfresh hsettled
        rw [hsettled.eq_working (not_stale_not_done hfresh hc) hdeferral]
        exact Desk.handleExpired_leads t.token w.timeout
  | resuming now =>
    simp only [Worker.step, hphase]
    split
    · exact ⟨h.proper, h.settled⟩
    · rename_i t pacing hdue
      have htaken : ({ w with pacing := pacing, phase := .resuming now } : Worker).Orderly :=
        ⟨h.proper, h.settled⟩
      split
      · exact htaken
      · rename_i hfresh
        refine htaken.work fun c hc => ?_
        have hc : w.connections[t.token]? = some c := hc
        have hsettled := h.settled c (List.mem_of_getElem? hc)
        have hdone : c.done = false := not_stale_not_done (Bool.not_eq_true _ ▸ hfresh) hc
        exact Desk.handlePace_leads (hsettled.cases_open hdone)
  | finished result =>
    rw [step_of_finished (by rw [hphase]; rfl)]
    exact h

theorem orderly_shareStep (w : Worker) (sequence : RequestSequence)
    (hspares : w.sparesDeferred sequence)
    (h : w.Orderly ∧ (∀ c ∈ w.connections, c.Paced w.world.clock) ∧ w.Timekeeping) :
    (w.shareStep sequence).1.Orderly ∧
      (∀ c ∈ (w.shareStep sequence).1.connections,
        c.Paced (w.shareStep sequence).1.world.clock) ∧ (w.shareStep sequence).1.Timekeeping := by
  have hsharing : (w.sharing sequence).Orderly := ⟨h.1.proper, h.1.settled⟩
  have htime := (invariant_timekeeping.sharing w sequence h.2).2
  exact ⟨hsharing.step htime sequence hspares,
    invariant_timekeeping.shareStep w sequence h.2⟩

/-- Between two steps: the registry was asked only what fits, and the transport of a connection
is registered exactly when the connection is neither done nor deferred. -/
structure TransportsRegistered (w : Worker) : Prop where
  calls : ∀ r ∈ w.world.registryCalls, r.isProper = true
  registered_iff : ∀ c ∈ w.connections,
    c.stream.registered.isSome ↔ c.done = false ∧ c.reconnectAtPace = false

theorem Orderly.transportsRegistered (h : w.Orderly) : w.TransportsRegistered := by
  refine ⟨h.proper, fun c hc => ?_⟩
  have hregistered : c.stream.registered.isSome = (!c.done && c.posture.deferral.isNone) :=
    (h.settled c hc).1
  have hdeferral : c.posture.deferral.isNone = !c.reconnectAtPace := by
    rw [Connection.posture]
    cases c.reconnectAtPace with
    | false => rfl
    | true => rfl
  rw [hregistered, hdeferral, Bool.and_eq_true, Bool.not_eq_true', Bool.not_eq_true']

end Worker

namespace RunInput

/-- In every run in which no event is dealt with for a deferred connection, all transports are
registered as they should be. -/
theorem transports_registered (input : RunInput) {schedule : List ℕ}
    (hspares : SharedResource.everyTurn Worker.shareStep Worker.sparesDeferred input.start
      schedule) :
    ∀ w ∈ (input.after schedule).components, w.TransportsRegistered := by
  intro w hw
  refine (SharedResource.forall_everyTurn Worker.shareStep Worker.orderly_shareStep ?_ hspares w
    hw).1.transportsRegistered
  intro w hw
  refine ⟨?_, input.timekeeping [] w hw⟩
  rw [start_components, List.mem_map] at hw
  obtain ⟨⟨limits, worker⟩, -, rfl⟩ := hw
  exact ⟨List.forall_mem_nil _, List.forall_mem_nil _⟩

/-- One poll gives two events of a connection that is closed before its pace. -/
def closedTwice : RunInput :=
  plain (.requests 3) 1 ((RequestSequence.inOrder [getRoot]).withRate (some 1) 0) none fun call =>
    if call < 18 then promptReply
    else {
      reads := [.ok []]
      events := [{ token := 0, isReadable := true }, { token := 0, isReadable := true }] }

theorem transports_registered_sample :
    ∃ w ∈ (closedTwice.after (List.replicate 10 0)).components, w.TransportsRegistered := by
  have hsome : ∃ w ∈ (closedTwice.after (List.replicate 10 0)).components,
      w.connections ≠ [] := by
    decide +kernel
  obtain ⟨w, hw, -⟩ := hsome
  exact ⟨w, hw, transports_registered closedTwice (by decide +kernel) w hw⟩

/-- The first event defers the connection, and the second one takes its transport out of the
poll again. -/
theorem deregistered_twice :
    ∃ w ∈ (closedTwice.after (List.replicate 11 0)).components,
      ∃ r ∈ w.world.registryCalls, r.call = .deregister ∧ r.registered = false := by
  decide +kernel

end RunInput

end Rload
