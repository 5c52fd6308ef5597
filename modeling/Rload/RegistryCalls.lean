import Rload.HandlerTurns

/-!
# The transport in the poll

The registry is asked about the transport of a connection in three ways, and each fits only a
transport that is registered or only one that is not. What a method does to the place of its
transport in the poll is seen on a posture of the connection alone.
-/

namespace Rload
open StatefulPrograms

namespace Registration

/-- A transport is registered once, and only a registered one is registered anew or taken out. -/
def isProper (r : Registration) : Bool :=
  match r.call with
  | .register => !r.registered
  | .reregister | .deregister => r.registered

end Registration

variable {α : Type}

namespace World

def IsProper (w : World) : Prop := ∀ r ∈ w.registryCalls, r.isProper = true

/-- The program does not ask the registry about a transport. -/
def StaysProper (m : WorldM α) : Prop := KeepsOr IsProper m IsProper

theorem staysProper_call : StaysProper call := fun _ h => h

theorem staysProper_now : StaysProper now := fun _ h => h

theorem staysProper_sleep (nanos : ℕ) : StaysProper (sleep nanos) := fun _ h => h

theorem staysProper_raise (e : RunError) : StaysProper (raise e : WorldM α) := fun _ h => h

theorem staysProper_fail (operation : Operation) (error : IoError) :
    StaysProper (fail operation error : WorldM α) := fun _ h => h

theorem staysProper_service : StaysProper service := by
  refine staysProper_call.bind fun reply => ?_
  cases reply.fault with
  | none => exact .pure _
  | some error => exact staysProper_fail _ _

theorem staysProper_askRegistry {call : RegistryCall} {registered : Bool}
    (h : Registration.isProper ⟨call, registered⟩ = true) :
    StaysProper (askRegistry call registered) :=
  KeepsOr.bind (.modify fun _ hw => List.forall_mem_cons.mpr ⟨h, hw⟩) fun _ => staysProper_service

theorem staysProper_drawRequest : StaysProper drawRequest := by
  refine staysProper_now.bind fun time w hw => ?_
  rw [ensures_bind, ensures_get]
  cases w.sequence.next time with
  | error halt => exact hw
  | ok drawn => exact hw

end World

open World

theorem staysProper_connectAny (operation : Operation) (addresses : List (SocketAddr × ℕ))
    (lastError : Option IoError) : StaysProper (connectAny operation addresses lastError) := by
  induction addresses generalizing lastError with
  | nil => exact staysProper_fail _ _
  | cons address addresses ih =>
    refine staysProper_call.bind fun reply => ?_
    cases reply.fault with
    | none => exact .pure _
    | some error => exact ih (some error)

theorem staysProper_attempt {δ : Type} {catches : Halt → Option δ} {m : WorldM α}
    (hm : StaysProper m) : StaysProper (attempt catches m) :=
  KeepsOr.attempt fun w hw => (hm w hw).mono (fun _ _ h => h) fun _ _ h =>
    ⟨fun _ _ => h, fun _ => h⟩

theorem staysProper_connectFrom (operation : Operation) (addresses : List SocketAddr)
    (start : ℕ) : StaysProper (connectFrom operation addresses start) :=
  staysProper_connectAny _ _ _

namespace Transport

variable (t : Transport)

theorem staysProper_new (initial tls : Bool) : StaysProper (Transport.new initial tls) := by
  refine .ite (staysProper_call.bind fun reply => ?_) (.pure _)
  cases reply.fault with
  | none => exact .pure _
  | some error => exact fun _ h => h

theorem staysProper_isTlsHandshaking : StaysProper t.isTlsHandshaking :=
  .ite (staysProper_call.bind fun _ => .pure _) (.pure _)

theorem staysProper_wantsWrite : StaysProper wantsWrite :=
  staysProper_call.bind fun _ => .pure _

theorem staysProper_finishHandshake (operation : Operation) :
    StaysProper (t.finishHandshake operation) := by
  have hagain : StaysProper (do
      let handshaking ← t.isTlsHandshaking
      pure !handshaking) := t.staysProper_isTlsHandshaking.bind fun _ => .pure _
  refine t.staysProper_isTlsHandshaking.bind fun _ => .ite (staysProper_call.bind fun reply => ?_)
    (.pure _)
  cases reply.fault with
  | none => exact hagain
  | some error =>
    exact .ite hagain (.ite (staysProper_raise _) (staysProper_fail _ _))

theorem staysProper_flushTls (operation : Operation) : StaysProper (t.flushTls operation) := by
  refine .ite (staysProper_wantsWrite.bind fun _ => .ite (staysProper_call.bind fun reply => ?_)
    (.pure _)) (.pure _)
  cases reply.fault with
  | none => exact .pure _
  | some error => exact .ite (.pure _) (staysProper_fail _ _)

theorem staysProper_interest (requestWritten requestReady : Bool) :
    StaysProper (t.interest requestWritten requestReady) :=
  .ite (staysProper_wantsWrite.bind fun _ =>
    .ite (.pure _) (t.staysProper_isTlsHandshaking.bind fun _ => .pure _)) (.pure _)

end Transport

theorem ConnectionLimit.staysProper_shouldContinue (limit : ConnectionLimit) (completed : ℕ) :
    StaysProper (limit.shouldContinue completed) := by
  cases limit with
  | requests count => exact .pure _
  | deadline time => exact staysProper_now.bind fun _ => .pure _

theorem Connection.staysProper_isEarly (c : Connection) : StaysProper c.isEarly := by
  unfold isEarly
  split
  · exact .pure _
  · exact staysProper_now.bind fun _ => .pure _

/-- What the place of a transport in the poll has to do with. A deferred connection knows
whether it waits for its pace. -/
structure Posture where
  registered : Bool
  done : Bool
  deferral : Option Bool
  fixed : Bool

namespace Posture

/-- A connection at work. -/
def working (fixed : Bool) : Posture := ⟨true, false, none, fixed⟩

/-- The connection has no transport in the poll, and is about to get one or to be done. -/
def between (fixed : Bool) : Posture := ⟨false, false, none, fixed⟩

def closed (fixed : Bool) : Posture := ⟨false, true, none, fixed⟩

def deferred (fixed : Bool) : Posture := ⟨false, false, some true, fixed⟩

/-- The transport is registered exactly when the connection is neither done nor deferred, and
a deferred connection waits for its pace. -/
def IsSettled (p : Posture) : Prop :=
  p.registered = (!p.done && p.deferral.isNone) ∧ p.deferral ≠ some false

theorem isSettled_working (fixed : Bool) : (working fixed).IsSettled := ⟨rfl, nofun⟩

theorem isSettled_closed (fixed : Bool) : (closed fixed).IsSettled := ⟨rfl, nofun⟩

theorem isSettled_deferred (fixed : Bool) : (deferred fixed).IsSettled := ⟨rfl, by simp [deferred]⟩

variable {p : Posture}

theorem IsSettled.eq_working (h : p.IsSettled) (hdone : p.done = false)
    (hdeferral : p.deferral = none) : p = working p.fixed := by
  have hregistered : p.registered = true := by
    rw [h.1, hdone, hdeferral]
    rfl
  have heq : (⟨p.registered, p.done, p.deferral, p.fixed⟩ : Posture) =
      ⟨true, false, none, p.fixed⟩ := by rw [hregistered, hdone, hdeferral]
  exact heq

/-- An open connection is at work or deferred. -/
theorem IsSettled.cases_open (h : p.IsSettled) (hdone : p.done = false) :
    p = working p.fixed ∨ p = deferred p.fixed := by
  cases hdeferral : p.deferral with
  | none => exact Or.inl (h.eq_working hdone hdeferral)
  | some waits =>
    have hwaits : waits = true := by
      by_contra hnot
      rw [Bool.not_eq_true] at hnot
      exact h.2 (hdeferral.trans (congrArg some hnot))
    have hregistered : p.registered = false := by
      rw [h.1, hdone, hdeferral]
      rfl
    rw [hwaits] at hdeferral
    have heq : (⟨p.registered, p.done, p.deferral, p.fixed⟩ : Posture) =
        ⟨false, false, some true, p.fixed⟩ := by rw [hregistered, hdone, hdeferral]
    exact Or.inr heq

end Posture

namespace Connection

def posture (c : Connection) : Posture where
  registered := c.stream.registered.isSome
  done := c.done
  deferral := if c.reconnectAtPace then some c.awaitingPace else none
  fixed := c.limit.requests?.isSome

end Connection

namespace Session

def posture (s : Session) : Posture := s.connection.posture

def IsProper (s : Session) : Prop := s.world.IsProper

/-- The calls were proper, and the connection has the posture. -/
def Stands (p : Posture) (s : Session) : Prop := s.IsProper ∧ s.posture = p

end Session

namespace Connection

open Session Posture

/-- The program keeps the posture, also when it ends by an error. -/
def KeepsPosture (p : Posture) (m : ConnectionM α) : Prop := KeepsOr (Stands p) m (Stands p)

/-- The program leads from one posture to others, and all its calls are proper. -/
abbrev LeadsFrom (p : Posture) (m : ConnectionM α) (Q : α → Posture → Prop) : Prop :=
  Leads Session.IsProper Session.posture p m Q

variable {p : Posture}

theorem KeepsPosture.leads {m : ConnectionM α} (h : KeepsPosture p m) :
    LeadsFrom p m fun _ p' => p' = p :=
  .of_keeps fun s hs => (h s hs).mono (fun _ _ h => h) fun _ _ h => h.1

theorem keepsPosture_world {m : WorldM α} (hm : StaysProper m) :
    KeepsPosture p (liftM m : ConnectionM α) :=
  KeepsOr.zoom (fun _ h => h.1) (fun _ _ h hw => ⟨hw, h.2⟩) (fun _ _ h hw => ⟨hw, h.2⟩) hm

theorem keepsPosture_get : KeepsPosture p Connection.get := fun _ h => h

theorem keepsPosture_update {f : Connection → Connection}
    (h : ∀ c, c.posture = p → (f c).posture = p) : KeepsPosture p (update f) :=
  fun s hs => ⟨hs.1, h s.connection hs.2⟩

theorem leads_update {f : Connection → Connection} {p' : Posture}
    (h : ∀ c, c.posture = p → (f c).posture = p') : LeadsFrom p (update f) fun _ q => q = p' :=
  fun s hs hp => ⟨hs, h s.connection hp⟩

theorem leads_get : LeadsFrom p Connection.get fun c p' => p' = p ∧ c.posture = p :=
  fun _ hs hp => ⟨hs, hp, hp⟩

section Transfer

variable {fixed : Bool}

theorem posture_of_undeferred {c : Connection} (h : c.reconnectAtPace = false) :
    c.posture = ⟨c.stream.registered.isSome, c.done, none, c.limit.requests?.isSome⟩ := by
  rw [posture, h]
  rfl

theorem undeferred_of_posture (hp : p.deferral = none) {c : Connection} (hc : c.posture = p) :
    c.reconnectAtPace = false := by
  rw [← hc, posture] at hp
  simpa using hp

/-- Only the wait of a deferred connection is a part of its posture. -/
theorem posture_endWait (hp : p.deferral = none) {c : Connection} (hc : c.posture = p) :
    c.endWait.posture = p := by
  have hdeferred := undeferred_of_posture hp hc
  have hdeferred' : c.endWait.reconnectAtPace = false := hdeferred
  rw [← hc, posture_of_undeferred hdeferred, posture_of_undeferred hdeferred']
  rfl

theorem posture_awaitPace (hp : p.deferral = none) {c : Connection} (hc : c.posture = p) :
    c.awaitPace.posture = p := by
  have hdeferred := undeferred_of_posture hp hc
  rw [Connection.awaitPace]
  split
  · exact hc
  · rw [← hc, posture_of_undeferred hdeferred, posture_of_undeferred]
    exact hdeferred

theorem keepsPosture_writeLoop (operation : Operation) (results : List (Except IoError ℕ)) :
    KeepsPosture p (writeLoop operation results) := by
  induction results with
  | nil => exact .pure _
  | cons result results ih =>
    cases result with
    | error error =>
      refine keepsPosture_get.bind fun c => .ite (.pure _) (.ite ?_ ?_)
      · exact keepsPosture_world (staysProper_raise _)
      · exact keepsPosture_world (staysProper_fail _ _)
    | ok accepted =>
      refine keepsPosture_get.bind fun c => .ite (keepsPosture_world (staysProper_fail _ _)) ?_
      have haccept : ∀ n, KeepsPosture p (accept n) := fun n s hs => hs
      exact (haccept _).bind fun _ => keepsPosture_get.bind fun _ => .ite (.pure _) ih

theorem keepsPosture_sendRequest (hp : p.deferral = none) (operation : Bool → Operation) :
    KeepsPosture p (sendRequest operation) := by
  have hrest : KeepsPosture p (do
      let reply ← liftM World.call
      writeLoop (operation true) reply.writes) :=
    (keepsPosture_world staysProper_call).bind fun _ => keepsPosture_writeLoop _ _
  refine (keepsPosture_update fun c hc => posture_endWait hp hc).bind fun _ =>
    keepsPosture_get.bind fun c => .ite ?_ hrest
  refine (keepsPosture_world staysProper_now).bind fun now => .bind ?_ fun _ => hrest
  exact keepsPosture_update fun c hc => hc

theorem keepsPosture_writeRequest (hp : p.deferral = none) (operation : Bool → Operation) :
    KeepsPosture p (writeRequest operation) := by
  refine keepsPosture_get.bind fun c => .ite
    (keepsPosture_world (c.stream.staysProper_flushTls _))
    ((keepsPosture_world (c.stream.staysProper_finishHandshake _)).bind fun ready => .ite ?_
      (.pure _))
  refine (keepsPosture_world c.staysProper_isEarly).bind fun early => .ite ?_ ?_
  · exact keepsPosture_update fun c hc => posture_awaitPace hp hc
  · exact keepsPosture_sendRequest hp operation

theorem posture_hear (data : List UInt8) (eof : Bool) (c : Connection) :
    (c.hear data eof).posture = c.posture := by
  rw [Connection.hear]
  split <;> rfl

theorem keepsPosture_hear (data : List UInt8) (eof : Bool) :
    KeepsPosture p (update (Connection.hear data eof)) :=
  keepsPosture_update fun c hc => (posture_hear data eof c).trans hc

theorem keepsPosture_throw (e : Halt) :
    KeepsPosture p (MonadExcept.throw e : ConnectionM α) := .throw_of (fun _ h => h) e

theorem keepsPosture_readLoop (results : List (Except IoError (List UInt8))) :
    KeepsPosture p (readLoop results) := by
  induction results with
  | nil => exact .pure _
  | cons result results ih =>
    cases result with
    | error error =>
      exact keepsPosture_get.bind fun c => .ite (.pure _)
        (keepsPosture_world (staysProper_fail _ _))
    | ok bytes =>
      refine .ite (.pure _)
        (keepsPosture_get.bind fun c => (keepsPosture_hear _ _).bind fun _ => ?_)
      split
      · exact keepsPosture_throw _
      · exact .pure _
      · exact ih

theorem keepsPosture_respond (parsed : ParsedResponse) (eof : Bool) :
    KeepsPosture p (respond parsed eof) :=
  keepsPosture_get.bind fun _ => (keepsPosture_world staysProper_now).bind fun _ => .pure _

theorem keepsPosture_readEnd (eof : Bool) : KeepsPosture p (readEnd eof) := by
  have hfeed : KeepsPosture p (feedEnd eof) := by
    refine keepsPosture_get.bind fun c => (keepsPosture_hear _ _).bind fun _ => ?_
    split
    · exact .ite (keepsPosture_world (staysProper_fail _ _)) (keepsPosture_throw _)
    · exact keepsPosture_throw _
    · exact .pure _
  refine hfeed.bind fun response => ?_
  cases response with
  | none => exact .pure _
  | some parsed => exact keepsPosture_respond parsed eof

theorem keepsPosture_readResponse : KeepsPosture p readResponse := by
  refine (keepsPosture_world staysProper_call).bind fun reply =>
    (keepsPosture_readLoop _).bind fun result => ?_
  cases result with
  | response parsed => exact keepsPosture_respond parsed false
  | eof => exact keepsPosture_readEnd true
  | blocked => exact keepsPosture_readEnd false

theorem keepsPosture_takeError (operation : Bool → Bool → Operation) :
    KeepsPosture p (takeError operation) := by
  refine (keepsPosture_world staysProper_service).bind fun reply => ?_
  cases reply.pending with
  | none => exact .pure _
  | some error =>
    exact keepsPosture_get.bind fun c => KeepsOr.bind (fun _ h => h) fun _ => .pure _

end Transfer

theorem askRegistry_leads {call : RegistryCall}
    (hcall : Registration.isProper ⟨call, p.registered⟩ = true) (interest : Option Interest) :
    LeadsFrom p (askRegistry call interest) fun _ p' =>
      p' = { p with registered := interest.isSome } := by
  intro s hs hp
  have hregistered : s.connection.stream.registered.isSome = p.registered :=
    congrArg Posture.registered hp
  unfold askRegistry
  simp only [ensures_bind, ensures_get, ensures_world, ensures_update, hregistered]
  apply (staysProper_askRegistry hcall s.world hs).mono
  · intro _ w hw
    refine ⟨hw, ?_⟩
    rw [← hp]
    rfl
  · exact fun _ _ hw => hw

section Methods

variable {fixed : Bool}

theorem register_leads :
    LeadsFrom (between fixed) register fun _ p' => p' = working fixed :=
  askRegistry_leads rfl _

theorem reregister_leads (interest : Interest) :
    LeadsFrom (working fixed) (reregister interest) fun _ p' => p' = working fixed :=
  askRegistry_leads rfl _

theorem deregister_leads (hp : p.registered = true) :
    LeadsFrom p deregister fun _ p' => p' = { p with registered := false } := by
  have hcall : Registration.isProper ⟨.deregister, p.registered⟩ = true := hp
  exact askRegistry_leads hcall none

theorem refreshInterest_leads :
    LeadsFrom (working fixed) refreshInterest fun _ p' => p' = working fixed :=
  keepsPosture_get.leads.next fun c => (keepsPosture_world c.staysProper_isEarly).leads.next
    fun _ => (keepsPosture_world (c.stream.staysProper_interest _ _)).leads.next reregister_leads

/-- What a connection is that has no transport in the poll and is neither done nor deferred. -/
theorem posture_between {c : Connection} (hregistered : c.stream.registered = none)
    (hdone : c.done = false) (hdeferred : c.reconnectAtPace = false) :
    c.posture = between c.limit.requests?.isSome := by
  rw [posture_of_undeferred hdeferred, hregistered, hdone]
  rfl

/-- A new transport is not registered yet. -/
theorem adopt_leads {addressIndex : ℕ} {assign : Connection → Connection}
    (hassign : ∀ c, c.posture = p → (assign c).done = false ∧ (assign c).reconnectAtPace = false ∧
      (assign c).limit.requests?.isSome = fixed) :
    LeadsFrom p (adopt addressIndex assign) fun _ p' => p' = between fixed := by
  intro s hs hp
  obtain ⟨hdone, hdeferred, hfixed⟩ := hassign s.connection hp
  unfold adopt
  simp only [ensures_bind, ensures_get, ensures_world, ensures_update]
  apply ((Transport.new_spec false s.connection.tls s.world).and
    (Transport.staysProper_new false s.connection.tls s.world hs)).mono
  · rintro stream w ⟨⟨rfl, -⟩, hw⟩
    apply (staysProper_now w hw).mono
    · intro now w' hw'
      refine ⟨hw', ?_⟩
      rw [← hfixed]
      exact posture_between rfl hdone hdeferred
    · exact fun _ _ hw' => hw'
  · exact fun _ _ h => h.2

theorem finish_leads : LeadsFrom p (update finish) fun _ p' => p' = { p with done := true } := by
  apply leads_update
  rintro c rfl
  rfl

theorem fixed_of_posture {c : Connection} (hc : c.posture = p) :
    c.limit.requests?.isSome = p.fixed := congrArg Posture.fixed hc

theorem done_of_posture {c : Connection} (hc : c.posture = p) : c.done = p.done :=
  congrArg Posture.done hc

theorem keepsPosture_install (hp : p.deferral = none) (drawn : Drawn) :
    KeepsPosture p (update (install drawn)) := by
  apply keepsPosture_update
  intro c hc
  have hinstalled : (install drawn c).reconnectAtPace = false := rfl
  rw [posture_of_undeferred hinstalled, ← hc,
    posture_of_undeferred (undeferred_of_posture hp hc)]
  rfl

theorem finishResponse_leads (connectionClose : Bool) :
    LeadsFrom (working fixed) (finishResponse connectionClose) fun finished p' =>
      p' = if finished then closed fixed else working fixed := by
  have hcomplete : KeepsPosture (working fixed) (update complete) :=
    keepsPosture_update fun _ hc => hc
  have hrewind : KeepsPosture (working fixed) (update rewind) :=
    keepsPosture_update fun _ hc => hc
  have hunstart : KeepsPosture (working fixed) (update unstart) :=
    keepsPosture_update fun _ hc => hc
  have hinstall : KeepsPosture (working fixed) installNextRequest :=
    (keepsPosture_world staysProper_drawRequest).bind fun drawn => keepsPosture_install rfl drawn
  refine hcomplete.leads.next fun _ => keepsPosture_get.leads.next fun c =>
    (keepsPosture_world (c.limit.staysProper_shouldContinue _)).leads.next fun more =>
      .ite (fun _ => ?_) fun _ => ?_
  · refine hrewind.leads.next fun _ => hinstall.leads.next fun _ => hunstart.leads.next fun _ =>
      .ite (fun _ => ?_) fun _ => ?_
    · refine (deregister_leads rfl).next fun _ => keepsPosture_get.leads.next fun c =>
        (keepsPosture_world (staysProper_connectFrom _ _ _)).leads.next fun addressIndex =>
          (adopt_leads ?_).next fun _ => register_leads.next fun _ => .pure rfl
      intro c hc
      exact ⟨done_of_posture hc, undeferred_of_posture rfl hc, fixed_of_posture hc⟩
    · exact (reregister_leads _).next fun _ => (keepsPosture_writeRequest rfl _).leads.next
        fun _ => refreshInterest_leads.next fun _ => .pure rfl
  · exact finish_leads.next fun _ => (deregister_leads rfl).next fun _ => .pure rfl

theorem deferReconnectUntilPace_leads :
    LeadsFrom (working fixed) deferReconnectUntilPace fun waits p' =>
      p' = if waits then deferred fixed else working fixed := by
  refine keepsPosture_get.leads.next fun c => .ite (fun _ => .pure rfl) fun _ =>
    (keepsPosture_world c.staysProper_isEarly).leads.next fun early =>
      .ite (fun _ => ?_) fun _ => .pure rfl
  refine (deregister_leads rfl).next fun _ => (leads_update ?_).next fun _ => .pure rfl
  intro c hc
  have hdeferred : c.defer.posture = { c.posture with deferral := some true } := rfl
  rw [hdeferred, hc]
  rfl

theorem connectLoop_leads (operation : Operation) (start fuel : ℕ) :
    LeadsFrom (between fixed) (connectLoop operation start fuel) fun result p' =>
      p' = if result.isSome then between fixed else closed fixed := by
  induction fuel with
  | zero => exact .throw _
  | succ fuel ih =>
    have hcount : KeepsPosture (between fixed) (update (countAttempt true)) :=
      keepsPosture_update fun _ hc => hc
    have hattempted : KeepsPosture (between fixed) (update (happen .attempted)) :=
      keepsPosture_update fun _ hc => hc
    refine hcount.leads.next fun _ => hattempted.leads.next fun _ => keepsPosture_get.leads.next
      fun c => (keepsPosture_world (staysProper_attempt (staysProper_connectFrom _ _ _))).leads.next
        fun result => ?_
    cases result with
    | ok addressIndex => exact .pure rfl
    | error error =>
      exact .ite (fun _ => finish_leads.next fun _ => .pure rfl) fun _ =>
        (keepsPosture_world (staysProper_sleep _)).leads.next fun _ => ih

/-- The attempts of a fixed limit, and then the new transport. -/
theorem connectLoop_reopens (operation : Operation) (start fuel : ℕ)
    {assign : Connection → Connection} (hassign : ∀ c, c.posture = between fixed →
      (assign c).done = false ∧ (assign c).reconnectAtPace = false ∧
        (assign c).limit.requests?.isSome = fixed) :
    LeadsFrom (between fixed) (do
      match ← connectLoop operation start fuel with
      | none => pure false
      | some addressIndex =>
        adopt addressIndex assign
        register
        pure true) fun reopened p' => p' = if reopened then working fixed else closed fixed := by
  refine (connectLoop_leads operation start fuel).bind fun result p' hp' => ?_
  cases result with
  | none => exact .pure hp'
  | some addressIndex =>
    subst hp'
    exact (adopt_leads hassign).next fun _ => register_leads.next fun _ => .pure rfl

theorem retryAddress_leads :
    LeadsFrom (working fixed) retryAddress fun retried p' =>
      p' = if retried then working fixed else closed fixed := by
  have hassign : ∀ c, c.posture = between fixed → (toRetry c).done = false ∧
      (toRetry c).reconnectAtPace = false ∧ (toRetry c).limit.requests?.isSome = fixed :=
    fun c hc => ⟨done_of_posture hc, rfl, fixed_of_posture hc⟩
  refine (deregister_leads rfl).next fun _ => keepsPosture_get.leads.next fun c => ?_
  split
  · exact .ite (fun _ => finish_leads.next fun _ => .pure rfl) fun _ =>
      connectLoop_reopens _ _ _ hassign
  · have hattempted : KeepsPosture (between fixed) (update (happen .attempted)) :=
      keepsPosture_update fun _ hc => hc
    exact hattempted.leads.next fun _ =>
      (keepsPosture_world (staysProper_connectFrom _ _ _)).leads.next fun _ =>
        (adopt_leads hassign).next fun _ => register_leads.next fun _ => .pure rfl

/-- Where nothing is recovered, the connection is done if its limit is fixed. -/
theorem recoverRequest_leads :
    LeadsFrom (working fixed) recoverRequest fun recovered p' =>
      p' = if recovered || !fixed then working fixed else closed fixed := by
  have hassign : ∀ c, c.posture = between fixed → (toRecover c).done = false ∧
      (toRecover c).reconnectAtPace = false ∧ (toRecover c).limit.requests?.isSome = fixed :=
    fun c hc => ⟨done_of_posture hc, rfl, fixed_of_posture hc⟩
  unfold recoverRequest
  refine leads_get.bind ?_
  rintro c _ ⟨rfl, hc⟩
  have hfixed : c.limit.requests?.isSome = fixed := fixed_of_posture hc
  split
  · rename_i count hlimit
    obtain rfl : true = fixed := by rw [← hfixed, hlimit]; rfl
    have hresult : ∀ recovered p', (p' = if recovered then working true else closed true) →
        p' = if recovered || !true then working true else closed true := by
      intro recovered p' hp'
      rw [hp', Bool.not_true, Bool.or_false]
    refine .ite (fun _ => ?_) fun _ => ?_
    · exact finish_leads.next fun _ => (deregister_leads rfl).next fun _ => .pure rfl
    · exact (deregister_leads rfl).next fun _ =>
        (connectLoop_reopens _ _ _ hassign).mono hresult
  · rename_i deadline hlimit
    obtain rfl : false = fixed := by rw [← hfixed, hlimit]; rfl
    have hcount : KeepsPosture (between false) (update (countAttempt false)) :=
      keepsPosture_update fun _ hc => hc
    have hattempted : KeepsPosture (between false) (update (happen .attempted)) :=
      keepsPosture_update fun _ hc => hc
    refine (keepsPosture_world staysProper_now).leads.next fun now =>
      .ite (fun _ => .pure rfl) fun _ => ?_
    exact (deregister_leads rfl).next fun _ => hcount.leads.next fun _ => hattempted.leads.next
      fun _ => (keepsPosture_world (staysProper_connectFrom _ _ _)).leads.next fun _ =>
        (adopt_leads hassign).next fun _ => register_leads.next fun _ => .pure rfl

/-- A deferred connection has no transport in the poll. -/
theorem stopIfExpired_leads (hp : p.registered = p.deferral.isNone) :
    LeadsFrom p stopIfExpired fun stopped p' =>
      p' = if stopped then { p with done := true, registered := false } else p := by
  unfold stopIfExpired
  refine leads_get.bind ?_
  rintro c q ⟨rfl, hc⟩
  refine .ite (fun _ => .pure rfl) fun _ =>
    (keepsPosture_world (c.limit.staysProper_shouldContinue _)).leads.next fun more =>
      .ite (fun _ => .pure rfl) fun _ => finish_leads.next fun _ => ?_
  have hdeferral : q.deferral = if c.reconnectAtPace then some c.awaitingPace else none :=
    (congrArg Posture.deferral hc).symm
  refine .ite (fun hdeferred => ?_) fun hundeferred => ?_
  · rw [hdeferral, if_pos hdeferred] at hp
    have hunregistered : q.registered = false := hp
    refine .pure ?_
    rw [if_pos rfl, ← hunregistered]
  · rw [hdeferral, if_neg hundeferred] at hp
    have hregistered : ({ q with done := true } : Posture).registered = true := hp
    exact (deregister_leads hregistered).next fun _ => .pure rfl

theorem resumeAtPace_leads (hp : p = working fixed ∨ p = deferred fixed) :
    LeadsFrom p resumeAtPace fun _ p' => p' = working fixed := by
  unfold resumeAtPace
  refine leads_get.bind ?_
  rintro c _ ⟨rfl, hc⟩
  refine .ite (fun _ => ?_) fun hundeferred => ?_
  · refine (keepsPosture_world (staysProper_connectFrom _ _ _)).leads.next fun _ =>
      (adopt_leads fun c hc => ?_).next fun _ => register_leads
    refine ⟨(done_of_posture hc).trans ?_, rfl, (fixed_of_posture hc).trans ?_⟩
    · cases hp with
      | inl hworking => rw [hworking]; rfl
      | inr hdeferred => rw [hdeferred]; rfl
    · cases hp with
      | inl hworking => rw [hworking]; rfl
      | inr hdeferred => rw [hdeferred]; rfl
  · cases hp with
    | inl hworking =>
      subst hworking
      exact refreshInterest_leads
    | inr hdeferred =>
      have hdeferral := (congrArg Posture.deferral hc).trans (congrArg Posture.deferral hdeferred)
      rw [posture, if_neg hundeferred] at hdeferral
      cases hdeferral

theorem stopAfterDurationError_leads :
    LeadsFrom (working fixed) stopAfterDurationError fun stopped p' =>
      p' = if stopped then closed fixed else working fixed := by
  refine keepsPosture_get.leads.next fun c => ?_
  split
  · exact .pure rfl
  · exact (keepsPosture_world staysProper_now).leads.next fun now => .ite
      (fun _ => finish_leads.next fun _ => (deregister_leads rfl).next fun _ => .pure rfl)
      fun _ => .pure rfl

/-- A fixed limit has no duration. -/
theorem stopAfterDurationError_rests (hp : p.fixed = true) :
    LeadsFrom p stopAfterDurationError fun stopped p' => p' = p ∧ stopped = false := by
  refine leads_get.bind ?_
  rintro c _ ⟨rfl, hc⟩
  have hfixed := (fixed_of_posture hc).trans hp
  split
  · exact .pure ⟨rfl, rfl⟩
  · rename_i deadline hlimit
    rw [hlimit] at hfixed
    cases hfixed

theorem expire_leads :
    LeadsFrom (working fixed) expire fun expiration p' =>
      p' = if expiration = .stopped then closed fixed else working fixed :=
  keepsPosture_get.leads.next fun c => .ite (fun _ => .pure rfl) fun _ =>
    (keepsPosture_world (c.limit.staysProper_shouldContinue _)).leads.next fun _ =>
      .ite (fun _ => .pure rfl) fun _ =>
        finish_leads.next fun _ => (deregister_leads rfl).next fun _ => .pure rfl

end Methods

end Connection

end Rload
