import Rload.WorkerTasks

/-!
# Requests and the deadline

A connection with a deadline begins no request and recovers none from its deadline on. What
began before it goes on: a request that was begun, but of which the socket took no byte, may
have its first byte written later.
-/

namespace Rload
open StatefulPrograms

namespace Happening

/-- The times at which a request was begun, or recovered over a new transport. -/
def launches : List Happening → List ℕ
  | [] => []
  | .began time :: history => time :: launches history
  | .opened _ time :: .restarted :: history => time :: launches history
  | _ :: history => launches history

/-- When the request of a connection was begun, since it was drawn or last recovered. -/
def begunAt : List Happening → Option ℕ
  | [] => none
  | .began time :: _ => some time
  | .drew _ :: _ | .restarted :: _ => none
  | _ :: history => begunAt history

/-- No byte of the current request is written on the current transport yet. -/
def isUnwritten : List Happening → Bool
  | [] => true
  | .wrote _ _ :: _ => false
  | .drew _ :: _ | .opened _ _ :: _ => true
  | _ :: history => isUnwritten history

/-- Every write was of a request that was begun. -/
def writesBegun : List Happening → Bool
  | [] => true
  | .wrote _ _ :: history => (begunAt history).isSome && writesBegun history
  | _ :: history => writesBegun history

theorem launches_opened (left : Leftover) (time : ℕ) (history : List Happening) :
    launches (.opened left time :: history) = launches history ∨
      launches (.opened left time :: history) = time :: launches history := by
  cases history with
  | nil => exact Or.inl rfl
  | cons happening history =>
    cases happening with
    | restarted => exact Or.inr rfl
    | _ => exact Or.inl rfl

theorem launches_attempted (n : ℕ) (history : List Happening) :
    launches (List.replicate n .attempted ++ history) = launches history := by
  induction n with
  | zero => rfl
  | succ n ih => exact ih

theorem begunAt_attempted (n : ℕ) (history : List Happening) :
    begunAt (List.replicate n .attempted ++ history) = begunAt history := by
  induction n with
  | zero => rfl
  | succ n ih => exact ih

theorem writesBegun_attempted (n : ℕ) (history : List Happening) :
    writesBegun (List.replicate n .attempted ++ history) = writesBegun history := by
  induction n with
  | zero => rfl
  | succ n ih => exact ih

theorem launches_subset_cons (happening : Happening) (history : List Happening) :
    launches history ⊆ launches (happening :: history) := by
  intro launch hlaunch
  cases happening with
  | began time => exact List.mem_cons_of_mem time hlaunch
  | opened left time =>
    cases launches_opened left time history with
    | inl hsame => exact hsame ▸ hlaunch
    | inr hmore => exact hmore ▸ List.mem_cons_of_mem time hlaunch
  | _ => exact hlaunch

theorem launches_suffix {earlier history : List Happening} (h : earlier <:+ history) :
    launches earlier ⊆ launches history := by
  induction history with
  | nil =>
    rw [List.suffix_nil.mp h]
    exact List.Subset.refl _
  | cons happening history ih =>
    cases List.suffix_cons_iff.mp h with
    | inl heq =>
      rw [heq]
      exact List.Subset.refl _
    | inr hsuffix => exact List.Subset.trans (ih hsuffix) (launches_subset_cons happening history)

theorem launches_of_begunAt {history : List Happening} {time : ℕ}
    (h : begunAt history = some time) : time ∈ launches history := by
  induction history with
  | nil => cases h
  | cons happening history ih =>
    cases happening with
    | began time' =>
      cases h
      exact List.mem_cons_self
    | drew entry => cases h
    | restarted => cases h
    | _ => exact launches_subset_cons _ history (ih h)

theorem launches_of_mem {history : List Happening} {time : ℕ}
    (h : Happening.began time ∈ history) : time ∈ launches history := by
  obtain ⟨later, earlier, rfl⟩ := List.append_of_mem h
  exact launches_suffix (List.suffix_append later _) List.mem_cons_self

theorem begunAt_of_wrote {history earlier : List Happening} {bytes : List UInt8} {time : ℕ}
    (hbegun : writesBegun history = true) (h : .wrote bytes time :: earlier <:+ history) :
    (begunAt earlier).isSome := by
  induction history with
  | nil => cases List.suffix_nil.mp h
  | cons happening history ih =>
    cases List.suffix_cons_iff.mp h with
    | inl heq =>
      cases heq
      exact (Bool.and_eq_true .. ▸ hbegun).1
    | inr hsuffix =>
      refine ih ?_ hsuffix
      cases happening with
      | wrote bytes time => exact (Bool.and_eq_true .. ▸ hbegun).2
      | _ => exact hbegun

end Happening

namespace Connection

open Happening

/-- The history knows when the current request was begun and is not ahead of the time. -/
structure Dated (t : ℕ) (c : Connection) : Prop where
  started_eq : c.started = begunAt c.history
  writes : writesBegun c.history = true
  launches_le : ∀ time ∈ launches c.history, time ≤ t

variable {t : ℕ} {c c' : Connection}

theorem Dated.of_eq (h : Dated t c) (hstarted : c'.started = c.started)
    (hhistory : c'.history = c.history) : Dated t c' := by
  constructor
  · rw [hstarted, hhistory]
    exact h.started_eq
  · rw [hhistory]
    exact h.writes
  · rw [hhistory]
    exact h.launches_le

theorem Dated.hear (h : Dated t c) (data : List UInt8) (eof : Bool) :
    Dated t (c.hear data eof) := by
  rw [Connection.hear]
  split
  · exact h.of_eq rfl rfl
  · exact ⟨h.started_eq, h.writes, h.launches_le⟩

/-- Over a new transport, whatever the caller assigns. -/
theorem Dated.opened {assign : Connection → Connection} (h : Dated t c)
    (hassign : Assigns c assign) (addressIndex : ℕ) :
    Dated t (withStream ⟨c.tls, none⟩ addressIndex t (assign c)) := by
  have hlaunches : ∀ history, (∀ time ∈ launches history, time ≤ t) → ∀ left : Leftover,
      ∀ time ∈ launches (.opened left t :: history), time ≤ t := by
    intro history hle left
    cases launches_opened left t history with
    | inl hsame => exact hsame ▸ hle
    | inr hmore =>
      rw [hmore]
      exact List.forall_mem_cons.mpr ⟨le_rfl, hle⟩
  cases hassign with
  | next => exact ⟨h.started_eq, h.writes, hlaunches _ h.launches_le _⟩
  | retry => exact ⟨h.started_eq, h.writes, hlaunches (.retried _ :: c.history) h.launches_le _⟩
  | recover => exact ⟨rfl, h.writes, hlaunches (.restarted :: c.history) h.launches_le _⟩
  | resume => exact ⟨h.started_eq, h.writes, hlaunches (.reconnectedAtPace _ :: c.history)
      h.launches_le _⟩

theorem dated_invariant : Connection.Invariant Dated where
  time t t' c hle h :=
    ⟨h.started_eq, h.writes, fun time htime => (h.launches_le time htime).trans hle⟩
  connected addresses limit tls drawn addressIndex t := ⟨rfl, rfl, fun time htime => by cases htime⟩
  move t c c' h hmove := by
    cases hmove with
    | hear data eof => exact h.hear data eof
    | awaitPace =>
      rw [Connection.awaitPace]
      split <;> exact h.of_eq rfl rfl
    | begin =>
      rw [Connection.begin]
      split
      · refine ⟨rfl, h.writes, fun time htime => ?_⟩
        cases List.mem_cons.mp htime with
        | inl heq => exact heq.le
        | inr hmem => exact h.launches_le time hmem
      · exact h.of_eq rfl rfl
    | advance hstarted =>
      refine ⟨h.started_eq, ?_, h.launches_le⟩
      rw [h.started_eq] at hstarted
      exact Bool.and_eq_true .. ▸ ⟨hstarted, h.writes⟩
    | @attempts tried =>
      constructor
      · exact h.started_eq.trans (begunAt_attempted tried c.history).symm
      · exact (writesBegun_attempted tried c.history).trans h.writes
      · intro time htime
        exact h.launches_le time (launches_attempted tried c.history ▸ htime)
    | opened hassign addressIndex => exact h.opened hassign addressIndex
    | @answer data eof =>
      have hheard := h.hear data eof
      exact ⟨hheard.started_eq, hheard.writes, hheard.launches_le⟩
    | next drawn => exact ⟨rfl, h.writes, h.launches_le⟩
    | _ => exact h.of_eq rfl rfl

/-- What matters of a connection from its deadline on. -/
structure Outlook where
  limit : ConnectionLimit
  tls : Bool
  streamTls : Bool
  launches : List ℕ

def outlook (c : Connection) : Outlook := ⟨c.limit, c.tls, c.stream.tls, launches c.history⟩

theorem outlook_hear (data : List UInt8) (eof : Bool) (c : Connection) :
    (c.hear data eof).outlook = c.outlook := by
  rw [Connection.hear]
  split <;> rfl

theorem Reads.outlook_eq (h : Reads c c') : c'.outlook = c.outlook := by
  induction h with
  | refl => rfl
  | hear _ hgoes ih => exact (outlook_hear _ _ _).trans ih

theorem Answers.outlook_eq {response : CompletedResponse} (h : Answers t c c' response) :
    c'.outlook = c.outlook := by
  cases h with
  | mk hreads hdata hdecoded => exact (outlook_hear _ _ _).trans hreads.outlook_eq

/-- A begun request is not begun again. -/
theorem Exchange.outlook_eq {t' : ℕ} (h : Exchange t t' c c') (hstarted : c.started.isSome) :
    c'.outlook = c.outlook ∧ c'.started = c.started := by
  induction h with
  | refl => exact ⟨rfl, rfl⟩
  | later _ hle ih => exact ih hstarted
  | awaitPace _ hpace hearly ih =>
    rw [Connection.awaitPace]
    split
    · exact ih hstarted
    · exact ih hstarted
  | begin _ hpace ih =>
    obtain ⟨houtlook, hsame⟩ := ih hstarted
    rw [Connection.begin]
    split
    · rename_i hnone
      rw [hsame, Option.isNone_iff_eq_none] at hnone
      rw [hnone] at hstarted
      cases hstarted
    · exact ⟨houtlook, hsame⟩
  | advance _ hadvance hpos hle ih => exact ih hstarted
  | watch _ interest ih => exact ih hstarted

theorem GivesUp.outlook_eq {k : ℕ} (h : GivesUp k c c') : c'.outlook = c.outlook := by
  rw [h.connection_eq]
  exact congrArg (Outlook.mk c.limit c.tls c.stream.tls) (launches_attempted k c.history)

theorem Stops.outlook_eq (h : Stops c c') : c'.outlook = c.outlook := by
  obtain ⟨interest, rfl⟩ := h.connection_eq
  rfl

theorem Reopens.outlook_eq {assign : Connection → Connection} {w w' : World}
    (h : Reopens assign w c c' w') (hassign : assign = toRetry ∨ assign = toResume)
    (hstream : c.stream.tls = c.tls) : c'.outlook = c.outlook := by
  obtain ⟨addressIndex, now, -, -, rfl⟩ := h
  have houtlook : c.outlook = ⟨c.limit, c.tls, c.tls, launches c.history⟩ :=
    congrArg (Outlook.mk c.limit c.tls · _) hstream
  rw [houtlook]
  cases hassign with
  | inl hretry =>
    rw [hretry]
    rfl
  | inr hresume =>
    rw [hresume]
    rfl

end Connection

/-- The deadline of a plain connection has passed; `launched` is all that it has launched. -/
def Session.IsLate (launched : List ℕ) (deadline : ℕ) (s : Session) : Prop :=
  s.connection.outlook = ⟨.deadline deadline, false, false, launched⟩ ∧ deadline ≤ s.world.clock

namespace Connection

open Session

section Methods

variable {launched : List ℕ} {deadline : ℕ} {s s' : Session}

theorem after_late (h : s.IsLate launched deadline)
    (hc : s'.connection.outlook = s.connection.outlook) (hw : s.world.clock ≤ s'.world.clock) :
    s'.IsLate launched deadline := ⟨hc.trans h.1, h.2.trans hw⟩

theorem limit_of_late (h : s.IsLate launched deadline) : s.connection.limit = .deadline deadline :=
  congrArg Outlook.limit h.1

theorem stream_of_late (h : s.IsLate launched deadline) :
    s.connection.stream.tls = s.connection.tls :=
  (congrArg Outlook.streamTls h.1).trans (congrArg Outlook.tls h.1).symm

/-- The methods that only look at the connection or the poll. -/
theorem keeps_of_ensures {α : Type} {m : ConnectionM α}
    (hm : ∀ s, Ensures m s (fun _ s' => s'.connection.outlook = s.connection.outlook ∧
      s.world.clock ≤ s'.world.clock) fun _ _ => True) :
    Keeps (Session.IsLate launched deadline) m := by
  intro s hs
  exact (hm s).mono (fun _ s' h => after_late hs h.1 h.2) fun _ _ h => h

theorem takeError_keeps {operation : Bool → Bool → Operation}
    (hf : ∀ started written error, Failure.fatal ⟨operation started written, error⟩ = false) :
    Keeps (Session.IsLate launched deadline) (takeError operation) := by
  apply keeps_of_ensures
  intro s
  apply (takeError_spec s hf).mono
  · intro error s' h
    exact ⟨congrArg outlook h.1, h.2.clock_le⟩
  · exact fun _ _ _ => ⟨⟩

theorem refreshInterest_keeps : Keeps (Session.IsLate launched deadline) refreshInterest := by
  apply keeps_of_ensures
  intro s
  apply (refreshInterest_spec s).mono
  · rintro _ s' ⟨interest, hc, hw⟩
    refine ⟨?_, hw.clock_le⟩
    rw [hc]
    rfl
  · exact fun _ _ _ => ⟨⟩

theorem deferReconnectUntilPace_keeps :
    Keeps (Session.IsLate launched deadline) deferReconnectUntilPace := by
  apply keeps_of_ensures
  intro s
  apply (deferReconnectUntilPace_spec s).mono
  · rintro deferred s' ⟨hw, hresult⟩
    refine ⟨?_, hw.clock_le⟩
    split at hresult
    · rw [hresult.1]
      rfl
    · rw [hresult]
  · exact fun _ _ _ => ⟨⟩

theorem stopAfterDurationError_keeps :
    Keeps (Session.IsLate launched deadline) stopAfterDurationError := by
  apply keeps_of_ensures
  intro s
  apply (stopAfterDurationError_spec s).mono
  · rintro stopped s' ⟨hw, hresult⟩
    refine ⟨?_, hw.clock_le⟩
    split at hresult
    · rw [hresult.1]
      rfl
    · rw [hresult.1]
  · exact fun _ _ _ => ⟨⟩

theorem expire_keeps : Keeps (Session.IsLate launched deadline) expire := by
  apply keeps_of_ensures
  intro s
  apply (expire_spec s).mono
  · rintro expiration s' ⟨hw, hresult⟩
    refine ⟨?_, hw.clock_le⟩
    cases expiration with
    | stopped => exact hresult.outlook_eq
    | requestTimeout => rw [hresult.1]
    | connectionTimeout => rw [hresult.1]
  · exact fun _ _ _ => ⟨⟩

theorem takeRecoveryAttempts_keeps :
    Keeps (Session.IsLate launched deadline) takeRecoveryAttempts := fun _ h => h

theorem takeReadBytes_keeps : Keeps (Session.IsLate launched deadline) takeReadBytes :=
  fun _ h => h

theorem retryAddress_keeps : Keeps (Session.IsLate launched deadline) retryAddress := by
  intro s hs
  apply (retryAddress_spec s).mono
  · rintro retried s' ⟨k, hw, hresult⟩
    refine after_late hs ?_ hw.clock_le
    split at hresult
    · obtain ⟨tried, made, limited, -, hopen⟩ := hresult.reopens
      rw [hopen.outlook_eq (Or.inl rfl) (stream_of_late hs)]
      exact congrArg (Outlook.mk s.connection.limit s.connection.tls s.connection.stream.tls)
        (Happening.launches_attempted tried s.connection.history)
    · exact hresult.outlook_eq
  · exact fun _ _ _ => ⟨⟩

theorem resumeAtPace_keeps : Keeps (Session.IsLate launched deadline) resumeAtPace := by
  intro s hs
  apply (resumeAtPace_spec s).mono
  · rintro _ s' ⟨hw, hresult⟩
    refine after_late hs ?_ hw.clock_le
    split at hresult
    · exact hresult.outlook_eq (Or.inr rfl) (stream_of_late hs)
    · obtain ⟨interest, hc⟩ := hresult
      rw [hc]
      rfl
  · exact fun _ _ _ => ⟨⟩

/-- Nothing is recovered. -/
theorem recoverRequest_keeps : Keeps (Session.IsLate launched deadline) recoverRequest := by
  intro s hs
  unfold recoverRequest
  rw [ensures_bind, ensures_get, limit_of_late hs]
  simp only [ensures_bind, ensures_world]
  apply World.ensures_now
  intro w hw
  rw [if_pos (hs.2.trans hw.clock_le)]
  exact after_late hs rfl hw.clock_le

theorem shouldContinue_late {w : World} (hw : deadline ≤ w.clock) (completed : ℕ) :
    Ensures ((ConnectionLimit.deadline deadline).shouldContinue completed) w
      (fun more w' => more = false ∧ w.clock ≤ w'.clock) fun _ _ => True := by
  unfold ConnectionLimit.shouldContinue
  simp only [ensures_bind]
  apply World.ensures_now
  intro w' h
  refine ⟨?_, h.clock_le⟩
  rw [decide_eq_false_iff_not, not_lt]
  exact hw.trans h.clock_le

/-- The connection has answered its last request. -/
theorem finishResponse_keeps (connectionClose : Bool) :
    Keeps (Session.IsLate launched deadline) (finishResponse connectionClose) := by
  intro s hs
  have hlimit : (complete s.connection).limit = .deadline deadline := limit_of_late hs
  unfold finishResponse
  simp only [ensures_bind, ensures_get, ensures_update, ensures_world, hlimit]
  apply (shouldContinue_late hs.2 _).mono
  · rintro more w₁ ⟨rfl, hw₁⟩
    simp only [ensures_ite, ensures_bind, ensures_update, ensures_pure]
    refine ⟨fun h => absurd h Bool.false_ne_true, fun _ => ?_⟩
    apply (deregister_spec ⟨finish (complete s.connection), w₁⟩).mono
    · rintro _ s₂ ⟨hc, hw₂⟩
      refine after_late hs ?_ (hw₁.trans hw₂.clock_le)
      rw [hc]
      rfl
    · exact fun _ _ _ => ⟨⟩
  · exact fun _ _ h => h

/-- A connection goes on only if its request was begun. -/
theorem stopIfExpired_late (hs : s.IsLate launched deadline) :
    Ensures stopIfExpired s (fun stopped s' => s'.IsLate launched deadline ∧
      (stopped = false → s'.connection.started.isSome)) fun _ _ => True := by
  unfold stopIfExpired
  simp only [ensures_bind, ensures_get, ensures_ite, ensures_world, ensures_pure,
    limit_of_late hs]
  refine ⟨fun hstarted => ⟨hs, fun _ => hstarted⟩, fun _ => ?_⟩
  apply (shouldContinue_late hs.2 _).mono
  · rintro more w₁ ⟨rfl, hw₁⟩
    refine ⟨fun h => absurd h Bool.false_ne_true, fun _ => ?_⟩
    simp only [ensures_update]
    refine ⟨fun _ => ⟨after_late hs rfl hw₁, fun h => absurd h (by simp)⟩, fun _ => ?_⟩
    apply (deregister_spec ⟨finish s.connection, w₁⟩).mono
    · rintro _ s₂ ⟨hc, hw₂⟩
      refine ⟨after_late hs ?_ (hw₁.trans hw₂.clock_le), fun h => absurd h (by simp)⟩
      rw [hc]
      rfl
    · exact fun _ _ _ => ⟨⟩
  · exact fun _ _ h => h

theorem stopIfExpired_keeps : Keeps (Session.IsLate launched deadline) stopIfExpired := by
  intro s hs
  exact (stopIfExpired_late hs).mono (fun _ _ h => h.1) fun _ _ h => h

/-- What reading leaves, unless the worker is to end. -/
theorem readResponse_late (hs : s.IsLate launched deadline) :
    Ensures (attempt Desk.runError readResponse) s
      (fun response s' => (∀ error, response = .error error → (Halt.error error).isIo = true) →
        s'.IsLate launched deadline) fun _ _ => True := by
  apply ensures_attempt
  apply (readResponse_spec s).mono
  · rintro response s' ⟨hw, hresult⟩ -
    refine after_late hs ?_ hw.clock_le
    cases response with
    | none => exact hresult.outlook_eq
    | some r => exact hresult.outlook_eq
  · rintro e s' ⟨hreads, hraises⟩
    refine ⟨fun error herror hio => ?_, fun _ => ⟨⟩⟩
    cases e with
    | error error' =>
      obtain rfl : error' = error := Option.some.inj herror
      exact after_late hs (hreads (hio _ rfl)).outlook_eq hraises.clock_le
    | panic message => cases herror
    | diverge => cases herror

/-- What is left of a begun request is written. -/
theorem writeRequest_keeps (operation : Bool → Operation) :
    Keeps (fun s => s.IsLate launched deadline ∧ s.connection.started.isSome)
      (attempt Desk.runError (writeRequest operation)) := by
  apply KeepsOr.attempt
  rintro s ⟨hs, hstarted⟩
  apply (writeRequest_spec s operation).mono
  · rintro _ s' ⟨hx, hw⟩
    obtain ⟨houtlook, hsame⟩ := hx.outlook_eq hstarted
    exact ⟨after_late hs houtlook hw.clock_le, hsame ▸ hstarted⟩
  · rintro e s' ⟨hx, hraises⟩
    obtain ⟨houtlook, hsame⟩ := hx.outlook_eq hstarted
    have hlate := after_late hs houtlook hraises.clock_le
    exact ⟨fun _ _ => ⟨hlate, hsame ▸ hstarted⟩, fun _ => ⟨⟩⟩

end Methods

end Connection

namespace Desk

def IsLate (launched : List ℕ) (deadline : ℕ) (d : Desk) : Prop :=
  d.session.IsLate launched deadline

section Handlers

variable (token timeout : ℕ) {launched : List ℕ} {deadline : ℕ} {α : Type}

theorem session_keeps {m : ConnectionM α} (h : Keeps (Session.IsLate launched deadline) m) :
    Keeps (IsLate launched deadline) (liftM m : DeskM α) :=
  KeepsOr.zoom (fun _ hd => hd) (fun _ _ _ hs => hs) (fun _ _ _ _ => ⟨⟩) h

/-- What has to do with the counters and the queues alone. -/
theorem modify_keeps {f : Desk → Desk} (h : ∀ d, (f d).session = d.session) :
    Keeps (IsLate launched deadline) (modify f : DeskM Unit) := by
  intro d hd
  rw [ensures_modify, IsLate, h d]
  exact hd

theorem getConnection_keeps : Keeps (IsLate launched deadline) getConnection := fun _ hd => hd

theorem countError_keeps (f : SocketErrors → SocketErrors) :
    Keeps (IsLate launched deadline) (countError f) := modify_keeps fun _ => rfl

theorem leave_keeps : Keeps (IsLate launched deadline) leave := modify_keeps fun _ => rfl

theorem abandon_keeps : Keeps (IsLate launched deadline) abandon := modify_keeps fun _ => rfl

theorem schedule_keeps : Keeps (IsLate launched deadline) (schedule token timeout) :=
  modify_keeps fun _ => rfl

theorem schedulePacing_keeps : Keeps (IsLate launched deadline) (schedulePacing token) :=
  modify_keeps fun _ => rfl

theorem countRecoveryAttempts_keeps : Keeps (IsLate launched deadline) countRecoveryAttempts :=
  (session_keeps Connection.takeRecoveryAttempts_keeps).bind fun _ => modify_keeps fun _ => rfl

theorem countReadBytes_keeps : Keeps (IsLate launched deadline) countReadBytes :=
  (session_keeps Connection.takeReadBytes_keeps).bind fun _ => modify_keeps fun _ => rfl

theorem recoverOrStop_keeps (addError : SocketErrors → SocketErrors) (error : RunError) :
    Keeps (IsLate launched deadline) (recoverOrStop token timeout addError error) := by
  refine (session_keeps Connection.recoverRequest_keeps).bind fun recovered =>
    countRecoveryAttempts_keeps.bind fun _ => .ite ?_
      ((session_keeps Connection.stopAfterDurationError_keeps).bind fun stopped => .ite ?_ ?_)
  · exact (countError_keeps _).bind fun _ => schedule_keeps token timeout
  · exact (countError_keeps _).bind fun _ => leave_keeps
  · refine getConnection_keeps.bind fun c => .ite ?_ (.throw _)
    exact (countError_keeps _).bind fun _ => abandon_keeps

theorem retryOrAbandon_keeps : Keeps (IsLate launched deadline) (retryOrAbandon token timeout) :=
  (session_keeps Connection.retryAddress_keeps).bind fun _ => countRecoveryAttempts_keeps.bind
    fun _ => .ite (schedule_keeps token timeout) abandon_keeps

/-- A plain transport has no handshake. -/
theorem checkHandshake_keeps : Keeps (IsLate launched deadline) checkHandshake := by
  intro d hd
  have hplain : d.connection.stream.tls = false := congrArg Connection.Outlook.streamTls hd.1
  unfold checkHandshake
  simp only [ensures_bind, ensures_getConnection, ensures_desk_world, Transport.isTlsHandshaking,
    hplain, Bool.false_eq_true, if_false, ensures_pure]
  exact hd

theorem failBeforeStart_keeps : Keeps (IsLate launched deadline) (failBeforeStart token timeout) :=
  checkHandshake_keeps.bind fun _ => (countError_keeps _).bind fun _ =>
    (session_keeps Connection.deferReconnectUntilPace_keeps).bind fun _ =>
      .ite (schedulePacing_keeps token) (retryOrAbandon_keeps token timeout)

theorem handleError_keeps : Keeps (IsLate launched deadline) (handleError token timeout) := by
  refine (session_keeps (Connection.takeError_keeps fun _ _ _ => rfl)).bind fun error => ?_
  cases error with
  | none => exact .pure _
  | some error =>
    refine getConnection_keeps.bind fun c => .ite ?_ ?_
    · exact (recoverOrStop_keeps token timeout _ _).bind fun _ => .pure _
    · exact (failBeforeStart_keeps token timeout).bind fun _ => .pure _

/-- What follows the writing at a writable event. -/
theorem afterWriting_keeps (before : Connection) (written : Except RunError Unit) :
    Keeps (IsLate launched deadline) (do
      match written with
      | .error (.tls message) => MonadExcept.throw (.error (.tls message))
      | .error error =>
        let c ← getConnection
        match c.hasStarted, error with
        | false, .io _ =>
          countError SocketErrors.addConnect
          retryOrAbandon token timeout
        | _, error => recoverOrStop token timeout SocketErrors.addWrite error
        pure true
      | .ok _ =>
        liftM Connection.refreshInterest
        let c ← getConnection
        if c.timerGeneration ≠ before.timerGeneration then schedule token timeout
        pure false : DeskM Bool) := by
  split
  · exact .throw _
  · refine getConnection_keeps.bind fun c => ?_
    split
    · exact (countError_keeps _).bind fun _ =>
        (retryOrAbandon_keeps token timeout).bind fun _ => .pure _
    · exact (recoverOrStop_keeps token timeout _ _).bind fun _ => .pure _
  · exact (session_keeps Connection.refreshInterest_keeps).bind fun _ => getConnection_keeps.bind
      fun c => .ite ((schedule_keeps token timeout).bind fun _ => .pure _) (.pure _)

/-- A writable event writes only for a request that was begun. -/
theorem handleWritable_keeps : Keeps (IsLate launched deadline) (handleWritable token timeout) := by
  intro d hd
  unfold handleWritable
  rw [ensures_bind, ensures_session]
  apply (Connection.stopIfExpired_late hd).mono
  · rintro stopped s ⟨hs, hstarted⟩
    rw [ensures_ite]
    refine ⟨fun _ => (leave_keeps.bind fun _ => .pure true) (d.withSession s) hs, fun hgoes => ?_⟩
    have hstarted := hstarted (Bool.not_eq_true _ ▸ hgoes)
    rw [ensures_bind, ensures_session]
    apply (Connection.takeError_spec (d.withSession s).session fun _ _ _ => rfl).mono
    · rintro pending s₁ ⟨hc, hw⟩
      have hs₁ : s₁.IsLate launched deadline :=
        Connection.after_late hs (congrArg Connection.outlook hc) hw.clock_le
      cases pending with
      | some error =>
        exact ((failBeforeStart_keeps token timeout).bind fun _ => .pure true)
          (d.withSession s₁) hs₁
      | none =>
        have hstarted₁ : s₁.connection.started.isSome := hc ▸ hstarted
        rw [ensures_bind, ensures_getConnection, ensures_bind, ensures_session]
        apply (Connection.writeRequest_keeps .write s₁ ⟨hs₁, hstarted₁⟩).mono
        · rintro written s₂ ⟨hs₂, -⟩
          exact afterWriting_keeps token timeout _ _ (d.withSession s₂) hs₂
        · exact fun _ _ h => h
    · exact fun _ _ _ => ⟨⟩
  · exact fun _ _ h => h

theorem handleResponse_keeps (response : CompletedResponse) :
    Keeps (IsLate launched deadline) (handleResponse token timeout response) := by
  unfold handleResponse
  split
  · exact .throw _
  · rename_i uri _
    have hcounted : Keeps (IsLate launched deadline)
        (modify (counted (countResponse response uri)) : DeskM Unit) := modify_keeps fun _ => rfl
    exact hcounted.bind fun _ => (session_keeps (Connection.finishResponse_keeps _)).bind
      fun finished => .ite leave_keeps (schedule_keeps token timeout)

theorem handleReadable_keeps : Keeps (IsLate launched deadline) (handleReadable token timeout) := by
  intro d hd
  unfold handleReadable
  rw [ensures_bind, ensures_session]
  apply (Connection.readResponse_late hd).mono
  · intro response s hs
    cases response with
    | ok response =>
      have hlate : s.IsLate launched deadline := hs fun _ h => by cases h
      cases response with
      | none =>
        exact (countReadBytes_keeps.bind fun _ => getConnection_keeps.bind fun _ =>
          session_keeps Connection.refreshInterest_keeps) (d.withSession s) hlate
      | some response =>
        exact (countReadBytes_keeps.bind fun _ => getConnection_keeps.bind fun _ =>
          handleResponse_keeps token timeout response) (d.withSession s) hlate
    | error error =>
      cases error with
      | io error =>
        have hlate : s.IsLate launched deadline := by
          apply hs
          rintro _ ⟨⟩
          rfl
        refine (countReadBytes_keeps.bind fun _ => getConnection_keeps.bind fun c => .ite ?_
          (.ite ?_ ?_)) (d.withSession s) hlate
        · exact recoverOrStop_keeps token timeout _ _
        · exact session_keeps Connection.refreshInterest_keeps
        · exact failBeforeStart_keeps token timeout
      | _ =>
        simp only [ensures_bind, ensures_countReadBytes, ensures_getConnection, ensures_throw]
  · exact fun _ _ h => h

theorem handleEvent_keeps (event : Event) :
    Keeps (IsLate launched deadline) (handleEvent token timeout event) :=
  getConnection_keeps.bind fun _ => .ite (.pure _)
    (.branch _ _ (handleError_keeps token timeout)
      (.branch _ _ (handleWritable_keeps token timeout)
        (.ite (handleReadable_keeps token timeout) (.pure _))))

theorem handleExpired_keeps : Keeps (IsLate launched deadline) (handleExpired token timeout) := by
  have hnote : ∀ error : IoError, Keeps (IsLate launched deadline) (noteExpiry error) :=
    fun error d hd => hd
  refine (session_keeps Connection.expire_keeps).bind fun expiration => ?_
  cases expiration with
  | stopped => exact leave_keeps
  | requestTimeout =>
    exact (hnote _).bind fun _ => (countError_keeps _).bind fun _ =>
      recoverOrStop_keeps token timeout _ _
  | connectionTimeout =>
    exact (hnote _).bind fun _ => (countError_keeps _).bind fun _ =>
      retryOrAbandon_keeps token timeout

theorem handlePace_keeps : Keeps (IsLate launched deadline) handlePace :=
  (session_keeps Connection.stopIfExpired_keeps).bind fun _ =>
    .ite leave_keeps (session_keeps Connection.resumeAtPace_keeps)

end Handlers

end Desk

theorem Connection.stream_invariant :
    Connection.Invariant fun _ c => c.stream.tls = c.tls where
  time t t' c hle h := h
  connected addresses limit tls drawn addressIndex t := rfl
  move t c c' h hmove := by
    cases hmove with
    | hear data eof =>
      rw [Connection.hear]
      split <;> exact h
    | awaitPace =>
      rw [Connection.awaitPace]
      split <;> exact h
    | begin =>
      rw [Connection.begin]
      split <;> exact h
    | opened hassign =>
      cases hassign with
      | _ => rfl
    | @answer data eof =>
      have hheard : (c.hear data eof).stream.tls = (c.hear data eof).tls := by
        rw [Connection.hear]
        split <;> exact h
      exact hheard
    | _ => exact h

namespace Worker

open Happening

/-- The clock stands while the next step deals with an event or a timer. -/
def keepsTime (w : Worker) (sequence : RequestSequence) : Bool :=
  (w.sharing sequence).task?.isNone ||
    decide ((w.sharing sequence).step.world.clock = w.world.clock)

/-- The worker uses plain TCP, and what its connections have launched was before their
deadlines. -/
structure Punctual (w : Worker) : Prop where
  tls_eq : w.tls = false
  plain : ∀ c ∈ w.connections, c.tls = false
  stream_eq : ∀ c ∈ w.connections, c.stream.tls = c.tls
  dated : ∀ c ∈ w.connections, c.Dated w.world.clock
  before : ∀ c ∈ w.connections, ∀ deadline, c.limit = .deadline deadline →
    ∀ time ∈ launches c.history, time < deadline

variable {w : Worker}

/-- A handler that starts at the deadline or later launches nothing. -/
theorem Punctual.launches_eq (h : w.Punctual) {w' : Worker} {token : ℕ} {handler : DeskM Unit}
    {c : Connection} {d d' : Desk} (hworks : w.Works w' token handler c d d') {deadline : ℕ}
    (hlimit : c.limit = .deadline deadline) (hlate : deadline ≤ w.world.clock) :
    launches d'.connection.history = launches c.history := by
  have hmem := List.mem_of_getElem? hworks.connection_eq
  obtain ⟨hconnection, hworld⟩ := hworks.start
  have hd : d.IsLate (launches c.history) deadline := by
    constructor
    · have houtlook : c.outlook = ⟨.deadline deadline, false, false, launches c.history⟩ := by
        rw [Connection.outlook, h.stream_eq c hmem, h.plain c hmem, hlimit]
      exact (congrArg Connection.outlook hconnection).trans houtlook
    · exact hlate.trans_eq (congrArg World.clock hworld).symm
  have hkeeps : StatefulPrograms.Keeps (Desk.IsLate (launches c.history) deadline) handler := by
    obtain ⟨event, rfl⟩ | rfl | rfl := task_cases hworks.task_eq
    · exact Desk.handleEvent_keeps token w.timeout event
    · exact Desk.handleExpired_keeps token w.timeout
    · exact Desk.handlePace_keeps
  exact congrArg Connection.Outlook.launches ((hkeeps d hd).of_ok hworks.run).1

theorem Punctual.step (h : w.Punctual)
    (htime : w.task?.isNone || decide (w.step.world.clock = w.world.clock)) : w.step.Punctual := by
  have hdated : ∀ c ∈ w.step.connections, c.Dated w.step.world.clock :=
    (invariant_connections Connection.dated_invariant).step h.dated
  refine ⟨?_, ?_, ?_, hdated, ?_⟩
  · exact (congrArg Settings.tls w.step_settings).trans h.tls_eq
  · intro c' hc'
    cases w.step_arises c' hc' with
    | stayed hmem => exact h.plain c' hmem
    | made heq =>
      rw [heq]
      exact h.tls_eq
    | worked hworks heq =>
      rw [heq, hworks.moves.settings_eq.2]
      exact h.plain _ (List.mem_of_getElem? hworks.connection_eq)
  · exact (invariant_connections Connection.stream_invariant).step h.stream_eq
  · intro c' hc' deadline hlimit time htime'
    cases w.step_arises c' hc' with
    | stayed hmem => exact h.before c' hmem deadline hlimit time htime'
    | made heq =>
      rw [heq] at htime'
      cases htime'
    | @worked token handler c d d' hworks heq =>
      have hmem := List.mem_of_getElem? hworks.connection_eq
      have hlimit₀ : c.limit = .deadline deadline := by
        rw [← hworks.moves.settings_eq.1, ← heq]
        exact hlimit
      by_cases hlate : deadline ≤ w.world.clock
      · rw [heq, h.launches_eq hworks hlimit₀ hlate] at htime'
        exact h.before c hmem deadline hlimit₀ time htime'
      · have hstands : w.step.world.clock = w.world.clock := by
          rw [hworks.task_eq] at htime
          exact of_decide_eq_true htime
        have hle := (hdated c' hc').launches_le time htime'
        omega

theorem Punctual.shareStep (w : Worker) (sequence : RequestSequence)
    (htime : w.keepsTime sequence) (h : w.Punctual) : (w.shareStep sequence).1.Punctual := by
  have hsharing : (w.sharing sequence).Punctual :=
    ⟨h.tls_eq, h.plain, h.stream_eq, h.dated, h.before⟩
  exact hsharing.step htime

end Worker

namespace Connection

open Happening

/-- No request is begun or recovered at the deadline or later, and each write is of a request
that was begun before it. -/
structure MeetsDeadline (deadline : ℕ) (c : Connection) : Prop where
  begins : ∀ time, .began time ∈ c.history → time < deadline
  writes : ∀ bytes time earlier, .wrote bytes time :: earlier <:+ c.history →
    ∃ begun, begunAt earlier = some begun ∧ begun < deadline
  recovers : ∀ left time earlier, .opened left time :: .restarted :: earlier <:+ c.history →
    time < deadline

theorem Dated.meetsDeadline {t deadline : ℕ} {c : Connection} (h : c.Dated t)
    (hbefore : ∀ time ∈ launches c.history, time < deadline) : c.MeetsDeadline deadline := by
  constructor
  · intro time hmem
    exact hbefore time (launches_of_mem hmem)
  · intro bytes time earlier hsuffix
    obtain ⟨begun, hbegun⟩ := Option.isSome_iff_exists.mp (begunAt_of_wrote h.writes hsuffix)
    have hearlier := launches_suffix ((List.suffix_cons _ earlier).trans hsuffix)
    exact ⟨begun, hbegun, hbefore begun (hearlier (launches_of_begunAt hbegun))⟩
  · intro left time earlier hsuffix
    exact hbefore time (launches_suffix hsuffix List.mem_cons_self)

end Connection

namespace RunInput

open Happening

/-- In every run over plain TCP, as long as the clocks stand while events and timers are dealt
with, every connection with a deadline meets it. -/
theorem deadlines_met (input : RunInput) (hplain : input.tls = false) {schedule : List ℕ}
    (htime : SharedResource.everyTurn Worker.shareStep Worker.keepsTime input.start schedule) :
    ∀ w ∈ (input.after schedule).components, ∀ c ∈ w.connections, ∀ deadline,
      c.limit = .deadline deadline → c.MeetsDeadline deadline := by
  have hstart : ∀ w ∈ input.start.components, w.Punctual := by
    intro w hw
    rw [start_components, List.mem_map] at hw
    obtain ⟨⟨limits, worker⟩, -, rfl⟩ := hw
    exact ⟨hplain, List.forall_mem_nil _, List.forall_mem_nil _, List.forall_mem_nil _,
      List.forall_mem_nil _⟩
  intro w hw c hc deadline hlimit
  have h := SharedResource.forall_everyTurn Worker.shareStep Worker.Punctual.shareStep hstart
    htime w hw
  exact (h.dated c hc).meetsDeadline (h.before c hc deadline hlimit)

/-- The socket takes nothing at the first attempt, and the whole request after the deadline. -/
def blockedRun : RunInput :=
  plain (.duration 10) 1 (.inOrder [getRoot]) none fun call =>
    { elapsed := if call = 15 then 10 else 0
      writes := if call = 17 then [.ok 18] else []
      events := [{ token := 0, isWritable := true }] }

theorem deadlines_met_sample :
    ∃ w ∈ (blockedRun.after (List.replicate 10 0)).components, ∃ c ∈ w.connections,
      c.limit = .deadline 10 ∧ c.MeetsDeadline 10 := by
  have hsome : ∃ w ∈ (blockedRun.after (List.replicate 10 0)).components, ∃ c ∈ w.connections,
      c.limit = .deadline 10 := by
    decide +kernel
  obtain ⟨w, hw, c, hc, hlimit⟩ := hsome
  exact ⟨w, hw, c, hc, hlimit,
    deadlines_met blockedRun rfl (by decide +kernel) w hw c hc 10 hlimit⟩

/-- The first byte of a request that was begun in time is written at the deadline. -/
theorem first_byte_late :
    blockedRun.tls = false ∧
      SharedResource.everyTurn Worker.shareStep Worker.keepsTime blockedRun.start
        (List.replicate 10 0) ∧
      ∃ w ∈ (blockedRun.after (List.replicate 10 0)).components, ∃ c ∈ w.connections,
        ∃ deadline bytes time earlier, c.limit = .deadline deadline ∧
          .wrote bytes time :: earlier <:+ c.history ∧ isUnwritten earlier ∧ bytes ≠ [] ∧
          deadline ≤ time := by
  have hwrote : ∃ w ∈ (blockedRun.after (List.replicate 10 0)).components, ∃ c ∈ w.connections,
      c.limit = .deadline 10 ∧ c.history = [.wrote getRoot.bytes 10, .began 0, .drew 0,
        .opened ⟨0, false, true⟩ 0] := by
    decide +kernel
  refine ⟨rfl, by decide +kernel, ?_⟩
  obtain ⟨w, hw, c, hc, hlimit, hhistory⟩ := hwrote
  refine ⟨w, hw, c, hc, 10, getRoot.bytes, 10, [.began 0, .drew 0, .opened ⟨0, false, true⟩ 0],
    hlimit, ?_, rfl, ?_, le_rfl⟩
  · rw [hhistory]
  · exact List.cons_ne_nil _ _

end RunInput

end Rload
