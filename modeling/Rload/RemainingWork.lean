import Rload.LateRequests
import Rload.TimerQueues

/-!
# What is left to do

The credit of a connection bounds how often its timers can still be set anew. With a fixed
limit every turn that sets them lowers the credit, because requests and recovery attempts are
limited; with a deadline this is so from the deadline on, because nothing is drawn or recovered
then. While the credit stays, the time by which the timer passes stays as well.
-/

namespace Rload
open StatefulPrograms

namespace Connection

/-- One for each request and each recovery attempt that may follow, with a weight. -/
def allowance (c : Connection) : ℕ :=
  match c.limit with
  | .requests count =>
    8 * (count - c.completed) + 2 * (fixedRequestRecoveryAttempts - c.recoveryAttempts)
  | .deadline _ => 0

def credit (c : Connection) : ℕ :=
  if c.done then 0 else 1 + (if c.started.isNone then 1 else 0) + c.allowance

/-- The time by which the deadline of a connection passes that waits for no pace. -/
def lastDeadline (timeout : ℕ) (c : Connection) : ℕ :=
  match c.started with
  | some started => started + timeout
  | none => c.limit.deadline?.getD (c.connectedAt + timeout)

/-- The credit is lowered, or the connection waits for the same time as before. -/
def Yields (timeout : ℕ) (c c' : Connection) : Prop :=
  c'.credit < c.credit ∨
    c'.credit = c.credit ∧ c'.lastDeadline timeout = c.lastDeadline timeout

variable {t t' timeout : ℕ} {c c' c'' : Connection}

theorem credit_of_done (h : c.done = true) : c.credit = 0 := by
  rw [credit, h]
  rfl

theorem credit_of_open (h : c.done = false) :
    c.credit = 1 + (if c.started.isNone then 1 else 0) + c.allowance := by
  rw [credit, h]
  rfl

theorem credit_pos (h : c.done = false) : 0 < c.credit := by
  rw [credit_of_open h]
  omega

theorem nextDeadline_le {time : ℕ} (h : c.nextDeadline timeout = some time) :
    time ≤ c.lastDeadline timeout := by
  rw [nextDeadline, if_neg (by simp [awaitingPace_of_nextDeadline h])] at h
  unfold lastDeadline
  cases hstarted : c.started with
  | some started =>
    rw [hstarted] at h
    cases h
    exact le_rfl
  | none =>
    rw [hstarted] at h
    cases hlimit : c.limit with
    | requests count =>
      rw [hlimit] at h
      cases h
      exact le_rfl
    | deadline time =>
      rw [hlimit] at h
      cases h
      exact min_le_left _ _

theorem Yields.refl (timeout : ℕ) (c : Connection) : Yields timeout c c := Or.inr ⟨rfl, rfl⟩

theorem Yields.trans (h : Yields timeout c c') (h' : Yields timeout c' c'') :
    Yields timeout c c'' := by
  unfold Yields at h h' ⊢
  omega

theorem Yields.credit_le (h : Yields timeout c c') : c'.credit ≤ c.credit := by
  unfold Yields at h
  omega

theorem yields_of_done (hopen : c.done = false) (h : c'.done = true) : Yields timeout c c' := by
  apply Or.inl
  rw [credit_of_done h]
  exact credit_pos hopen

theorem Exchange.starts (h : Exchange t t' c c') :
    c'.started = c.started ∨ c.started = none ∧ c'.started.isSome := by
  induction h with
  | refl => exact Or.inl rfl
  | later _ _ ih => exact ih
  | awaitPace _ hpace hearly ih =>
    rw [Connection.awaitPace]
    split
    · exact ih
    · exact ih
  | @begin t' c c' h hpace ih =>
    rw [Connection.begin]
    split
    · rename_i hnone
      refine Or.inr ⟨?_, rfl⟩
      cases ih with
      | inl hsame => exact hsame.symm.trans (Option.isNone_iff_eq_none.mp hnone)
      | inr hstarted => exact hstarted.1
    · exact ih
  | advance _ _ _ _ ih => exact ih
  | watch _ interest ih => exact ih

/-- A request that is begun lowers the credit by one. -/
theorem yields_of_frame (hframe : c'.frame = c.frame)
    (hstarts : c'.started = c.started ∨ c.started = none ∧ c'.started.isSome)
    (hopen : c.done = false) : Yields timeout c c' := by
  have hdone : c'.done = c.done := congrArg (·.done) hframe
  have hlimit : c'.limit = c.limit := congrArg (·.limit) hframe
  have hcompleted : c'.completed = c.completed := congrArg (·.completed) hframe
  have hrecovery : c'.recoveryAttempts = c.recoveryAttempts :=
    congrArg (·.recoveryAttempts) hframe
  have hconnected : c'.connectedAt = c.connectedAt := congrArg (·.connectedAt) hframe
  have hallowance : c'.allowance = c.allowance := by
    rw [allowance, allowance, hlimit, hcompleted, hrecovery]
  rw [Yields, credit_of_open hopen, credit_of_open (hdone.trans hopen), hallowance]
  obtain hsame | ⟨hnone, hsome⟩ := hstarts
  · rw [lastDeadline, lastDeadline, hsame, hlimit, hconnected]
    exact Or.inr ⟨rfl, rfl⟩
  · rw [hnone, Option.isNone_eq_false_iff.mpr hsome]
    apply Or.inl
    simp

variable {count : ℕ}

theorem allowance_of_fixed (h : c.limit = .requests count) :
    c.allowance =
      8 * (count - c.completed) + 2 * (fixedRequestRecoveryAttempts - c.recoveryAttempts) := by
  rw [allowance, h]

/-- Each recovery attempt lowers the credit by two, and a request that is recovered is to be
begun again. -/
theorem ComesBack.credit_lt {assign : Connection → Connection} {k : ℕ} {w w' : World}
    (h : ComesBack assign k w c c' w') (hassign : assign = toRetry ∨ assign = toRecover)
    (hlimit : c.limit = .requests count) (hopen : c.done = false) : c'.credit < c.credit := by
  obtain ⟨tried, made, limited, htries, addressIndex, now, -, -, rfl⟩ := h.reopens
  have hlimited : limited = k + 1 ∧ c.recoveryAttempts + k < fixedRequestRecoveryAttempts := by
    cases htries with
    | fixed _ hk => exact ⟨rfl, hk⟩
    | @deadline time made hduration => exact absurd (hduration.symm.trans hlimit) (by simp)
  have hspent :
      (Connection.attempts tried made limited (c.watch none)).allowance + 2 ≤ c.allowance := by
    rw [allowance_of_fixed hlimit, allowance_of_fixed (by exact hlimit), hlimited.1]
    have hrecovery : (Connection.attempts tried made (k + 1) (c.watch none)).recoveryAttempts =
        c.recoveryAttempts + (k + 1) := rfl
    have hcompleted : (Connection.attempts tried made (k + 1) (c.watch none)).completed =
        c.completed := rfl
    rw [hrecovery, hcompleted]
    omega
  rw [credit_of_open hopen]
  cases hassign with
  | inl h =>
    rw [h, credit_of_open (by exact hopen)]
    have hstarted : (reopened toRetry addressIndex now
        (Connection.attempts tried made limited (c.watch none))).started = c.started := rfl
    have hallowance : (reopened toRetry addressIndex now
        (Connection.attempts tried made limited (c.watch none))).allowance =
      (Connection.attempts tried made limited (c.watch none)).allowance := rfl
    rw [hstarted, hallowance]
    omega
  | inr h =>
    rw [h, credit_of_open (by exact hopen)]
    have hallowance : (reopened toRecover addressIndex now
        (Connection.attempts tried made limited (c.watch none))).allowance =
      (Connection.attempts tried made limited (c.watch none)).allowance := rfl
    rw [hallowance]
    split <;> split <;> omega

/-- The requests that follow are one less. -/
theorem GoesOn.credit_lt {drawn : Drawn} {w w' : World} (h : GoesOn drawn w c c' w')
    (hlimit : c.limit = .requests count) (hopen : c.done = false)
    (hmore : c.completed + 1 < count) : c'.credit < c.credit := by
  have hturned : ∀ c₁ : Connection, c₁.limit = c.limit → c₁.completed = c.completed + 1 →
      c₁.done = c.done → c₁.credit < c.credit := by
    intro c₁ hlimit₁ hcompleted hdone
    rw [credit_of_open hopen, credit_of_open (hdone.trans hopen), allowance_of_fixed hlimit,
      allowance_of_fixed (hlimit₁.trans hlimit), hcompleted]
    have hbudget : fixedRequestRecoveryAttempts - c₁.recoveryAttempts ≤ 3 := Nat.sub_le _ _
    split <;> split <;> omega
  have hprogress := h.progress_eq
  exact hturned c' (congrArg (·.limit) hprogress) (congrArg (·.completed) hprogress)
    (congrArg (·.done) hprogress)

end Connection

namespace Desk
open Connection

variable {token timeout count : ℕ} {n : FailureCounts} {allowed : Counter → Prop}
  {d d₁ d' : Desk}

theorem Touches.starts (h : Touches d n d₁) :
    d₁.connection.started = d.connection.started ∨
      d.connection.started = none ∧ d₁.connection.started.isSome := by
  induction h with
  | refl => exact Or.inl rfl
  | exchange h hx hw ih =>
    obtain hsame | ⟨hnone, hsome⟩ := hx.starts
    · simp only [moved, hsame]
      exact ih
    · refine Or.inr ⟨?_, hsome⟩
      cases ih with
      | inl hkept => exact hkept.symm.trans hnone
      | inr hstarted => exact hstarted.1
  | read _ hr hw ih =>
    have hstarted := congrArg (·.started) hr.kept
    simp only [countedBytes, moved, counted, clearReadBytes]
    exact hstarted ▸ ih

theorem Touches.yields (h : Touches d n d₁) (hopen : d.connection.done = false) :
    Yields timeout d.connection d₁.connection := yields_of_frame h.kept h.starts hopen

/-- A failure or the end lowers the credit. -/
theorem Settles.credit_lt (h : Settles token timeout allowed d d')
    (hopen : d.connection.done = false) (hlimit : d.connection.limit = .requests count) :
    d'.connection.credit < d.connection.credit := by
  have hdone : d'.connection.done = true → d'.connection.credit < d.connection.credit := by
    intro hdone
    rw [credit_of_done hdone]
    exact credit_pos hopen
  cases h with
  | @cameBack d₁ c w k counter f assign h hallowed hf hassign hback hw =>
    have hopen₁ : d₁.connection.done = false := h.done_eq.trans hopen
    have hlimit₁ : d₁.connection.limit = .requests count :=
      (congrArg (·.limit) h.kept).trans hlimit
    have hlt : c.credit < d₁.connection.credit := hback.credit_lt hassign hlimit₁ hopen₁
    have hle := (@Touches.yields 0 _ _ _ h hopen).credit_le
    have hcleared : (((d₁.moved c w).countedAttempts.countedError f).scheduled token
        timeout).connection.credit = c.credit := rfl
    omega
  | gaveUp h hallowed hf hup hw => exact hdone hup.done_after
  | ranOut => exact hdone rfl
  | stopped h hstop hw =>
    obtain ⟨interest, hc⟩ := hstop.connection_eq
    have hend := congrArg (·.done) hc
    exact hdone hend

/-- With a fixed limit every turn yields, unless the connection is opened again at its pace. -/
theorem Turn.yields (h : Turn token timeout d d') (hopen : d.connection.done = false)
    (hlimit : d.connection.limit = .requests count)
    (hre : d.connection.reconnectAtPace = false) :
    Yields timeout d.connection d'.connection := by
  cases h with
  | rested h => exact h.yields hopen
  | begun h => exact h.yields hopen
  | deferred h => exact h.yields hopen
  | settled h => exact Or.inl (h.credit_lt hopen hlimit)
  | answeredLast => exact yields_of_done hopen rfl
  | @answeredNext c₁ c w₁ w response uri drawn hanswer hw₁ huri hw hon hmore =>
    have hkept := frame_of_readFrame hanswer.kept
    have hopen₁ : c₁.clearReadBytes.done = false := (congrArg (·.done) hkept).trans hopen
    have hlimit₁ : c₁.clearReadBytes.limit = .requests count :=
      (congrArg (·.limit) hkept).trans hlimit
    have hcompleted : c₁.clearReadBytes.completed = d.connection.completed :=
      congrArg (·.completed) hkept
    have hstarted : c₁.clearReadBytes.started = d.connection.started :=
      congrArg (·.started) hanswer.kept
    have hlt := hon.credit_lt hlimit₁ hopen₁ (hcompleted ▸ hmore count hlimit)
    have hframe : c₁.clearReadBytes.frame = d.connection.frame := hkept
    have hle := (@yields_of_frame 0 _ _ hframe (Or.inl hstarted) hopen).credit_le
    exact Or.inl (hlt.trans_le hle)
  | resumed hpace =>
    rw [hre] at hpace
    cases hpace

theorem Turns.yields (h : Turns token timeout d d') (hlimit : d.connection.limit = .requests count)
    (hunpaced : ∀ d₁, Turns token timeout d d₁ → d₁.connection.reconnectAtPace = false) :
    Yields timeout d.connection d'.connection := by
  induction h with
  | refl => exact .refl timeout _
  | tail hturns hturn ih =>
    have hlimit₁ := (Turns.moves hturns).settings_eq.1.trans hlimit
    exact ih.trans (hturn.2.yields hturn.1 hlimit₁ (hunpaced _ hturns))

end Desk

/-- The deadline of the connection has passed, and its request was begun at the time. -/
structure Session.IsOver (started deadline : ℕ) (s : Session) : Prop where
  limit_eq : s.connection.limit = .deadline deadline
  started_eq : s.connection.started = some started
  passed : deadline ≤ s.world.clock

namespace Connection

section Methods

variable {started deadline : ℕ} {s s' : Session}

theorem over_of_eq (h : s.IsOver started deadline)
    (hlimit : s'.connection.limit = s.connection.limit)
    (hstarted : s'.connection.started = s.connection.started)
    (hw : s.world.clock ≤ s'.world.clock) : s'.IsOver started deadline :=
  ⟨hlimit.trans h.limit_eq, hstarted.trans h.started_eq, h.passed.trans hw⟩

theorem takeError_over {operation : Bool → Bool → Operation}
    (hf : ∀ started written error, Failure.fatal ⟨operation started written, error⟩ = false) :
    Keeps (Session.IsOver started deadline) (takeError operation) := by
  intro s hs
  refine (takeError_spec s hf).mono (fun _ s' h => ?_) fun _ _ _ => ⟨⟩
  exact over_of_eq hs (congrArg (·.limit) h.1) (congrArg (·.started) h.1) h.2.clock_le

theorem refreshInterest_over : Keeps (Session.IsOver started deadline) refreshInterest := by
  intro s hs
  refine (refreshInterest_spec s).mono ?_ fun _ _ _ => ⟨⟩
  rintro _ s' ⟨interest, hc, hw⟩
  exact over_of_eq hs (congrArg (·.limit) hc) (congrArg (·.started) hc) hw.clock_le

/-- A begun request waits for no pace. -/
theorem deferReconnectUntilPace_over :
    Keeps (Session.IsOver started deadline) deferReconnectUntilPace := by
  intro s hs
  refine (deferReconnectUntilPace_spec s).mono ?_ fun _ _ _ => ⟨⟩
  rintro deferred s' ⟨hw, hresult⟩
  split at hresult
  · exact absurd (hs.started_eq.symm.trans hresult.2.1) (by simp)
  · exact over_of_eq hs (congrArg (·.limit) hresult) (congrArg (·.started) hresult) hw.clock_le

theorem retryAddress_over : Keeps (Session.IsOver started deadline) retryAddress := by
  intro s hs
  refine (retryAddress_spec s).mono ?_ fun _ _ _ => ⟨⟩
  rintro retried s' ⟨k, hw, hresult⟩
  split at hresult
  · obtain ⟨tried, made, limited, -, addressIndex, now, -, -, hc⟩ := hresult.reopens
    exact over_of_eq hs (congrArg (·.limit) hc) (congrArg (·.started) hc) hw.clock_le
  · have hc := hresult.connection_eq
    exact over_of_eq hs (congrArg (·.limit) hc) (congrArg (·.started) hc) hw.clock_le

theorem recoverRequest_over (hs : s.IsOver started deadline) :
    Ensures recoverRequest s (fun recovered s' => recovered = false ∧ s'.IsOver started deadline)
      fun _ _ => True := by
  unfold recoverRequest
  rw [ensures_bind, ensures_get, hs.limit_eq]
  simp only [ensures_bind, ensures_world]
  apply World.ensures_now
  intro w hw
  rw [if_pos (hs.passed.trans hw.clock_le)]
  exact ⟨rfl, over_of_eq hs rfl rfl hw.clock_le⟩

theorem stopAfterDurationError_over (hs : s.IsOver started deadline) :
    Ensures stopAfterDurationError s
      (fun stopped s' => stopped = true ∧ s'.connection.done = true ∧
        s'.IsOver started deadline)
      fun _ _ => True := by
  refine (stopAfterDurationError_spec s).mono ?_ fun _ _ _ => ⟨⟩
  rintro stopped s' ⟨hw, hresult⟩
  cases stopped with
  | true =>
    have hc : s'.connection = (finish s.connection).watch none := hresult.1
    refine ⟨rfl, congrArg (·.done) hc, ?_⟩
    exact over_of_eq hs (congrArg (·.limit) hc) (congrArg (·.started) hc) hw.clock_le
  | false =>
    have hbefore := hresult.2 deadline hs.limit_eq
    have hpassed := hs.passed.trans hw.clock_le
    omega

/-- The connection has answered its last request. -/
theorem finishResponse_over (connectionClose : Bool) :
    Keeps (Session.IsOver started deadline) (finishResponse connectionClose) := by
  intro s hs
  have hlimit : (complete s.connection).limit = .deadline deadline := hs.limit_eq
  unfold finishResponse
  simp only [ensures_bind, ensures_get, ensures_update, ensures_world, hlimit]
  refine (shouldContinue_late hs.passed _).mono ?_ fun _ _ h => h
  rintro more w₁ ⟨rfl, hw₁⟩
  simp only [ensures_ite, ensures_bind, ensures_update, ensures_pure]
  refine ⟨fun h => absurd h Bool.false_ne_true, fun _ => ?_⟩
  refine (deregister_spec ⟨finish (complete s.connection), w₁⟩).mono ?_ fun _ _ _ => ⟨⟩
  rintro _ s₂ ⟨hc, hw₂⟩
  exact over_of_eq hs (congrArg (·.limit) hc) (congrArg (·.started) hc) (hw₁.trans hw₂.clock_le)

theorem stopIfExpired_over (hs : s.IsOver started deadline) :
    Ensures stopIfExpired s (fun stopped s' => stopped = false ∧ s'.IsOver started deadline)
      fun _ _ => True := by
  unfold stopIfExpired
  simp only [ensures_bind, ensures_get, ensures_ite, ensures_pure]
  refine ⟨fun _ => ⟨trivial, hs⟩, fun hnot => ?_⟩
  rw [hs.started_eq] at hnot
  exact absurd rfl hnot

theorem readResponse_over (hs : s.IsOver started deadline) :
    Ensures (attempt Desk.runError readResponse) s
      (fun response s' => (∀ error, response = .error error → (Halt.error error).isIo = true) →
        s'.IsOver started deadline) fun _ _ => True := by
  have of_frame : ∀ s' : Session, s'.connection.readFrame = s.connection.readFrame →
      s.world.clock ≤ s'.world.clock → s'.IsOver started deadline :=
    fun s' hkept hw => over_of_eq hs (congrArg (·.limit) hkept) (congrArg (·.started) hkept) hw
  apply ensures_attempt
  apply (readResponse_spec s).mono
  · rintro response s' ⟨hw, hresult⟩ -
    cases response with
    | none => exact of_frame s' (Reads.kept hresult) hw.clock_le
    | some r => exact of_frame s' (Answers.kept hresult) hw.clock_le
  · rintro e s' ⟨hreads, hraises⟩
    refine ⟨fun error herror hio => ?_, fun _ => ⟨⟩⟩
    cases e with
    | error error' =>
      obtain rfl : error' = error := Option.some.inj herror
      exact of_frame s' (hreads (hio _ rfl)).kept hraises.clock_le
    | panic message => cases herror
    | diverge => cases herror

theorem writeRequest_over (operation : Bool → Operation) :
    Keeps (Session.IsOver started deadline)
      (attempt Desk.runError (writeRequest operation)) := by
  apply KeepsOr.attempt
  intro s hs
  have hsome : s.connection.started.isSome := by
    rw [hs.started_eq]
    rfl
  apply (writeRequest_spec s operation).mono
  · rintro _ s' ⟨hx, hw⟩
    exact over_of_eq hs hx.limit_eq (hx.outlook_eq hsome).2 hw.clock_le
  · rintro e s' ⟨hx, hraises⟩
    have hover := over_of_eq hs hx.limit_eq (hx.outlook_eq hsome).2 hraises.clock_le
    exact ⟨fun _ _ => hover, fun _ => ⟨⟩⟩

end Methods

end Connection

namespace Desk
open Connection

section Handlers

variable (token timeout : ℕ) {started deadline : ℕ} {α : Type}

def IsOver (started deadline : ℕ) (d : Desk) : Prop := d.session.IsOver started deadline

theorem session_over {m : ConnectionM α} (h : Keeps (Session.IsOver started deadline) m) :
    Keeps (IsOver started deadline) (liftM m : DeskM α) :=
  KeepsOr.zoom (fun _ hd => hd) (fun _ _ _ hs => hs) (fun _ _ _ _ => ⟨⟩) h

/-- What has to do with the counters and the queues alone. -/
theorem modify_over {f : Desk → Desk} (h : ∀ d, (f d).session = d.session) :
    Keeps (IsOver started deadline) (modify f : DeskM Unit) := by
  intro d hd
  rw [ensures_modify, IsOver, h d]
  exact hd

theorem countRecoveryAttempts_over : Keeps (IsOver started deadline) countRecoveryAttempts :=
  fun _ hd => ⟨hd.limit_eq, hd.started_eq, hd.passed⟩

theorem countReadBytes_over : Keeps (IsOver started deadline) countReadBytes :=
  fun _ hd => ⟨hd.limit_eq, hd.started_eq, hd.passed⟩

/-- A begun request that fails after the deadline is the last of its connection. -/
theorem recoverOrStop_over (addError : SocketErrors → SocketErrors) (error : RunError) {d : Desk}
    (hd : d.IsOver started deadline) :
    Ensures (recoverOrStop token timeout addError error) d
      (fun _ d' => d'.connection.done = true ∧ d'.IsOver started deadline) fun _ _ => True := by
  unfold recoverOrStop
  simp only [ensures_bind, ensures_session, ensures_countRecoveryAttempts, ensures_ite]
  refine (recoverRequest_over hd).mono ?_ fun _ _ _ => ⟨⟩
  rintro recovered s ⟨rfl, hs⟩
  refine ⟨fun h => absurd h Bool.false_ne_true, fun _ => ?_⟩
  have hcounted : Session.IsOver started deadline ⟨s.connection.clearRecoveryAttempts, s.world⟩ :=
    ⟨hs.limit_eq, hs.started_eq, hs.passed⟩
  refine (stopAfterDurationError_over hcounted).mono ?_ fun _ _ _ => ⟨⟩
  rintro stopped s' ⟨rfl, hdone, hs'⟩
  exact ⟨fun _ => ⟨hdone, hs'⟩, fun h => absurd rfl h⟩

theorem recoverOrStop_keeps_over (addError : SocketErrors → SocketErrors) (error : RunError) :
    Keeps (IsOver started deadline) (recoverOrStop token timeout addError error) :=
  fun _ hd => (recoverOrStop_over token timeout addError error hd).mono (fun _ _ h => h.2)
    fun _ _ h => h

theorem retryOrAbandon_over : Keeps (IsOver started deadline) (retryOrAbandon token timeout) :=
  (session_over retryAddress_over).bind fun _ => countRecoveryAttempts_over.bind
    fun _ => .ite (modify_over fun _ => rfl) (modify_over fun _ => rfl)

theorem checkHandshake_over : Keeps (IsOver started deadline) checkHandshake := by
  intro d hd
  unfold checkHandshake
  simp only [ensures_bind, ensures_getConnection, ensures_desk_world, ensures_ite]
  refine (d.connection.stream.isTlsHandshaking_spec d.world).mono ?_ fun _ _ _ => ⟨⟩
  rintro handshaking w ⟨hw, -⟩
  have hlater : IsOver started deadline { d with world := w } :=
    over_of_eq hd rfl rfl hw.clock_le
  refine ⟨fun _ => ?_, fun _ => hlater⟩
  rw [ensures_session]
  refine (writeRequest_over (fun _ => .handshake) _ hlater).mono ?_ fun _ _ _ => ⟨⟩
  intro written s hs
  split
  · exact ⟨⟩
  · exact hs

theorem failBeforeStart_over : Keeps (IsOver started deadline) (failBeforeStart token timeout) :=
  checkHandshake_over.bind fun _ => KeepsOr.bind (modify_over fun _ => rfl) fun _ =>
    (session_over deferReconnectUntilPace_over).bind fun _ =>
      .ite (modify_over fun _ => rfl) (retryOrAbandon_over token timeout)

theorem getConnection_over : Keeps (IsOver started deadline) getConnection := fun _ hd => hd

theorem handleError_over : Keeps (IsOver started deadline) (handleError token timeout) := by
  refine (session_over (takeError_over fun _ _ _ => rfl)).bind fun error => ?_
  cases error with
  | none => exact .pure _
  | some error =>
    refine getConnection_over.bind fun c => .ite ?_ ?_
    · exact (recoverOrStop_keeps_over token timeout _ _).bind fun _ => .pure _
    · exact (failBeforeStart_over token timeout).bind fun _ => .pure _

theorem handleWritable_over : Keeps (IsOver started deadline) (handleWritable token timeout) := by
  refine (session_over (fun s hs => (stopIfExpired_over hs).mono (fun _ _ h => h.2)
    fun _ _ h => h)).bind fun stopped => .ite ?_ ?_
  · exact KeepsOr.bind (modify_over fun _ => rfl) fun _ => .pure _
  · refine (session_over (takeError_over fun _ _ _ => rfl)).bind fun error => ?_
    cases error with
    | some error => exact (failBeforeStart_over token timeout).bind fun _ => .pure _
    | none =>
      refine getConnection_over.bind fun before =>
        (session_over (writeRequest_over .write)).bind fun written => ?_
      split
      · exact .throw _
      · refine getConnection_over.bind fun c => ?_
        split
        · exact KeepsOr.bind (modify_over fun _ => rfl) fun _ =>
            (retryOrAbandon_over token timeout).bind fun _ => .pure _
        · exact (recoverOrStop_keeps_over token timeout _ _).bind fun _ => .pure _
      · refine (session_over refreshInterest_over).bind fun _ => getConnection_over.bind fun c =>
          .ite ?_ (.pure _)
        exact KeepsOr.bind (modify_over fun _ => rfl) fun _ => .pure _

theorem handleResponse_over (response : CompletedResponse) :
    Keeps (IsOver started deadline) (handleResponse token timeout response) := by
  unfold handleResponse
  split
  · exact .throw _
  · exact KeepsOr.bind (modify_over fun _ => rfl) fun _ =>
      (session_over (finishResponse_over _)).bind fun finished =>
        .ite (modify_over fun _ => rfl) (modify_over fun _ => rfl)

theorem handleReadable_over : Keeps (IsOver started deadline) (handleReadable token timeout) := by
  intro d hd
  unfold handleReadable
  rw [ensures_bind, ensures_session]
  refine (readResponse_over hd).mono ?_ fun _ _ h => h
  intro response s hs
  cases response with
  | ok response =>
    have hover : s.IsOver started deadline := hs fun _ h => by cases h
    refine (countReadBytes_over.bind fun _ => getConnection_over.bind fun _ => ?_)
      (d.withSession s) hover
    cases response with
    | none => exact session_over refreshInterest_over
    | some response => exact handleResponse_over token timeout response
  | error error =>
    cases error with
    | io error =>
      have hover : s.IsOver started deadline := by
        apply hs
        rintro _ ⟨⟩
        rfl
      refine (countReadBytes_over.bind fun _ => getConnection_over.bind fun c => .ite ?_
        (.ite ?_ ?_)) (d.withSession s) hover
      · exact recoverOrStop_keeps_over token timeout _ _
      · exact session_over refreshInterest_over
      · exact failBeforeStart_over token timeout
    | _ => simp only [ensures_bind, ensures_countReadBytes, ensures_getConnection, ensures_throw]

theorem handleEvent_over (event : Event) :
    Keeps (IsOver started deadline) (handleEvent token timeout event) :=
  getConnection_over.bind fun _ => .ite (.pure _)
    (.branch _ _ (handleError_over token timeout)
      (.branch _ _ (handleWritable_over token timeout)
        (.ite (handleReadable_over token timeout) (.pure _))))

variable {token timeout} {d d' : Desk}

/-- The deadline that passes after the deadline of the run is the last of its connection. -/
theorem handleExpired_done (hlimit : d.connection.limit = .deadline deadline)
    (hpassed : deadline ≤ d.world.clock) :
    Ensures (handleExpired token timeout) d (fun _ d' => d'.connection.done = true)
      fun _ _ => True := by
  unfold handleExpired
  rw [ensures_bind, ensures_session]
  unfold expire
  simp only [ensures_bind, Connection.ensures_get, ensures_ite, ensures_pure]
  refine ⟨fun hsome => ?_, fun _ => ?_⟩
  · obtain ⟨time, hstarted⟩ := Option.isSome_iff_exists.mp hsome
    have hover : d.IsOver time deadline := ⟨hlimit, hstarted, hpassed⟩
    simp only [ensures_noteExpiry, ensures_countError]
    have hnoted : IsOver time deadline ((d.moved d.connection (d.world.note
        ⟨.expiry d.connection.hasStarted, requestTimedOut⟩)).countedError
          SocketErrors.addTimeout) := ⟨hover.limit_eq, hover.started_eq, hover.passed⟩
    exact (recoverOrStop_over token timeout id _ hnoted).mono (fun _ _ h => h.1) fun _ _ h => h
  · have hlate : d.session.connection.limit = .deadline deadline := hlimit
    simp only [ensures_world, hlate]
    refine (shouldContinue_late hpassed _).mono ?_ fun _ _ h => h
    rintro more w₁ ⟨rfl, hw₁⟩
    refine ⟨fun h => absurd h Bool.false_ne_true, fun _ => ?_⟩
    simp only [ensures_update]
    refine (deregister_spec ⟨finish d.connection, w₁⟩).mono ?_ fun _ _ _ => ⟨⟩
    rintro _ s₂ ⟨hc, -⟩
    exact congrArg (·.done) hc

/-- From the deadline on a begun request stays begun, and an event yields. -/
theorem yields_of_deadline (hlimit : d.connection.limit = .deadline deadline)
    (hafter : d'.connection.limit = .deadline deadline) (hopen : d.connection.done = false)
    (hstarted : ∀ time, d.connection.started = some time → d'.connection.started = some time) :
    Yields timeout d.connection d'.connection := by
  cases hdone : d'.connection.done with
  | true => exact yields_of_done hopen hdone
  | false =>
    have hallowance : d.connection.allowance = 0 ∧ d'.connection.allowance = 0 := by
      rw [allowance, allowance, hlimit, hafter]
      exact ⟨rfl, rfl⟩
    rw [Yields, credit_of_open hopen, credit_of_open hdone, hallowance.1, hallowance.2]
    cases hbegun : d.connection.started with
    | some time =>
      rw [lastDeadline, lastDeadline, hbegun, hstarted time hbegun]
      exact Or.inr ⟨rfl, rfl⟩
    | none =>
      cases hnow : d'.connection.started with
      | some time => exact Or.inl (by simp)
      | none =>
        rw [lastDeadline, lastDeadline, hbegun, hnow, hlimit, hafter]
        exact Or.inr ⟨rfl, rfl⟩

theorem handleEvent_yields_late {event : Event} (hlimit : d.connection.limit = .deadline deadline)
    (hpassed : deadline ≤ d.world.clock) (hopen : d.connection.done = false)
    (hrun : handleEvent token timeout event d = .ok () d') :
    Yields timeout d.connection d'.connection := by
  have hturns := (handleEvent_takes event).of_ok hrun
  apply yields_of_deadline hlimit ((Turns.moves hturns).settings_eq.1.trans hlimit) hopen
  intro time hstarted
  have hover : d.IsOver time deadline := ⟨hlimit, hstarted, hpassed⟩
  exact ((handleEvent_over token timeout event d hover).of_ok hrun).started_eq

end Handlers

end Desk

end Rload
