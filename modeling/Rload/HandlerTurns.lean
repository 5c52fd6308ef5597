import Rload.Turns

/-!
# Every handler takes turns

Each handler leaves the desk that some turns make of the one it found, or ends the worker. An
I/O error ends the worker if and only if the failure is fatal.
-/

namespace Rload
open StatefulPrograms Connection

/-- A failed write is an I/O error or an error of the TLS layer. -/
def Halt.isTransport : Halt → Bool
  | .error (.io _) | .error (.tls _) => true
  | _ => false

namespace Transport

theorem finishHandshake_transport (t : Transport) (operation : Operation) (w : World) :
    Ensures (t.finishHandshake operation) w (fun _ _ => True) fun e _ => e.isTransport := by
  have again : ∀ w₂, Ensures t.isTlsHandshaking w₂ (fun _ _ => True)
      fun e _ => e.isTransport := by
    intro w₂
    apply (t.isTlsHandshaking_spec w₂).mono
    · intro _ _ _
      trivial
    · intro _ _ h
      exact h.elim
  unfold finishHandshake
  simp only [ensures_bind]
  apply (t.isTlsHandshaking_spec w).mono
  · intro b w₁ _
    simp only [ensures_ite, ensures_bind]
    refine ⟨fun _ => ?_, fun _ => trivial⟩
    apply World.ensures_call
    intro r w₂ _
    cases r.fault with
    | none =>
      simp only [ensures_bind, ensures_pure]
      exact again w₂
    | some error =>
      simp only [ensures_ite, ensures_bind, ensures_pure]
      exact ⟨fun _ => again w₂, fun _ => ⟨fun _ => rfl, fun _ => rfl⟩⟩
  · intro _ _ h
    exact h.elim

theorem flushTls_transport (t : Transport) (operation : Operation) (w : World) :
    Ensures (t.flushTls operation) w (fun _ _ => True) fun e _ => e.isTransport := by
  unfold flushTls
  simp only [ensures_ite, ensures_bind]
  refine ⟨fun _ => ?_, fun _ => trivial⟩
  apply (wantsWrite_spec w).mono
  · intro b w₁ _
    refine ⟨fun _ => ?_, fun _ => trivial⟩
    apply World.ensures_call
    intro r w₂ _
    cases r.fault with
    | none => trivial
    | some error =>
      simp only [ensures_ite]
      exact ⟨fun _ => trivial, fun _ => rfl⟩
  · intro _ _ h
    exact h.elim

end Transport

namespace Connection

theorem writeLoop_transport (operation : Operation) (results : List (Except IoError ℕ))
    (s : Session) :
    Ensures (writeLoop operation results) s (fun _ _ => True) fun e _ => e.isTransport := by
  induction results generalizing s with
  | nil => trivial
  | cons result results ih =>
    cases result with
    | error error =>
      simp only [writeLoop, ensures_bind, ensures_get, ensures_ite]
      exact ⟨fun _ => trivial, fun _ => ⟨fun _ => rfl, fun _ => rfl⟩⟩
    | ok accepted =>
      simp only [writeLoop, ensures_bind, ensures_get, ensures_ite]
      refine ⟨fun _ => rfl, fun _ => ?_⟩
      rw [ensures_accept]
      exact ⟨fun _ => trivial, fun _ => ih _⟩

theorem sendRequest_transport (operation : Bool → Operation) (s : Session) :
    Ensures (sendRequest operation) s (fun _ _ => True) fun e _ => e.isTransport := by
  unfold sendRequest
  simp only [ensures_bind, ensures_update, ensures_get, ensures_ite, ensures_world]
  refine ⟨fun _ => ?_, fun _ => ?_⟩
  · apply World.ensures_now
    intro w₁ _
    apply World.ensures_call
    intro r w₂ _
    exact writeLoop_transport (operation true) r.writes _
  · apply World.ensures_call
    intro r w₁ _
    exact writeLoop_transport (operation true) r.writes _

theorem writeRequest_transport (operation : Bool → Operation) (s : Session) :
    Ensures (writeRequest operation) s (fun _ _ => True) fun e _ => e.isTransport := by
  unfold writeRequest
  simp only [ensures_bind, ensures_get, ensures_ite, ensures_world, ensures_update]
  refine ⟨fun _ => ?_, fun _ => ?_⟩
  · exact s.connection.stream.flushTls_transport _ s.world
  · apply (s.connection.stream.finishHandshake_transport _ s.world).mono
    · intro ready w₁ _
      refine ⟨fun _ => ?_, fun _ => trivial⟩
      apply (isEarly_spec s.connection w₁).mono
      · intro early w₂ _
        exact ⟨fun _ => trivial, fun _ => sendRequest_transport operation _⟩
      · intro _ _ h
        exact h.elim
    · intro e _ h
      exact h

theorem GivesUp.done_after {k : ℕ} {c c' : Connection} (h : GivesUp k c c') : c'.done := by
  rw [h.connection_eq]
  rfl

theorem GivesUp.limit_after {k : ℕ} {c c' : Connection} (h : GivesUp k c c') :
    ∃ count, c'.limit = .requests count := by
  obtain ⟨count, hlimit⟩ := h.limit_eq
  rw [h.connection_eq]
  exact ⟨count, hlimit⟩

end Connection

namespace Desk

variable (token timeout : ℕ)

theorem ensures_countError {f : SocketErrors → SocketErrors} {d : Desk} {Q : Unit → Desk → Prop}
    {E : Halt → Desk → Prop} :
    Ensures (countError f) d Q E ↔ Q ⟨⟩ (d.countedError f) := Iff.rfl

theorem ensures_leave {d : Desk} {Q : Unit → Desk → Prop} {E : Halt → Desk → Prop} :
    Ensures leave d Q E ↔ Q ⟨⟩ d.left := Iff.rfl

theorem ensures_schedule {d : Desk} {Q : Unit → Desk → Prop} {E : Halt → Desk → Prop} :
    Ensures (schedule token timeout) d Q E ↔ Q ⟨⟩ (d.scheduled token timeout) := Iff.rfl

theorem ensures_countRecoveryAttempts {d : Desk} {Q : Unit → Desk → Prop}
    {E : Halt → Desk → Prop} :
    Ensures countRecoveryAttempts d Q E ↔ Q ⟨⟩ d.countedAttempts := Iff.rfl

theorem ensures_countReadBytes {d : Desk} {Q : Unit → Desk → Prop} {E : Halt → Desk → Prop} :
    Ensures countReadBytes d Q E ↔ Q ⟨⟩ d.countedBytes := Iff.rfl

theorem ensures_noteExpiry {error : IoError} {d : Desk} {Q : Unit → Desk → Prop}
    {E : Halt → Desk → Prop} :
    Ensures (noteExpiry error) d Q E ↔
      Q ⟨⟩ (d.moved d.connection (d.world.note ⟨.expiry d.connection.hasStarted, error⟩)) :=
  Iff.rfl

theorem addsOne_addConnect : AddsOne .connect SocketErrors.addConnect := by
  intro e
  funext counter
  cases counter <;> rfl

theorem addsOne_addRead : AddsOne .read SocketErrors.addRead := by
  intro e
  funext counter
  cases counter <;> rfl

theorem addsOne_addWrite : AddsOne .write SocketErrors.addWrite := by
  intro e
  funext counter
  cases counter <;> rfl

theorem addsOne_addTimeout : AddsOne .timeout SocketErrors.addTimeout := by
  intro e
  funext counter
  cases counter <;> rfl

variable {token timeout} {d d₁ : Desk} {n : FailureCounts} {allowed : Counter → Prop}
  {counter : Counter}

/-- How a handler ends: as `R` says, or by an error that ends the worker. -/
def Handles (R : Desk → Desk → Prop) (d : Desk) (m : DeskM Unit) (d₁ : Desk) : Prop :=
  Ensures m d₁ (fun _ d' => R d d') fun e d' => d.world.Ends e d'.world

theorem Handles.turn {m : DeskM Unit} (h : Handles (Settles token timeout (· ≠ .timeout)) d m d₁) :
    Handles (Turn token timeout) d m d₁ := by
  apply Ensures.mono h
  · intro _ d' hd'
    exact .settled hd'
  · intro e d' he
    exact he

theorem recoverOrStop_handles {addError before : SocketErrors → SocketErrors} (error : RunError)
    (h : Touches d (Pi.single counter 1) d₁) (hallowed : allowed counter)
    (hf : AddsOne counter (addError ∘ before)) :
    Handles (Settles token timeout allowed) d (recoverOrStop token timeout addError error)
      (d₁.countedError before) := by
  unfold Handles recoverOrStop
  simp only [ensures_bind, ensures_session, ensures_countRecoveryAttempts, ensures_ite]
  apply (recoverRequest_spec d₁.session).mono
  · rintro recovered ⟨c₁, w₁⟩ ⟨k, hw, hresult⟩
    refine ⟨fun hrecovered => ?_, fun hfailed => ?_⟩
    · rw [if_pos hrecovered] at hresult
      have hturn : Settles token timeout allowed d _ :=
          .cameBack h hallowed hf (Or.inr rfl) hresult hw
      exact hturn
    · rw [if_neg hfailed] at hresult
      apply (stopAfterDurationError_spec ⟨c₁.clearRecoveryAttempts, w₁⟩).mono
      · rintro stopped ⟨c₂, w₂⟩ ⟨hw₂, hstop⟩
        rcases hresult with hup | ⟨rfl, rfl, time, hlimit, hover⟩
        · obtain ⟨count, hlimit⟩ := hup.limit_after
          have hdone := hup.done_after
          refine ⟨fun hs => ?_, fun hs => ?_⟩
          · rw [if_pos hs] at hstop
            obtain ⟨-, time, htime⟩ := hstop
            exact absurd (hlimit.symm.trans htime) (by simp)
          · rw [if_neg hs] at hstop
            obtain ⟨rfl, -⟩ := hstop
            rw [ensures_getConnection]
            refine ⟨fun _ => ?_, fun hnot => absurd hdone hnot⟩
            have hturn : Settles token timeout allowed d _ :=
              .gaveUp h hallowed hf hup (hw.trans hw₂)
            exact hturn
        · refine ⟨fun hs => ?_, fun hs => ?_⟩
          · rw [if_pos hs] at hstop
            obtain ⟨rfl, -⟩ := hstop
            rw [Pi.single_zero] at hw
            have hturn : Settles token timeout allowed d _ :=
              .ranOut h hallowed hf hlimit (hw.zero_trans hw₂)
            exact hturn
          · rw [if_neg hs] at hstop
            have hbefore := hstop.2 time hlimit
            have hlater := hw₂.clock_le
            simp only at hover hlater hbefore
            omega
      · intro e s' he
        exact h.later.ends (hw.ends he)
  · intro e s' he
    exact h.later.ends he

theorem recoverOrStop_handles_uncounted {addError : SocketErrors → SocketErrors}
    (error : RunError) (h : Touches d (Pi.single counter 1) d₁) (hallowed : allowed counter)
    (hf : AddsOne counter addError) :
    Handles (Settles token timeout allowed) d (recoverOrStop token timeout addError error) d₁ :=
  @recoverOrStop_handles token timeout d d₁ allowed counter addError id error h hallowed hf

theorem retryOrAbandon_handles {before : SocketErrors → SocketErrors}
    (h : Touches d (Pi.single counter 1) d₁) (hallowed : allowed counter)
    (hf : AddsOne counter before) :
    Handles (Settles token timeout allowed) d (retryOrAbandon token timeout)
      (d₁.countedError before) := by
  unfold Handles retryOrAbandon
  simp only [ensures_bind, ensures_session, ensures_countRecoveryAttempts, ensures_ite]
  apply (retryAddress_spec d₁.session).mono
  · rintro retried ⟨c₁, w₁⟩ ⟨k, hw, hresult⟩
    refine ⟨fun hretried => ?_, fun hfailed => ?_⟩
    · rw [if_pos hretried] at hresult
      have hturn : Settles token timeout allowed d _ :=
          .cameBack h hallowed hf (Or.inl rfl) hresult hw
      exact hturn
    · rw [if_neg hfailed] at hresult
      have hturn : Settles token timeout allowed d _ := .gaveUp h hallowed hf hresult hw
      exact hturn
  · intro e s' he
    exact h.later.ends he

theorem later_of_counted {w w' : World} {f : Failure} (h : w.Later 0 w') (hf : f.fatal = false) :
    w.Later f.cost (w'.note f) := h.zero_trans (World.later_note hf)

theorem checkHandshake_spec :
    Ensures checkHandshake d
      (fun _ d' => ∃ c w, d' = d.moved c w ∧ d.world.Later 0 w ∧
        Exchange d.world.clock w.clock d.connection c)
      fun e d' => d.world.Ends e d'.world := by
  unfold checkHandshake
  simp only [ensures_bind, ensures_getConnection, ensures_desk_world, ensures_ite]
  apply (d.connection.stream.isTlsHandshaking_spec d.world).mono
  · rintro handshaking w₁ ⟨h₁, -⟩
    refine ⟨fun _ => ?_, fun _ => ⟨d.connection, w₁, rfl, h₁, .rests h₁.clock_le _⟩⟩
    rw [ensures_session]
    apply ensures_attempt
    apply (writeRequest_spec ⟨d.connection, w₁⟩ fun _ => .handshake).mono
    · rintro _ ⟨c₂, w₂⟩ ⟨hx, h₂⟩
      exact ⟨c₂, w₂, rfl, h₁.zero_trans h₂, hx.mono h₁.clock_le le_rfl⟩
    · rintro e ⟨c₂, w₂⟩ ⟨hx, hraises⟩
      have hx := hx.mono h₁.clock_le le_rfl
      rcases h₁.raises hraises with ⟨error, w₃, rfl, h₃, rfl⟩ | ⟨he, h₂⟩
      · refine ⟨?_, by simp [runError]⟩
        rintro error' herror
        cases herror
        have hnoted := later_of_counted (f := ⟨.handshake, error⟩) h₃ rfl
        exact ⟨c₂, _, rfl, hnoted, hx⟩
      · refine ⟨?_, fun _ => h₂.ends_of_not_io he⟩
        intro error herror
        cases error with
        | tls message => exact h₂.ends_of_not_io rfl
        | _ => exact ⟨c₂, w₂, rfl, h₂, hx⟩
  · intro _ _ h
    exact h.elim

theorem failBeforeStart_handles (h : Touches d (Pi.single .connect 1) d₁) :
    Handles (Turn token timeout) d (failBeforeStart token timeout) d₁ := by
  unfold Handles failBeforeStart
  simp only [ensures_bind]
  apply checkHandshake_spec.mono
  · rintro _ _ ⟨c, w, rfl, hw, hx⟩
    have h := h.exchanged hx hw
    rw [ensures_countError, ensures_session]
    apply (deferReconnectUntilPace_spec ⟨c, w⟩).mono
    · rintro deferred ⟨c₂, w₂⟩ ⟨hw₂, hresult⟩
      rw [ensures_ite]
      refine ⟨fun hdeferred => ?_, fun hgo => ?_⟩
      · rw [if_pos hdeferred] at hresult
        obtain ⟨rfl, hstarted, hpace⟩ := hresult
        have hturn : Turn token timeout d _ := .deferred h addsOne_addConnect hstarted hpace hw₂
        exact hturn
      · rw [if_neg hgo] at hresult
        cases hresult
        have hagain := h.exchanged (.rests hw₂.clock_le _) hw₂
        exact (retryOrAbandon_handles hagain Counter.connect_ne_timeout addsOne_addConnect).turn
    · intro e s' he
      exact h.later.ends he
  · intro e d' he
    exact h.later.ends he

theorem takeError_touches {operation : Bool → Bool → Operation}
    (hf : ∀ started written error, Failure.fatal ⟨operation started written, error⟩ = false)
    (h : Touches d n d₁) {Q : Option IoError → Desk → Prop}
    (hnone : ∀ d₂, Touches d n d₂ → d₂.connection = d₁.connection → Q none d₂)
    (hsome : ∀ error d₂, Touches d (n + Failure.cost
        ⟨operation d₁.connection.hasStarted d₁.connection.requestIsWritten, error⟩) d₂ →
      d₂.connection = d₁.connection → Q (some error) d₂) :
    Ensures (liftM (takeError operation) : DeskM (Option IoError)) d₁ Q
      fun e d' => d.world.Ends e d'.world := by
  rw [ensures_session]
  apply (takeError_spec d₁.session hf).mono
  · rintro error ⟨c, w⟩ ⟨rfl, hw⟩
    cases error with
    | none => exact hnone _ (h.exchanged (.rests hw.clock_le _) hw) rfl
    | some error => exact hsome error _ (h.exchange (.rests hw.clock_le _) hw) rfl
  · rintro e s ⟨-, hw⟩
    exact h.later.ends (hw.ends service_fatal)

/-- How a branch ends: by a turn. Where the event is not dealt with yet, the connection is
not done. -/
def Passes (token timeout : ℕ) (d : Desk) (m : DeskM Bool) (d₁ : Desk) : Prop :=
  Ensures m d₁ (fun dealt d' => Turn token timeout d d' ∧
      (dealt = false → d'.connection.done = d.connection.done))
    fun e d' => d.world.Ends e d'.world

theorem Handles.passes {m : DeskM Unit} (h : Handles (Turn token timeout) d m d₁) :
    Passes token timeout d (do m; pure true) d₁ := by
  unfold Passes
  rw [ensures_bind]
  apply h.mono
  · intro _ d' hturn
    exact ⟨hturn, by simp⟩
  · intro e d' he
    exact he

theorem handleError_passes : Passes token timeout d (handleError token timeout) d := by
  unfold Passes handleError
  rw [ensures_bind]
  apply takeError_touches (fun _ _ _ => rfl) .refl
  · intro d₁ h hc
    exact ⟨.rested h (congrArg (·.timerGeneration) hc), fun _ => h.done_eq⟩
  · intro error d₁ h hc
    rw [zero_add, ← hc] at h
    simp only [ensures_bind, ensures_getConnection]
    cases hs : d₁.connection.hasStarted with
    | true =>
      rw [hs] at h
      cases hw : d₁.connection.requestIsWritten with
      | true =>
        rw [hw] at h
        exact (recoverOrStop_handles_uncounted _ h Counter.read_ne_timeout
          addsOne_addRead).turn.passes
      | false =>
        rw [hw] at h
        exact (recoverOrStop_handles_uncounted _ h Counter.write_ne_timeout
          addsOne_addWrite).turn.passes
    | false =>
      rw [hs] at h
      exact (failBeforeStart_handles h).passes

/-- What the write of a writable event leaves. -/
inductive Writes (d : Desk) : Except RunError Unit → Desk → Prop
  | ok {d₁ : Desk} (h : Touches d 0 d₁) : Writes d (.ok ()) d₁
  | io {d₁ : Desk} {error : IoError}
      (h : Touches d (Pi.single (if d₁.connection.hasStarted then .write else .connect) 1) d₁) :
      Writes d (.error (.io error)) d₁
  | tls {d₁ : Desk} {message : String} (h : Touches d 0 d₁) :
      Writes d (.error (.tls message)) d₁

theorem write_writes (h : Touches d 0 d₁) :
    Ensures (liftM (attempt runError (writeRequest .write)) : DeskM (Except RunError Unit)) d₁
      (Writes d) fun e d' => d.world.Ends e d'.world := by
  rw [ensures_session]
  apply ensures_attempt
  apply ((writeRequest_spec d₁.session .write).and
    (writeRequest_transport .write d₁.session)).mono
  · rintro _ ⟨c, w⟩ ⟨⟨hx, hw⟩, -⟩
    exact .ok (h.exchanged hx hw)
  · rintro e ⟨c, w⟩ ⟨⟨hx, hraises⟩, htransport⟩
    have hraises : d₁.world.Raises (.write c.hasStarted) e w := hraises
    rcases hraises with ⟨error, w₁, rfl, hw, rfl⟩ | ⟨he, hw⟩
    · refine ⟨?_, by simp [runError]⟩
      intro error' herror
      cases herror
      have hnoted := later_of_counted (f := ⟨.write c.hasStarted, error⟩) hw rfl
      have htouched := h.exchange hx hnoted
      rw [zero_add] at htouched
      exact .io htouched
    · refine ⟨?_, fun _ => h.later.ends (hw.ends_of_not_io he)⟩
      intro error herror
      cases e with
      | error error' =>
        cases herror
        cases error with
        | tls message => exact .tls (h.exchanged hx hw)
        | io error => cases he
        | _ => cases htransport
      | _ => cases herror

theorem refreshInterest_touches (h : Touches d n d₁) {Q : Unit → Desk → Prop}
    (hQ : ∀ d₂, Touches d n d₂ →
      d₂.connection.timerGeneration = d₁.connection.timerGeneration → Q ⟨⟩ d₂) :
    Ensures (liftM refreshInterest : DeskM Unit) d₁ Q fun e d' => d.world.Ends e d'.world := by
  rw [ensures_session]
  apply (refreshInterest_spec d₁.session).mono
  · rintro _ ⟨c, w⟩ ⟨interest, rfl, hw⟩
    exact hQ _ (h.exchanged ((Exchange.rests hw.clock_le _).watch interest) hw) rfl
  · rintro e s ⟨-, hw⟩
    exact h.later.ends (hw.ends service_fatal)

theorem handleWritable_passes : Passes token timeout d (handleWritable token timeout) d := by
  unfold Passes handleWritable
  rw [ensures_bind, ensures_session]
  apply (stopIfExpired_spec d.session).mono
  · rintro stopped ⟨c, w⟩ ⟨hw, hresult⟩
    rw [ensures_ite]
    refine ⟨fun hs => ?_, fun hs => ?_⟩
    · rw [if_pos hs] at hresult
      have hturn : Turn token timeout d _ := .settled (.stopped .refl hresult hw)
      exact ⟨hturn, by simp⟩
    · rw [if_neg hs] at hresult
      cases hresult
      rw [ensures_bind]
      apply takeError_touches (fun _ _ _ => rfl) (Touches.refl.exchanged (.rests hw.clock_le _) hw)
      · intro d₁ h₁ hc₁
        simp only [ensures_bind, ensures_getConnection]
        apply (write_writes h₁).mono
        · intro written d₂ hwritten
          cases hwritten with
          | tls h₂ => exact h₂.later.ends_of_not_io rfl
          | io h₂ =>
            simp only [ensures_bind, ensures_getConnection]
            cases hs : d₂.connection.hasStarted with
            | true =>
              rw [hs] at h₂
              exact (recoverOrStop_handles_uncounted _ h₂ Counter.write_ne_timeout
                addsOne_addWrite).turn.passes
            | false =>
              rw [hs] at h₂
              exact (retryOrAbandon_handles h₂ Counter.connect_ne_timeout
                addsOne_addConnect).turn.passes
          | ok h₂ =>
            simp only [ensures_bind]
            apply refreshInterest_touches h₂
            intro d₃ h₃ hgen
            rw [ensures_getConnection, ensures_ite]
            refine ⟨fun _ => ?_, fun hsame => ?_⟩
            · rw [ensures_bind, ensures_schedule]
              have hturn : Turn token timeout d _ := .begun h₃
              exact ⟨hturn, fun _ => h₃.done_eq⟩
            · rw [ne_eq, not_not, hc₁] at hsame
              have hturn : Turn token timeout d _ := .rested h₃ hsame
              exact ⟨hturn, fun _ => h₃.done_eq⟩
        · intro e d' he
          exact he
      · intro error d₁ h₁ _
        rw [zero_add] at h₁
        exact (failBeforeStart_handles h₁).passes
  · intro e s he
    exact he

theorem handleResponse_handles {c₁ : Connection} {w₁ : World} {response : CompletedResponse}
    (hanswer : Answers w₁.clock d.connection c₁ response) (hw₁ : d.world.Later 0 w₁) :
    Handles (Turn token timeout) d (handleResponse token timeout response)
      (d.moved c₁ w₁).countedBytes := by
  have hkept := hanswer.kept
  have hlimit : c₁.limit = d.connection.limit := congrArg (·.limit) hkept
  have hcompleted : c₁.completed = d.connection.completed := congrArg (·.completed) hkept
  unfold Handles handleResponse
  cases huri : recordedUri response with
  | none => exact hw₁.ends_of_not_io rfl
  | some uri =>
    simp only [ensures_bind, ensures_modify, ensures_session, ensures_ite, ensures_leave,
      ensures_schedule]
    apply (finishResponse_spec ⟨c₁.clearReadBytes, w₁⟩ response.connectionClose).mono
    · rintro finished ⟨c, w⟩ hresult
      refine ⟨fun hf => ?_, fun hf => ?_⟩
      · rw [if_pos hf] at hresult
        obtain ⟨hw, rfl, hlast⟩ := hresult
        have hlast' : ∀ count, d.connection.limit = .requests count →
            count ≤ d.connection.completed + 1 := by
          intro count h
          rw [← hcompleted]
          exact hlast count (hlimit.trans h)
        have hturn : Turn token timeout d _ := .answeredLast hanswer hw₁ huri hw hlast'
        exact hturn
      · rw [if_neg hf] at hresult
        obtain ⟨⟨drawn, hw, hon⟩, hmore⟩ := hresult
        have hmore' : ∀ count, d.connection.limit = .requests count →
            d.connection.completed + 1 < count := by
          intro count h
          rw [← hcompleted]
          exact hmore count (hlimit.trans h)
        have hturn : Turn token timeout d _ := .answeredNext hanswer hw₁ huri hw hon hmore'
        exact hturn
    · intro e s he
      exact hw₁.ends he

theorem handleReadable_handles :
    Handles (Turn token timeout) d (handleReadable token timeout) d := by
  unfold Handles handleReadable
  rw [ensures_bind, ensures_session]
  apply ensures_attempt
  apply (readResponse_spec d.session).mono
  · rintro response ⟨c, w⟩ ⟨hw, hresult⟩
    simp only [ensures_bind, ensures_countReadBytes, ensures_getConnection]
    cases response with
    | some response => exact handleResponse_handles hresult hw
    | none =>
      have hreads : Reads d.connection c := hresult
      have h : Touches d 0 _ := Touches.refl.read hreads hw
      apply refreshInterest_touches h
      intro d₂ h₂ hgen
      exact .rested h₂ (hgen.trans (congrArg (·.timerGeneration) hreads.kept))
  · rintro e ⟨c, w⟩ ⟨hreads, hraises⟩
    rcases hraises with ⟨error, w₁, rfl, hw, rfl⟩ | ⟨he, hw⟩
    · have hreads : Reads d.connection c := hreads rfl
      have hstarted : c.clearReadBytes.hasStarted = d.connection.hasStarted :=
        congrArg (fun c => c.started.isSome) hreads.kept
      refine ⟨?_, by simp [runError]⟩
      intro error' herror
      cases herror
      have hnoted := later_of_counted (f := ⟨.read d.connection.hasStarted, error⟩) hw rfl
      have h : Touches d (0 + _) _ := Touches.refl.read hreads hnoted
      rw [zero_add] at h
      simp only [ensures_bind, ensures_countReadBytes, ensures_getConnection, ensures_ite]
      refine ⟨fun hs => ?_, fun hs => ⟨fun hkind => ?_, fun hkind => ?_⟩⟩
      · have hs : d.connection.hasStarted = true := hstarted.symm.trans hs
        have hcost : Failure.cost ⟨.read d.connection.hasStarted, error⟩ = Pi.single .read 1 := by
          rw [hs]
          rfl
        exact (recoverOrStop_handles_uncounted _ (h.cast hcost) Counter.read_ne_timeout
          addsOne_addRead).turn
      · have hs : d.connection.hasStarted = false :=
          hstarted.symm.trans (Bool.not_eq_true _ ▸ hs)
        have hcost : Failure.cost ⟨.read d.connection.hasStarted, error⟩ = 0 := by
          simp [Failure.cost, Failure.counter, hs, hkind]
        apply refreshInterest_touches (h.cast hcost)
        intro d₂ h₂ hgen
        exact .rested h₂ (hgen.trans (congrArg (·.timerGeneration) hreads.kept))
      · have hs : d.connection.hasStarted = false :=
          hstarted.symm.trans (Bool.not_eq_true _ ▸ hs)
        have hcost : Failure.cost ⟨.read d.connection.hasStarted, error⟩ =
            Pi.single .connect 1 := by
          simp [Failure.cost, Failure.counter, hs, hkind]
        exact failBeforeStart_handles (h.cast hcost)
    · refine ⟨?_, fun _ => hw.ends_of_not_io he⟩
      intro error herror
      cases e with
      | error error' =>
        cases herror
        simp only [ensures_bind, ensures_countReadBytes, ensures_getConnection]
        cases error with
        | io error => cases he
        | _ => exact hw.ends_of_not_io he
      | _ => cases herror

/-- How the handling of an event or a timer ends. -/
def Takes (token timeout : ℕ) (d : Desk) (m : DeskM Unit) (d₁ : Desk) : Prop :=
  Ensures m d₁ (fun _ d' => Turns token timeout d d') fun e d' => d.world.Ends e d'.world

theorem Handles.takes {m : DeskM Unit} (h : Handles (Turn token timeout) d₁ m d₁)
    (hd : Turns token timeout d d₁) (hdone : d₁.connection.done = false) :
    Takes token timeout d m d₁ := by
  apply Ensures.mono h
  · intro _ d' hturn
    exact Relation.ReflTransGen.tail hd ⟨hdone, hturn⟩
  · intro e d' he
    exact hd.steady.ends he

/-- A branch that may deal with the event comes before the rest. -/
theorem takes_branch {branch : DeskM Bool} {rest : DeskM Unit} {b : Bool}
    (hbranch : Passes token timeout d₁ branch d₁) (hd : Turns token timeout d d₁)
    (hdone : d₁.connection.done = false)
    (hrest : ∀ d₂, Turns token timeout d d₂ → d₂.connection.done = false →
      Takes token timeout d rest d₂) :
    Takes token timeout d
      (do if ← if b then branch else pure false then pure () else rest) d₁ := by
  unfold Takes
  simp only [ensures_bind, ensures_ite, ensures_pure]
  refine ⟨fun _ => ?_, fun _ => ?_⟩
  · apply Ensures.mono hbranch
    · rintro dealt d₂ ⟨hturn, hopen⟩
      have hd₂ : Turns token timeout d d₂ := Relation.ReflTransGen.tail hd ⟨hdone, hturn⟩
      refine ⟨fun _ => hd₂, fun hdealt => hrest d₂ hd₂ ?_⟩
      rw [hopen (Bool.not_eq_true _ ▸ hdealt), hdone]
    · intro e d₂ he
      exact hd.steady.ends he
  · exact ⟨fun h => absurd h Bool.false_ne_true, fun _ => hrest d₁ hd hdone⟩

theorem handleEvent_takes (event : Event) :
    Takes token timeout d (handleEvent token timeout event) d := by
  unfold Takes handleEvent
  rw [ensures_bind, ensures_getConnection, ensures_ite]
  refine ⟨fun _ => .refl, fun hdone => ?_⟩
  apply takes_branch handleError_passes .refl (Bool.not_eq_true _ ▸ hdone)
  intro d₁ hd₁ hdone₁
  apply takes_branch handleWritable_passes hd₁ hdone₁
  intro d₂ hd₂ hdone₂
  unfold Takes
  rw [ensures_ite]
  exact ⟨fun _ => handleReadable_handles.takes hd₂ hdone₂, fun _ => hd₂⟩

theorem noteExpiry_touches (error : IoError) (h : Touches d 0 d₁)
    (hcounter : Failure.counter ⟨.expiry d₁.connection.hasStarted, error⟩ = some counter) :
    Touches d (Pi.single counter 1)
      (d₁.moved d₁.connection (d₁.world.note ⟨.expiry d₁.connection.hasStarted, error⟩)) := by
  have hnoted := World.later_note_counted (w := d₁.world)
    (f := ⟨.expiry d₁.connection.hasStarted, error⟩) rfl hcounter
  have htouched := h.exchange (.rests hnoted.clock_le _) hnoted
  rwa [zero_add] at htouched

/-- Only a started request times out. -/
theorem handleExpired_handles :
    Handles (Settles token timeout fun counter => counter = .timeout → d.connection.hasStarted) d
      (handleExpired token timeout) d := by
  unfold Handles handleExpired
  rw [ensures_bind, ensures_session]
  apply (expire_spec d.session).mono
  · rintro expiration ⟨c, w⟩ ⟨hw, hresult⟩
    cases expiration with
    | stopped =>
      have hsettles : Settles token timeout
          (fun counter => counter = .timeout → d.connection.hasStarted) d _ :=
        .stopped .refl hresult hw
      exact hsettles
    | requestTimeout =>
      obtain ⟨rfl, hstarted⟩ := hresult
      have hstarted : d.connection.started.isSome = true := hstarted
      have hcounter : Failure.counter ⟨.expiry d.connection.hasStarted, requestTimedOut⟩ =
          some .timeout := by
        rw [hasStarted, hstarted]
        rfl
      have h := noteExpiry_touches requestTimedOut
        (Touches.refl.exchanged (.rests hw.clock_le _) hw) hcounter
      simp only [ensures_bind, ensures_noteExpiry, ensures_countError]
      exact recoverOrStop_handles _ h (fun _ => hstarted) addsOne_addTimeout
    | connectionTimeout =>
      obtain ⟨rfl, hnone⟩ := hresult
      have hnone : d.connection.started = none := hnone
      have hcounter : Failure.counter ⟨.expiry d.connection.hasStarted, connectionTimedOut⟩ =
          some .connect := by
        rw [hasStarted, hnone]
        rfl
      have h := noteExpiry_touches connectionTimedOut
        (Touches.refl.exchanged (.rests hw.clock_le _) hw) hcounter
      simp only [ensures_bind, ensures_noteExpiry, ensures_countError]
      exact retryOrAbandon_handles h (fun h => absurd h Counter.connect_ne_timeout)
        addsOne_addConnect
  · intro e s he
    exact he

theorem handlePace_handles : Handles (Turn token timeout) d handlePace d := by
  unfold Handles handlePace
  rw [ensures_bind, ensures_session]
  apply (stopIfExpired_spec d.session).mono
  · rintro stopped ⟨c, w⟩ ⟨hw, hresult⟩
    rw [ensures_ite]
    refine ⟨fun hs => ?_, fun hs => ?_⟩
    · rw [if_pos hs] at hresult
      have hturn : Turn token timeout d _ := .settled (.stopped .refl hresult hw)
      exact hturn
    · rw [if_neg hs] at hresult
      cases hresult
      rw [ensures_session]
      apply (resumeAtPace_spec ⟨d.connection, w⟩).mono
      · rintro _ ⟨c, w₂⟩ ⟨hw₂, hresult⟩
        split at hresult
        · rename_i hre
          have hturn : Turn token timeout d _ :=
            .resumed hre (hresult.from_earlier hw.clock_le) (hw.zero_trans hw₂)
          exact hturn
        · obtain ⟨interest, rfl⟩ := hresult
          have hw := hw.zero_trans hw₂
          have h : Touches d 0 _ :=
            Touches.refl.exchanged ((Exchange.rests hw.clock_le _).watch interest) hw
          have hturn : Turn token timeout d _ := .rested h rfl
          exact hturn
      · intro e s he
        exact hw.ends he
  · intro e s he
    exact he

end Desk

end Rload
