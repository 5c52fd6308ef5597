import Rload.EventHandling
import Rload.SoundConnections

/-!
# Handlers that end by errors alone

A response comes with the URI of its request, so that its URI can be counted. No other handler
of an event or a timer has a way to end but by an error.
-/

namespace Rload
open StatefulPrograms

theorem Desk.recordedUri_ne_none {response : CompletedResponse}
    (h : IsText response.request response.uri) : recordedUri response ≠ none := by
  obtain ⟨hordered, hwithin, htext⟩ := h
  simp only [recordedUri]
  rw [if_pos ⟨hordered, hwithin⟩, if_pos htext]
  exact nofun

section Safety

variable (allowed : Halt → Prop) {α : Type} {Q : α → Prop}

abbrev SafeDesk (m : DeskM α) (Q : α → Prop) : Prop :=
  Safe (fun d : Desk => d.session.Sound allowed) (Halt.Expected allowed) m Q

namespace Desk
open Connection

theorem session_safe {m : ConnectionM α} (h : SafeSession allowed m Q) :
    SafeDesk allowed (liftM m : DeskM α) Q := .zoom (fun _ hd => hd) (fun _ _ _ hs => hs) h

/-- What has to do with the counters and the queues alone. -/
theorem modify_safe {f : Desk → Desk} (h : ∀ d, (f d).session = d.session) :
    SafeDesk allowed (modify f : DeskM Unit) fun _ => True := by
  refine Safe.modify (fun d hd => ?_) ⟨⟩
  rwa [h d]

theorem getConnection_safe : SafeDesk allowed getConnection Connection.Sound :=
  fun _ hd => ⟨hd.1, hd⟩

theorem countError_safe (f : SocketErrors → SocketErrors) :
    SafeDesk allowed (countError f) fun _ => True := modify_safe allowed fun _ => rfl

theorem schedule_safe (token timeout : ℕ) :
    SafeDesk allowed (schedule token timeout) fun _ => True := modify_safe allowed fun _ => rfl

theorem leave_safe : SafeDesk allowed leave fun _ => True := modify_safe allowed fun _ => rfl

theorem abandon_safe : SafeDesk allowed abandon fun _ => True := modify_safe allowed fun _ => rfl

theorem noteExpiry_safe (error : IoError) : SafeDesk allowed (noteExpiry error) fun _ => True :=
  fun _ hd => ⟨⟨⟩, hd⟩

theorem countRecoveryAttempts_safe : SafeDesk allowed countRecoveryAttempts fun _ => True :=
  fun _ hd => ⟨⟨⟩, hd.1.of_same rfl rfl rfl, hd.2⟩

theorem countReadBytes_safe : SafeDesk allowed countReadBytes fun _ => True :=
  fun _ hd => ⟨⟨⟩, hd.1.of_same rfl rfl rfl, hd.2⟩

variable (token timeout : ℕ)

theorem recoverOrStop_safe (addError : SocketErrors → SocketErrors) (error : RunError) :
    SafeDesk allowed (recoverOrStop token timeout addError error) fun _ => True := by
  refine (session_safe allowed (recoverRequest_safe allowed)).bind fun recovered _ =>
    (countRecoveryAttempts_safe allowed).bind fun _ _ => .ite (fun _ => ?_) fun _ => ?_
  · exact (countError_safe allowed _).bind fun _ _ => schedule_safe allowed token timeout
  · refine (session_safe allowed (stopAfterDurationError_safe allowed)).bind fun stopped _ =>
      .ite (fun _ => ?_) fun _ => (getConnection_safe allowed).bind fun _ _ =>
        .ite (fun _ => ?_) fun _ => .throw (Or.inl rfl)
    · exact (countError_safe allowed _).bind fun _ _ => leave_safe allowed
    · exact (countError_safe allowed _).bind fun _ _ => abandon_safe allowed

theorem retryOrAbandon_safe : SafeDesk allowed (retryOrAbandon token timeout) fun _ => True :=
  (session_safe allowed (retryAddress_safe allowed)).bind fun _ _ =>
    (countRecoveryAttempts_safe allowed).bind fun _ _ =>
      .ite (fun _ => schedule_safe allowed token timeout) fun _ => abandon_safe allowed

/-- The errors of a write are caught. -/
theorem writing_safe (operation : Bool → Operation) :
    SafeDesk allowed (liftM (attempt runError (writeRequest operation) :
      ConnectionM (Except RunError Unit)) : DeskM (Except RunError Unit)) fun _ => True :=
  session_safe allowed ((writeRequest_safe allowed operation).attempt (fun _ _ => ⟨⟩)
    fun _ => ⟨⟩)

theorem checkHandshake_safe : SafeDesk allowed checkHandshake fun _ => True := by
  refine (getConnection_safe allowed).bind fun c _ =>
    (session_safe allowed (lift_safe allowed (c.stream.isTlsHandshaking_safe allowed))).bind
      fun _ _ => .ite (fun _ => (writing_safe allowed _).bind fun written _ => ?_)
        fun _ => .pure ⟨⟩
  split
  · exact .throw (Or.inl rfl)
  · exact .pure ⟨⟩

theorem failBeforeStart_safe : SafeDesk allowed (failBeforeStart token timeout) fun _ => True := by
  refine (checkHandshake_safe allowed).bind fun _ _ => (countError_safe allowed _).bind fun _ _ =>
    (session_safe allowed (deferReconnectUntilPace_safe allowed)).bind fun _ _ =>
      .ite (fun _ => ?_) fun _ => retryOrAbandon_safe allowed token timeout
  exact modify_safe allowed fun _ => rfl

theorem handleError_safe : SafeDesk allowed (handleError token timeout) fun _ => True := by
  refine (session_safe allowed (takeError_safe allowed _)).bind fun error _ => ?_
  split
  · exact .pure ⟨⟩
  · refine (getConnection_safe allowed).bind fun _ _ => .ite (fun _ => ?_) fun _ => ?_
    · exact (recoverOrStop_safe allowed token timeout _ _).bind fun _ _ => .pure ⟨⟩
    · exact (failBeforeStart_safe allowed token timeout).bind fun _ _ => .pure ⟨⟩

theorem handleWritable_safe : SafeDesk allowed (handleWritable token timeout) fun _ => True := by
  refine (session_safe allowed (stopIfExpired_safe allowed)).bind fun _ _ => .ite (fun _ => ?_)
    fun _ => (session_safe allowed (takeError_safe allowed _)).bind fun error _ => ?_
  · exact (leave_safe allowed).bind fun _ _ => .pure ⟨⟩
  split
  · exact (failBeforeStart_safe allowed token timeout).bind fun _ _ => .pure ⟨⟩
  · refine (getConnection_safe allowed).bind fun _ _ =>
      (writing_safe allowed _).bind fun written _ => ?_
    split
    · exact .throw (Or.inl rfl)
    · refine (getConnection_safe allowed).bind fun _ _ => ?_
      split
      · exact (countError_safe allowed _).bind fun _ _ =>
          (retryOrAbandon_safe allowed token timeout).bind fun _ _ => .pure ⟨⟩
      · exact (recoverOrStop_safe allowed token timeout _ _).bind fun _ _ => .pure ⟨⟩
    · refine (session_safe allowed (refreshInterest_safe allowed)).bind fun _ _ =>
        (getConnection_safe allowed).bind fun _ _ => .ite (fun _ => ?_) fun _ => .pure ⟨⟩
      exact (schedule_safe allowed token timeout).bind fun _ _ => .pure ⟨⟩

theorem handleResponse_safe {response : CompletedResponse}
    (h : IsText response.request response.uri) :
    SafeDesk allowed (handleResponse token timeout response) fun _ => True := by
  unfold handleResponse
  split
  · rename_i hnone
    exact absurd hnone (recordedUri_ne_none h)
  · exact Safe.bind (modify_safe allowed fun _ => rfl) fun _ _ =>
      (session_safe allowed (finishResponse_safe allowed _)).bind fun _ _ =>
        .ite (fun _ => leave_safe allowed) fun _ => schedule_safe allowed token timeout

theorem handleReadable_safe : SafeDesk allowed (handleReadable token timeout) fun _ => True := by
  have hread : SafeDesk allowed (liftM (attempt runError readResponse :
      ConnectionM (Except RunError (Option CompletedResponse))) : DeskM _)
      fun response => ∀ r, response = .ok r → HasText r := by
    refine session_safe allowed ((readResponse_safe allowed).attempt ?_ fun _ => nofun)
    rintro response hresponse _ ⟨⟩
    exact hresponse
  refine hread.bind fun response hresponse => (countReadBytes_safe allowed).bind fun _ _ =>
    (getConnection_safe allowed).bind fun c _ => ?_
  split
  · exact handleResponse_safe allowed token timeout (hresponse _ rfl _ rfl)
  · exact session_safe allowed (refreshInterest_safe allowed)
  · exact .ite (fun _ => recoverOrStop_safe allowed token timeout _ _) fun _ =>
      .ite (fun _ => session_safe allowed (refreshInterest_safe allowed)) fun _ =>
        failBeforeStart_safe allowed token timeout
  · exact .throw (Or.inl rfl)

theorem handleEvent_safe (event : Event) :
    SafeDesk allowed (handleEvent token timeout event) fun _ => True :=
  (getConnection_safe allowed).bind fun _ _ => .ite (fun _ => .pure ⟨⟩) fun _ =>
    .branch _ (handleError_safe allowed token timeout) ⟨⟩
      (.branch _ (handleWritable_safe allowed token timeout) ⟨⟩
        (.ite (fun _ => handleReadable_safe allowed token timeout) fun _ => .pure ⟨⟩))

theorem handleExpired_safe : SafeDesk allowed (handleExpired token timeout) fun _ => True := by
  refine (session_safe allowed (expire_safe allowed)).bind fun expiration _ => ?_
  split
  · exact leave_safe allowed
  · exact (noteExpiry_safe allowed _).bind fun _ _ => (countError_safe allowed _).bind fun _ _ =>
      recoverOrStop_safe allowed token timeout _ _
  · exact (noteExpiry_safe allowed _).bind fun _ _ => (countError_safe allowed _).bind fun _ _ =>
      retryOrAbandon_safe allowed token timeout

theorem handlePace_safe : SafeDesk allowed handlePace fun _ => True :=
  (session_safe allowed (stopIfExpired_safe allowed)).bind fun _ _ =>
    .ite (fun _ => leave_safe allowed) fun _ => session_safe allowed (resumeAtPace_safe allowed)

end Desk

end Safety

end Rload
