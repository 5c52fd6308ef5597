import Rload.HandlerTurns
import Rload.LoweredCounters

/-!
# What handlers subtract

A handler subtracts one from the counter of active connections at most, and as the last thing
that it does. A failure that is not recovered ends the connection: the error is not returned.
-/

namespace Rload
open StatefulPrograms Connection

namespace Desk

def withActive (n : ℕ) (d : Desk) : Desk := { d with active := n }

/-- The handler subtracts one at most. -/
abbrev Once (m : DeskM Unit) (d : Desk) : Prop := Lowers withActive m d fun k _ => k ≤ 1

/-- The branch subtracts one at most, and nothing if the event goes on. -/
def Passing (k : ℕ) (r : EStateM.Result Halt Desk Bool) : Prop :=
  k ≤ 1 ∧ ∀ d, r = .ok false d → k = 0

section Handlers

variable {α : Type} {d : Desk} (token timeout : ℕ)

theorem session_spares (m : ConnectionM α) : Spares withActive (liftM m : DeskM α) :=
  Spares.zoom (fun _ _ => rfl) fun _ _ _ => rfl

theorem getConnection_spares : Spares withActive getConnection :=
  fun d => ⟨0, .ok d.connection d, fun _ => rfl, rfl⟩

theorem countError_spares (f : SocketErrors → SocketErrors) : Spares withActive (countError f) :=
  Spares.modify fun _ _ => rfl

theorem schedule_spares : Spares withActive (schedule token timeout) :=
  Spares.modify fun _ _ => rfl

theorem schedulePacing_spares : Spares withActive (schedulePacing token) :=
  Spares.modify fun _ _ => rfl

theorem noteExpiry_spares (error : IoError) : Spares withActive (noteExpiry error) :=
  Spares.modify fun _ _ => rfl

theorem countRecoveryAttempts_spares : Spares withActive countRecoveryAttempts :=
  (session_spares _).bind fun _ => Spares.modify fun _ _ => rfl

theorem countReadBytes_spares : Spares withActive countReadBytes :=
  (session_spares _).bind fun _ => Spares.modify fun _ _ => rfl

theorem spares_once {m : DeskM Unit} (h : Spares withActive m) : Once m d :=
  (h d).mono fun _ _ hk => hk.trans_le (Nat.zero_le 1)

theorem leave_once : Once leave d := ⟨1, .ok ⟨⟩ d, fun _ => rfl, le_rfl⟩

theorem abandon_once : Once abandon d := ⟨1, .ok ⟨⟩ d.abandoned, fun _ => rfl, le_rfl⟩

/-- What spares the counter comes before what subtracts once. -/
theorem once_after {m : DeskM α} {f : α → DeskM Unit} (hm : Spares withActive m)
    (hf : ∀ a d, Once (f a) d) : Once (m >>= f) d :=
  Lowers.after hm hf fun _ _ => Nat.zero_le 1

theorem recoverOrStop_once (addError : SocketErrors → SocketErrors) (error : RunError) :
    Once (recoverOrStop token timeout addError error) d := by
  refine once_after (session_spares _) fun recovered d =>
    once_after countRecoveryAttempts_spares fun _ d => .ite (fun _ => ?_) fun _ => ?_
  · exact once_after (countError_spares _) fun _ _ => spares_once (schedule_spares token timeout)
  · refine once_after (session_spares _) fun stopped d => .ite (fun _ => ?_) fun _ => ?_
    · exact once_after (countError_spares _) fun _ _ => leave_once
    · refine once_after getConnection_spares fun c d => .ite (fun _ => ?_) fun _ => ?_
      · exact once_after (countError_spares _) fun _ _ => abandon_once
      · exact spares_once (.throw _)

theorem retryOrAbandon_once : Once (retryOrAbandon token timeout) d :=
  once_after (session_spares _) fun _ _ => once_after countRecoveryAttempts_spares fun _ _ =>
    .ite (fun _ => spares_once (schedule_spares token timeout)) fun _ => abandon_once

theorem checkHandshake_spares : Spares withActive checkHandshake := by
  refine getConnection_spares.bind fun c => (session_spares _).bind fun handshaking =>
    .ite ((session_spares _).bind fun written => ?_) (.pure _)
  split
  · exact .throw _
  · exact .pure _

theorem failBeforeStart_once : Once (failBeforeStart token timeout) d :=
  once_after checkHandshake_spares fun _ _ => once_after (countError_spares _) fun _ _ =>
    once_after (session_spares _) fun _ _ =>
      .ite (fun _ => spares_once (schedulePacing_spares token)) fun _ =>
        retryOrAbandon_once token timeout

theorem passing_true {m : DeskM Unit} (h : Once m d) :
    Lowers withActive (do
      m
      pure true) d Passing := by
  refine h.bind (fun k _ d hk => .pure ⟨hk, ?_⟩) fun k e d hk => ⟨hk, ?_⟩
  · intro d' heq
    cases heq
  · intro d' heq
    cases heq

theorem passing_after {m : DeskM α} {f : α → DeskM Bool} (hm : Spares withActive m)
    (hf : ∀ a d, Lowers withActive (f a) d Passing) : Lowers withActive (m >>= f) d Passing :=
  Lowers.after hm hf fun _ _ => ⟨Nat.zero_le 1, fun _ _ => rfl⟩

theorem spares_passing {m : DeskM Bool} (h : Spares withActive m) : Lowers withActive m d Passing :=
  (h d).mono fun _ _ hk => ⟨hk.trans_le (Nat.zero_le 1), fun _ _ => hk⟩

theorem handleError_passing : Lowers withActive (handleError token timeout) d Passing := by
  refine passing_after (session_spares _) fun error d => ?_
  cases error with
  | none => exact spares_passing (.pure false)
  | some error =>
    exact passing_after getConnection_spares fun c d => .ite
      (fun _ => passing_true (recoverOrStop_once token timeout _ _))
      fun _ => passing_true (failBeforeStart_once token timeout)

theorem handleWritable_passing : Lowers withActive (handleWritable token timeout) d Passing := by
  refine passing_after (session_spares _) fun stopped d => .ite (fun _ => passing_true leave_once)
    fun _ => passing_after (session_spares _) fun pending d => ?_
  cases pending with
  | some error => exact passing_true (failBeforeStart_once token timeout)
  | none =>
    refine passing_after getConnection_spares fun before d =>
      passing_after (session_spares _) fun written d => ?_
    split
    · exact spares_passing (.throw _)
    · refine passing_after getConnection_spares fun c d => ?_
      split
      · exact passing_after (countError_spares _) fun _ _ =>
          passing_true (retryOrAbandon_once token timeout)
      · exact passing_true (recoverOrStop_once token timeout _ _)
    · refine passing_after (session_spares _) fun _ _ => ?_
      exact passing_after getConnection_spares fun c _ =>
        spares_passing (.ite ((schedule_spares token timeout).bind fun _ => .pure false)
          (.pure false))

theorem handleResponse_once (response : CompletedResponse) :
    Once (handleResponse token timeout response) d := by
  unfold handleResponse
  split
  · exact spares_once (.throw _)
  · exact once_after (.modify fun _ _ => rfl) fun _ _ => once_after (session_spares _) fun _ _ =>
      .ite (fun _ => leave_once) fun _ => spares_once (schedule_spares token timeout)

theorem handleReadable_once : Once (handleReadable token timeout) d := by
  refine once_after (session_spares _) fun response d => once_after countReadBytes_spares fun _ d =>
    once_after getConnection_spares fun c d => ?_
  split
  · exact handleResponse_once token timeout _
  · exact spares_once (session_spares _)
  · exact .ite (fun _ => recoverOrStop_once token timeout _ _) fun _ =>
      .ite (fun _ => spares_once (session_spares _)) fun _ => failBeforeStart_once token timeout
  · exact spares_once (.throw _)

/-- A branch that may deal with the event comes before the rest. -/
theorem once_branch {b : Bool} {dealing : DeskM Bool} {rest : DeskM Unit}
    (hdealing : Lowers withActive dealing d Passing) (hrest : ∀ d, Once rest d) :
    Once (do if ← if b then dealing else pure false then pure () else rest) d := by
  have hjoin : ∀ k dealt d, Passing k (.ok dealt d) →
      Lowers withActive (if dealt then pure () else rest) d fun j _ => k + j ≤ 1 := by
    rintro k dealt d ⟨hk, hgoes⟩
    refine .ite (fun _ => .pure hk) fun h => ?_
    rw [Bool.not_eq_true] at h
    rw [hgoes d (congrArg (EStateM.Result.ok · d) h)]
    exact (hrest d).mono fun j _ hj => (Nat.zero_add j).symm ▸ hj
  exact .ite (fun _ => hdealing.bind hjoin fun k e d h => h.1) fun _ =>
    Lowers.bind (spares_passing (.pure false)) hjoin fun k e d h => h.1

/-- An event of a connection that is done is passed over. -/
theorem handleEvent_lowers (event : Event) :
    Lowers withActive (handleEvent token timeout event) d fun k _ =>
      k ≤ 1 ∧ (d.connection.done = true → k = 0) := by
  have hlook : Lowers withActive getConnection d fun k r => k = 0 ∧ r = .ok d.connection d :=
    ⟨0, .ok d.connection d, fun _ => rfl, rfl, rfl⟩
  refine hlook.bind ?_ fun k e d' h => absurd h.2 nofun
  rintro _ c d' ⟨rfl, ⟨⟩⟩
  refine .ite (fun _ => .pure ⟨Nat.zero_le 1, fun _ => rfl⟩) fun hopen => ?_
  have honce : Once (do
      if ← if event.isError then handleError token timeout else pure false then pure ()
      else if ← if event.isWritable then handleWritable token timeout else pure false then pure ()
      else if event.isReadable || event.isReadClosed then handleReadable token timeout
      else pure ()) d :=
    once_branch (handleError_passing token timeout) fun _ =>
      once_branch (handleWritable_passing token timeout) fun _ =>
        .ite (fun _ => handleReadable_once token timeout) fun _ => spares_once (.pure ())
  exact honce.mono fun j _ hj => ⟨(Nat.zero_add j).symm ▸ hj, fun hdone => absurd hdone hopen⟩

theorem handleExpired_once : Once (handleExpired token timeout) d := by
  refine once_after (session_spares _) fun expiration d => ?_
  cases expiration with
  | stopped => exact leave_once
  | requestTimeout =>
    exact once_after (noteExpiry_spares _) fun _ _ => once_after (countError_spares _) fun _ _ =>
      recoverOrStop_once token timeout _ _
  | connectionTimeout =>
    exact once_after (noteExpiry_spares _) fun _ _ => once_after (countError_spares _) fun _ _ =>
      retryOrAbandon_once token timeout

theorem handlePace_once : Once handlePace d :=
  once_after (session_spares _) fun _ _ =>
    .ite (fun _ => leave_once) fun _ => spares_once (session_spares _)

end Handlers

end Desk

theorem Connection.stopped_or_done {s s₁ s₂ : Session} {later : World} {stopped : Bool}
    (hrecover : recoverRequest s = .ok false s₁) (hclock : s₁.world.clock ≤ later.clock)
    (hstop : stopAfterDurationError ⟨s₁.connection.clearRecoveryAttempts, later⟩ =
      .ok stopped s₂) :
    stopped = true ∨ s₂.connection.done = true := by
  obtain ⟨k, -, hresult⟩ := (recoverRequest_spec s).of_ok hrecover
  obtain ⟨hlater, hstopped⟩ := (stopAfterDurationError_spec _).of_ok hstop
  rw [if_neg Bool.false_ne_true] at hresult
  cases stopped with
  | true => exact Or.inl rfl
  | false =>
    rw [if_neg Bool.false_ne_true] at hstopped
    obtain ⟨hsame, hbefore⟩ := hstopped
    refine Or.inr ?_
    rcases hresult with hup | ⟨-, hconnection, time, hlimit, hover⟩
    · rw [hsame]
      exact hup.done_after
    · have hlimit₁ : s₁.connection.limit = .deadline time := by rw [hconnection, hlimit]
      have hless := hbefore time hlimit₁
      have hle := hlater.clock_le
      simp only at hle
      omega

namespace Desk

theorem ok_of_session {α : Type} {m : ConnectionM α} {d d' : Desk} {a : α}
    (h : (liftM m : DeskM α) d = .ok a d') :
    ∃ s', m d.session = .ok a s' ∧ d' = d.withSession s' := by
  have hzoom : (liftM m : DeskM α) d = zoom session withSession m d := rfl
  rw [hzoom, zoom] at h
  cases hm : m d.session with
  | error e s' =>
    rw [hm] at h
    cases h
  | ok b s' =>
    rw [hm] at h
    cases h
    exact ⟨s', rfl, rfl⟩

/-- The error is never returned. -/
theorem recoverOrStop_eq (token timeout : ℕ) (addError : SocketErrors → SocketErrors)
    (error error' : RunError) (d : Desk) :
    recoverOrStop token timeout addError error d =
      recoverOrStop token timeout addError error' d := by
  unfold recoverOrStop
  apply bind_congr_of_ok
  intro recovered d₁ hrecover
  apply bind_congr_of_ok
  rintro _ d₂ ⟨⟩
  cases recovered with
  | true => rfl
  | false =>
    obtain ⟨s₁, hfailed, rfl⟩ := ok_of_session hrecover
    apply bind_congr_of_ok
    intro stopped d₃ hstop
    obtain ⟨s₂, hon, rfl⟩ := ok_of_session hstop
    cases stopped with
    | true => rfl
    | false =>
      have hdone := (stopped_or_done hfailed le_rfl hon).resolve_left Bool.false_ne_true
      apply bind_congr_of_ok
      intro c d₄ hlook
      have hc : c.done = true := by
        cases hlook
        exact hdone
      rw [if_pos hc, if_pos hc]

end Desk

end Rload
