import Rload.ConnectionEffects
import Rload.SoundCalls

/-!
# Connections that end by errors alone

A connection is sound if its decoder is, and if the URI of its request is a text. What the code
does with a sound connection keeps it sound, and a draw is all that may end the worker in another
way than by an error.
-/

namespace Rload
open StatefulPrograms

namespace Connection

structure Sound (c : Connection) : Prop where
  text : IsText c.request c.uri
  decoder : c.decoder.Sound

variable {c c' : Connection}

theorem Sound.of_same (h : c.Sound) (hrequest : c'.request = c.request) (huri : c'.uri = c.uri)
    (hdecoder : c'.decoder = c.decoder) : c'.Sound := by
  refine ⟨?_, hdecoder ▸ h.decoder⟩
  rw [hrequest, huri]
  exact h.text

/-- A new decoder for the same request. -/
theorem Sound.refresh (h : c.Sound) (hrequest : c'.request = c.request) (huri : c'.uri = c.uri)
    {noBody : Bool} (hdecoder : c'.decoder = .new noBody) : c'.Sound := by
  refine ⟨?_, hdecoder ▸ ResponseDecoder.sound_new noBody⟩
  rw [hrequest, huri]
  exact h.text

theorem Sound.hear (h : c.Sound) (data : List UInt8) (eof : Bool) : (c.hear data eof).Sound := by
  have hfed : (c.decoder.feed data eof).2.Sound := (h.decoder.feed data eof).2
  rw [Connection.hear]
  split
  · exact ⟨h.text, hfed⟩
  · exact ⟨h.text, hfed⟩

theorem Sound.toRetry (h : c.Sound) : (toRetry c).Sound := h.of_same rfl rfl rfl

theorem Sound.toResume (h : c.Sound) : (toResume c).Sound := h.of_same rfl rfl rfl

theorem Sound.toRecover (h : c.Sound) : (toRecover c).Sound := h.refresh rfl rfl rfl

theorem sound_install {drawn : Drawn} (h : IsText drawn.request drawn.uri) :
    (install drawn c).Sound := ⟨h, ResponseDecoder.sound_new _⟩

end Connection

def Session.Sound (allowed : Halt → Prop) (s : Session) : Prop :=
  s.connection.Sound ∧ s.world.sequence.Sound allowed

section Safety

variable (allowed : Halt → Prop) {α : Type} {Q : α → Prop}

abbrev SafeSession (m : ConnectionM α) (Q : α → Prop) : Prop :=
  Safe (Session.Sound allowed) (Halt.Expected allowed) m Q

theorem lift_safe {m : WorldM α} (h : SafeWorld allowed m Q) :
    SafeSession allowed (liftM m : ConnectionM α) Q :=
  .zoom (fun _ hs => hs.2) (fun _ _ hs hw => ⟨hs.1, hw⟩) h

theorem shouldContinue_safe (limit : ConnectionLimit) (completed : ℕ) :
    SafeWorld allowed (limit.shouldContinue completed) fun _ => True := by
  cases limit with
  | requests count => exact .pure ⟨⟩
  | deadline time => exact (World.now_safe allowed).bind fun _ _ => .pure ⟨⟩

namespace Connection

theorem get_safe : SafeSession allowed get Sound := fun _ hs => ⟨hs.1, hs⟩

theorem update_safe {f : Connection → Connection} (h : ∀ c, c.Sound → (f c).Sound) :
    SafeSession allowed (update f) fun _ => True := fun _ hs => ⟨⟨⟩, h _ hs.1, hs.2⟩

/-- An assignment to other fields. -/
theorem set_safe (f : Connection → Connection) (h : ∀ c, (f c).request = c.request ∧
    (f c).uri = c.uri ∧ (f c).decoder = c.decoder) :
    SafeSession allowed (update f) fun _ => True :=
  update_safe allowed fun c hc => hc.of_same (h c).1 (h c).2.1 (h c).2.2

theorem askRegistry_safe (call : RegistryCall) (interest : Option Interest) :
    SafeSession allowed (askRegistry call interest) fun _ => True :=
  (get_safe allowed).bind fun _ _ =>
    (lift_safe allowed (World.askRegistry_safe allowed _ _)).bind fun _ _ =>
      set_safe allowed (watch interest) fun _ => ⟨rfl, rfl, rfl⟩

theorem isEarly_safe (c : Connection) : SafeWorld allowed c.isEarly fun _ => True := by
  unfold isEarly
  split
  · exact .pure ⟨⟩
  · exact (World.now_safe allowed).bind fun _ _ => .pure ⟨⟩

theorem refreshInterest_safe : SafeSession allowed refreshInterest fun _ => True :=
  (get_safe allowed).bind fun c _ => (lift_safe allowed (isEarly_safe allowed c)).bind fun _ _ =>
    (lift_safe allowed (c.stream.interest_safe allowed _ _)).bind fun _ _ =>
      askRegistry_safe allowed _ _

theorem takeError_safe (operation : Bool → Bool → Operation) :
    SafeSession allowed (takeError operation) fun _ => True := by
  refine (lift_safe allowed (World.service_safe allowed)).bind fun reply _ => ?_
  split
  · exact (get_safe allowed).bind fun _ _ =>
      (lift_safe allowed (World.note_safe allowed _)).bind fun _ _ => .pure ⟨⟩
  · exact .pure ⟨⟩

theorem adopt_safe (addressIndex : ℕ) {assign : Connection → Connection}
    (h : ∀ c, c.Sound → (assign c).Sound) :
    SafeSession allowed (adopt addressIndex assign) fun _ => True :=
  (get_safe allowed).bind fun c _ =>
    (lift_safe allowed (Transport.new_safe allowed false c.tls)).bind fun _ _ =>
      (lift_safe allowed (World.now_safe allowed)).bind fun _ _ =>
        update_safe allowed fun c hc => (h c hc).of_same rfl rfl rfl

theorem connectFrom_safe (operation : Operation) (addresses : List SocketAddr) (start : ℕ) :
    SafeSession allowed (liftM (connectFrom operation addresses start) : ConnectionM ℕ)
      fun _ => True :=
  lift_safe allowed (Rload.connectFrom_safe allowed operation addresses start)

theorem writeLoop_safe (operation : Operation) (results : List (Except IoError ℕ)) :
    SafeSession allowed (writeLoop operation results) fun _ => True := by
  induction results with
  | nil => exact .pure ⟨⟩
  | cons result results ih =>
    cases result with
    | error error =>
      refine (get_safe allowed).bind fun c _ => .ite (fun _ => .pure ⟨⟩) fun _ =>
        .ite (fun _ => ?_) fun _ => ?_
      · exact lift_safe allowed (World.raise_safe allowed _)
      · exact lift_safe allowed (World.fail_safe allowed _ _)
    | ok accepted =>
      refine (get_safe allowed).bind fun c _ => .ite (fun _ => ?_) fun _ => ?_
      · exact lift_safe allowed (World.fail_safe allowed _ _)
      · refine Safe.bind (Q := fun _ => True) ?_ fun _ _ => (get_safe allowed).bind fun _ _ =>
          .ite (fun _ => .pure ⟨⟩) fun _ => ih
        exact fun _ hs => ⟨⟨⟩, hs.1.of_same rfl rfl rfl, hs.2⟩

theorem sendRequest_safe (operation : Bool → Operation) :
    SafeSession allowed (sendRequest operation) fun _ => True := by
  refine (set_safe allowed endWait fun _ => ⟨rfl, rfl, rfl⟩).bind fun _ _ =>
    (get_safe allowed).bind fun c _ => ?_
  have hwrite : SafeSession allowed (do
      let reply ← World.call
      writeLoop (operation true) reply.writes) fun _ => True :=
    (lift_safe allowed (World.call_safe allowed)).bind fun _ _ => writeLoop_safe allowed _ _
  refine .ite (fun _ => ?_) fun _ => hwrite
  exact (lift_safe allowed (World.now_safe allowed)).bind fun _ _ =>
    (set_safe allowed (start _) fun _ => ⟨rfl, rfl, rfl⟩).bind fun _ _ => hwrite

theorem writeRequest_safe (operation : Bool → Operation) :
    SafeSession allowed (writeRequest operation) fun _ => True := by
  refine (get_safe allowed).bind fun c _ => .ite (fun _ => ?_) fun _ => ?_
  · exact lift_safe allowed (c.stream.flushTls_safe allowed _)
  · refine (lift_safe allowed (c.stream.finishHandshake_safe allowed _)).bind fun _ _ =>
      .ite (fun _ => (lift_safe allowed (isEarly_safe allowed c)).bind fun _ _ =>
        .ite (fun _ => ?_) fun _ => sendRequest_safe allowed _) fun _ => .pure ⟨⟩
    refine update_safe allowed fun c hc => ?_
    rw [awaitPace]
    split
    · exact hc
    · exact hc.of_same rfl rfl rfl

/-- What the decoder makes of the bytes is no halt of another kind. -/
theorem Sound.decoded {c : Connection} (h : c.Sound) {data : List UInt8} {eof : Bool}
    {halt : Halt} (hdecoded : c.decoded data eof = .error halt) : halt.Expected allowed :=
  Or.inl ((h.decoder.feed data eof).1 halt hdecoded)

theorem readLoop_safe (results : List (Except IoError (List UInt8))) :
    SafeSession allowed (readLoop results) fun _ => True := by
  induction results with
  | nil => exact .pure ⟨⟩
  | cons result results ih =>
    cases result with
    | error error =>
      refine (get_safe allowed).bind fun c _ => .ite (fun _ => .pure ⟨⟩) fun _ => ?_
      exact lift_safe allowed (World.fail_safe allowed _ _)
    | ok bytes =>
      refine .ite (fun _ => .pure ⟨⟩) fun _ => (get_safe allowed).bind fun c hc =>
        (update_safe allowed fun c hc => hc.hear _ _).bind fun _ _ => ?_
      split
      · rename_i halt hdecoded
        exact .throw (hc.decoded allowed hdecoded)
      · exact .pure ⟨⟩
      · exact ih

theorem feedEnd_safe (eof : Bool) : SafeSession allowed (feedEnd eof) fun _ => True := by
  refine (get_safe allowed).bind fun c hc =>
    (update_safe allowed fun c hc => hc.hear _ _).bind fun _ _ => ?_
  split
  · refine .ite (fun _ => ?_) fun _ => .throw (Or.inl rfl)
    exact lift_safe allowed (World.fail_safe allowed _ _)
  · rename_i halt hdecoded
    exact .throw (hc.decoded allowed hdecoded)
  · exact .pure ⟨⟩

/-- A response comes with the URI of its request. -/
def HasText (response : Option CompletedResponse) : Prop :=
  ∀ completed, response = some completed → IsText completed.request completed.uri

theorem respond_safe (parsed : ParsedResponse) (eof : Bool) :
    SafeSession allowed (respond parsed eof) HasText := by
  refine (get_safe allowed).bind fun c hc =>
    (lift_safe allowed (World.now_safe allowed)).bind fun _ _ => .pure ?_
  rintro completed ⟨⟩
  exact hc.text

theorem readEnd_safe (eof : Bool) : SafeSession allowed (readEnd eof) HasText := by
  refine (feedEnd_safe allowed eof).bind fun parsed _ => ?_
  split
  · exact respond_safe allowed _ _
  · exact .pure nofun

theorem readResponse_safe : SafeSession allowed readResponse HasText := by
  refine (lift_safe allowed (World.call_safe allowed)).bind fun reply _ =>
    (readLoop_safe allowed reply.reads).bind fun ending _ => ?_
  split
  · exact respond_safe allowed _ _
  · exact readEnd_safe allowed _
  · exact readEnd_safe allowed _

theorem installNextRequest_safe : SafeSession allowed installNextRequest fun _ => True :=
  (lift_safe allowed (World.drawRequest_safe allowed)).bind fun _ hdrawn =>
    update_safe allowed fun _ _ => sound_install hdrawn

theorem finishResponse_safe (connectionClose : Bool) :
    SafeSession allowed (finishResponse connectionClose) fun _ => True := by
  refine (set_safe allowed complete fun _ => ⟨rfl, rfl, rfl⟩).bind fun _ _ =>
    (get_safe allowed).bind fun c _ =>
      (lift_safe allowed (shouldContinue_safe allowed _ _)).bind fun _ _ =>
        .ite (fun _ => ?_) fun _ => ?_
  · refine (set_safe allowed rewind fun _ => ⟨rfl, rfl, rfl⟩).bind fun _ _ =>
      (installNextRequest_safe allowed).bind fun _ _ =>
        (set_safe allowed unstart fun _ => ⟨rfl, rfl, rfl⟩).bind fun _ _ =>
          .ite (fun _ => ?_) fun _ => ?_
    · exact (askRegistry_safe allowed _ _).bind fun _ _ => (get_safe allowed).bind fun c _ =>
        (connectFrom_safe allowed _ _ _).bind fun _ _ =>
          (adopt_safe allowed _ fun _ hc => hc).bind fun _ _ =>
            (askRegistry_safe allowed _ _).bind fun _ _ => .pure ⟨⟩
    · exact (askRegistry_safe allowed _ _).bind fun _ _ =>
        (writeRequest_safe allowed _).bind fun _ _ =>
          (refreshInterest_safe allowed).bind fun _ _ => .pure ⟨⟩
  · exact (set_safe allowed finish fun _ => ⟨rfl, rfl, rfl⟩).bind fun _ _ =>
      (askRegistry_safe allowed _ _).bind fun _ _ => .pure ⟨⟩

/-- The connection is finished and its socket no longer watched. -/
theorem finish_safe {a : α} (ha : Q a) :
    SafeSession allowed (do
      update finish
      deregister
      pure a) Q :=
  (set_safe allowed finish fun _ => ⟨rfl, rfl, rfl⟩).bind fun _ _ =>
    (askRegistry_safe allowed _ _).bind fun _ _ => .pure ha

theorem stopIfExpired_safe : SafeSession allowed stopIfExpired fun _ => True := by
  refine (get_safe allowed).bind fun c _ => .ite (fun _ => .pure ⟨⟩) fun _ =>
    (lift_safe allowed (shouldContinue_safe allowed _ _)).bind fun _ _ =>
      .ite (fun _ => .pure ⟨⟩) fun _ => ?_
  refine (set_safe allowed finish fun _ => ⟨rfl, rfl, rfl⟩).bind fun _ _ => ?_
  exact .ite (fun _ => .pure ⟨⟩) fun _ =>
    (askRegistry_safe allowed _ _).bind fun _ _ => .pure ⟨⟩

/-- The loop ends by itself. -/
theorem connectLoop_ensures (operation : Operation) (start : ℕ) {fuel : ℕ} (hfuel : 0 < fuel)
    {s : Session} (hs : s.Sound allowed)
    (hattempts : fixedRequestRecoveryAttempts ≤ s.connection.recoveryAttempts + fuel) :
    Ensures (connectLoop operation start fuel) s (fun _ s' => s'.Sound allowed)
      fun e s' => e.Expected allowed ∧ s'.Sound allowed := by
  induction fuel generalizing s with
  | zero => cases hfuel
  | succ fuel ih =>
    have hcounted : Session.Sound allowed
        ⟨happen .attempted (countAttempt true s.connection), s.world⟩ :=
      ⟨hs.1.of_same rfl rfl rfl, hs.2⟩
    have htried : SafeSession allowed
        (liftM (attempt ioError (connectFrom operation s.connection.addresses start)) :
          ConnectionM (Except IoError ℕ)) fun _ => True :=
      lift_safe allowed ((Rload.connectFrom_safe allowed _ _ _).attempt (fun _ _ => ⟨⟩)
        fun _ => ⟨⟩)
    simp only [connectLoop, ensures_bind, ensures_update, ensures_get]
    have hworld := htried _ hcounted
    rw [ensures_world] at hworld ⊢
    refine hworld.mono ?_ fun _ _ h => h
    rintro tried w ⟨-, hs'⟩
    cases tried with
    | ok addressIndex => exact hs'
    | error error =>
      simp only [ensures_ite, ensures_bind, ensures_update, ensures_pure]
      refine ⟨fun _ => ⟨hs'.1.of_same rfl rfl rfl, hs'.2⟩, fun hmore => ?_⟩
      have hcount : (happen .attempted (countAttempt true s.connection)).recoveryAttempts =
          s.connection.recoveryAttempts + 1 := rfl
      rw [hcount] at hmore
      rw [ensures_world]
      refine (World.sleep_safe allowed 1000000 w hs'.2).mono ?_ fun _ _ h => ⟨h.1, hs'.1, h.2⟩
      rintro _ w' ⟨-, hw'⟩
      refine ih (by omega) ⟨hs'.1, hw'⟩ ?_
      rw [hcount]
      omega

theorem connectLoop_safe (operation : Operation) (start : ℕ) :
    SafeSession allowed (connectLoop operation start fixedRequestRecoveryAttempts)
      fun _ => True := by
  intro s hs
  refine (connectLoop_ensures allowed operation start (Nat.succ_pos _) hs ?_).mono
    (fun _ _ h => ⟨⟨⟩, h⟩) fun _ _ h => h
  exact Nat.le_add_left _ _

theorem retryAddress_safe : SafeSession allowed retryAddress fun _ => True := by
  refine (askRegistry_safe allowed _ _).bind fun _ _ => (get_safe allowed).bind fun c _ => ?_
  split
  · refine .ite (fun _ => ?_) fun _ => (connectLoop_safe allowed _ _).bind fun opened _ => ?_
    · exact (set_safe allowed finish fun _ => ⟨rfl, rfl, rfl⟩).bind fun _ _ => .pure ⟨⟩
    · split
      · exact .pure ⟨⟩
      · exact (adopt_safe allowed _ fun _ hc => hc.toRetry).bind fun _ _ =>
          (askRegistry_safe allowed _ _).bind fun _ _ => .pure ⟨⟩
  · exact (set_safe allowed (happen .attempted) fun _ => ⟨rfl, rfl, rfl⟩).bind fun _ _ =>
      (connectFrom_safe allowed _ _ _).bind fun _ _ =>
        (adopt_safe allowed _ fun _ hc => hc.toRetry).bind fun _ _ =>
          (askRegistry_safe allowed _ _).bind fun _ _ => .pure ⟨⟩

theorem recoverRequest_safe : SafeSession allowed recoverRequest fun _ => True := by
  refine (get_safe allowed).bind fun c _ => ?_
  dsimp only
  split
  · refine .ite (fun _ => finish_safe allowed ⟨⟩) fun _ => (askRegistry_safe allowed _ _).bind
      fun _ _ => (connectLoop_safe allowed _ _).bind fun opened _ => ?_
    split
    · exact .pure ⟨⟩
    · exact (adopt_safe allowed _ fun _ hc => hc.toRecover).bind fun _ _ =>
        (askRegistry_safe allowed _ _).bind fun _ _ => .pure ⟨⟩
  · refine (lift_safe allowed (World.now_safe allowed)).bind fun _ _ =>
      .ite (fun _ => .pure ⟨⟩) fun _ => (askRegistry_safe allowed _ _).bind fun _ _ =>
        (set_safe allowed (countAttempt false) fun _ => ⟨rfl, rfl, rfl⟩).bind fun _ _ =>
          (set_safe allowed (happen .attempted) fun _ => ⟨rfl, rfl, rfl⟩).bind fun _ _ =>
            (connectFrom_safe allowed _ _ _).bind fun _ _ => ?_
    exact (adopt_safe allowed _ fun _ hc => hc.toRecover).bind fun _ _ =>
      (askRegistry_safe allowed _ _).bind fun _ _ => .pure ⟨⟩

theorem deferReconnectUntilPace_safe :
    SafeSession allowed deferReconnectUntilPace fun _ => True :=
  (get_safe allowed).bind fun c _ => .ite (fun _ => .pure ⟨⟩) fun _ =>
    (lift_safe allowed (isEarly_safe allowed c)).bind fun _ _ => .ite
      (fun _ => (askRegistry_safe allowed _ _).bind fun _ _ =>
        (set_safe allowed defer fun _ => ⟨rfl, rfl, rfl⟩).bind fun _ _ => .pure ⟨⟩)
      fun _ => .pure ⟨⟩

theorem resumeAtPace_safe : SafeSession allowed resumeAtPace fun _ => True :=
  (get_safe allowed).bind fun _ _ => .ite
    (fun _ => (connectFrom_safe allowed _ _ _).bind fun _ _ =>
      (adopt_safe allowed _ fun _ hc => hc.toResume).bind fun _ _ =>
        askRegistry_safe allowed _ _)
    fun _ => refreshInterest_safe allowed

theorem stopAfterDurationError_safe :
    SafeSession allowed stopAfterDurationError fun _ => True := by
  refine (get_safe allowed).bind fun c _ => ?_
  split
  · exact .pure ⟨⟩
  · exact (lift_safe allowed (World.now_safe allowed)).bind fun _ _ =>
      .ite (fun _ => finish_safe allowed ⟨⟩) fun _ => .pure ⟨⟩

theorem expire_safe : SafeSession allowed expire fun _ => True :=
  (get_safe allowed).bind fun _ _ => .ite (fun _ => .pure ⟨⟩) fun _ =>
    (lift_safe allowed (shouldContinue_safe allowed _ _)).bind fun _ _ =>
      .ite (fun _ => .pure ⟨⟩) fun _ => finish_safe allowed ⟨⟩

end Connection

end Safety

end Rload
