import Rload.WorldCalls

/-!
# What the methods of a connection can do

Each method leaves the connection that some pure functions make of the one it found, or ends
by an error. Reading and writing on the current transport is a chain of exchanges; the other
methods have a fixed shape.
-/

namespace Rload
open StatefulPrograms

variable {α : Type}

theorem ensures_world {m : WorldM α} {s : Session} {Q : α → Session → Prop}
    {E : Halt → Session → Prop} :
    Ensures (liftM m : ConnectionM α) s Q E ↔
      Ensures m s.world (fun a w => Q a ⟨s.connection, w⟩) fun e w => E e ⟨s.connection, w⟩ :=
  ensures_zoom

namespace Connection

theorem ensures_get {s : Session} {Q : Connection → Session → Prop} {E : Halt → Session → Prop} :
    Ensures Connection.get s Q E ↔ Q s.connection s := Iff.rfl

theorem ensures_update {f : Connection → Connection} {s : Session} {Q : Unit → Session → Prop}
    {E : Halt → Session → Prop} :
    Ensures (update f) s Q E ↔ Q ⟨⟩ ⟨f s.connection, s.world⟩ := Iff.rfl

theorem ensures_accept {n : ℕ} {s : Session} {Q : Unit → Session → Prop}
    {E : Halt → Session → Prop} :
    Ensures (accept n) s Q E ↔ Q ⟨⟩ ⟨s.connection.advanceOffset s.world.clock n, s.world⟩ :=
  Iff.rfl

/-- The first byte of a request may be written now. -/
def begin (now : ℕ) (c : Connection) : Connection :=
  if c.started.isNone then start now c.endWait else c.endWait

/-- The bytes do not end the response. -/
def Continues (c : Connection) (data : List UInt8) (eof : Bool) : Prop :=
  data = [] ∨ eof = false ∧ c.decoded data eof = .ok none

/-- Reading, while a response goes on. -/
inductive Reads : Connection → Connection → Prop
  | refl (c : Connection) : Reads c c
  | hear {c c' : Connection} (h : Reads c c') {data : List UInt8} {eof : Bool}
      (hgoes : Continues c' data eof) : Reads c (c'.hear data eof)

/-- Writing from one instant to another. -/
inductive Exchange (t : ℕ) : ℕ → Connection → Connection → Prop
  | refl (c : Connection) : Exchange t t c c
  | later {t' t'' : ℕ} {c c' : Connection} (h : Exchange t t' c c') (hle : t' ≤ t'') :
      Exchange t t'' c c'
  | awaitPace {t' : ℕ} {c c' : Connection} (h : Exchange t t' c c') {notBefore : ℕ}
      (hpace : c'.notBefore = some notBefore) (hearly : t' < notBefore) :
      Exchange t t' c c'.awaitPace
  | begin {t' : ℕ} {c c' : Connection} (h : Exchange t t' c c')
      (hpace : ∀ notBefore, c'.notBefore = some notBefore → notBefore ≤ t') :
      Exchange t t' c (c'.begin t')
  | advance {t' : ℕ} {c c' : Connection} (h : Exchange t t' c c') {n : ℕ}
      (hstarted : c'.started.isSome) (hpos : 0 < n)
      (hle : c'.writeOffset + n ≤ c'.request.length) : Exchange t t' c (c'.advanceOffset t' n)
  | watch {t' : ℕ} {c c' : Connection} (h : Exchange t t' c c') (interest : Interest) :
      Exchange t t' c (c'.watch (some interest))

theorem Exchange.rests {t t' : ℕ} (h : t ≤ t') (c : Connection) : Exchange t t' c c :=
  (Exchange.refl c).later h

theorem Reads.trans {c c' c'' : Connection} (h : Reads c c') (h' : Reads c' c'') :
    Reads c c'' := by
  induction h' with
  | refl => exact h
  | hear _ hgoes ih => exact ih.hear hgoes

theorem Exchange.trans {t t' t'' : ℕ} {c c' c'' : Connection} (h : Exchange t t' c c')
    (h' : Exchange t' t'' c' c'') : Exchange t t'' c c'' := by
  induction h' with
  | refl => exact h
  | later _ hle ih => exact (ih h).later hle
  | awaitPace _ hpace hearly ih => exact (ih h).awaitPace hpace hearly
  | begin _ hpace ih => exact (ih h).begin hpace
  | advance _ hstarted hpos hle ih => exact (ih h).advance hstarted hpos hle
  | watch _ interest ih => exact (ih h).watch interest

theorem Exchange.mono {t t' u u' : ℕ} {c c' : Connection} (h : Exchange t t' c c')
    (hfrom : u ≤ t) (hto : t' ≤ u') : Exchange u u' c c' :=
  ((Exchange.rests hfrom c).trans h).later hto

/-- What reading may change, blotted out. -/
def readFrame (c : Connection) : Connection :=
  { c with decoder := .new false, pendingReadBytes := 0, history := [] }

/-- What reading and writing may change, blotted out. -/
def frame (c : Connection) : Connection :=
  { c.readFrame with
    stream := ⟨c.stream.tls, none⟩
    awaitingPace := false
    writeOffset := 0
    started := none
    timerGeneration := 0 }

theorem readFrame_hear (data : List UInt8) (eof : Bool) (c : Connection) :
    (c.hear data eof).readFrame = c.readFrame := by
  rw [Connection.hear]
  split <;> rfl

theorem Reads.kept {c c' : Connection} (h : Reads c c') : c'.readFrame = c.readFrame := by
  induction h with
  | refl => rfl
  | hear _ hgoes ih => exact (readFrame_hear _ _ _).trans ih

theorem frame_of_readFrame {c c' : Connection} (h : c'.readFrame = c.readFrame) :
    c'.frame = c.frame := by
  have hstream : c'.stream = c.stream := congrArg (·.stream) h
  rw [frame, frame, h, hstream]

theorem Exchange.kept {t t' : ℕ} {c c' : Connection} (h : Exchange t t' c c') :
    c'.frame = c.frame := by
  induction h with
  | refl => rfl
  | later _ hle ih => exact ih
  | awaitPace _ hpace hearly ih =>
    rw [← ih, Connection.awaitPace]
    split <;> rfl
  | begin _ hpace ih =>
    rw [← ih, Connection.begin]
    split <;> rfl
  | advance _ hstarted hpos hle ih => exact ih
  | watch _ interest ih => exact ih

theorem Exchange.limit_eq {t t' : ℕ} {c c' : Connection} (h : Exchange t t' c c') :
    c'.limit = c.limit := congrArg (·.limit) h.kept

section Methods

variable (s : Session)

theorem writeLoop_spec (operation : Operation) (results : List (Except IoError ℕ))
    (hstarted : s.connection.started.isSome) :
    Ensures (writeLoop operation results) s
      (fun _ s' => Exchange s.world.clock s'.world.clock s.connection s'.connection ∧
        s.world.Later 0 s'.world)
      fun e s' => Exchange s.world.clock s'.world.clock s.connection s'.connection ∧
        s'.connection.hasStarted ∧ s.world.Raises operation e s'.world := by
  induction results generalizing s with
  | nil => exact ⟨.refl _, .refl _⟩
  | cons result results ih =>
    cases result with
    | error error =>
      simp only [writeLoop, ensures_bind, ensures_get, ensures_ite]
      refine ⟨fun _ => ⟨.refl _, .refl _⟩, fun _ => ⟨fun _ => ?_, fun _ => ?_⟩⟩
      · exact ⟨.refl _, hstarted, World.raises_raise _ (.refl _) (by simp)⟩
      · exact ⟨.refl _, hstarted, World.raises_fail _ _ (.refl _)⟩
    | ok accepted =>
      simp only [writeLoop, ensures_bind, ensures_get, ensures_ite]
      refine ⟨fun _ => ?_, fun hwritten => ?_⟩
      · exact ⟨.refl _, hstarted, World.raises_fail _ _ (.refl _)⟩
      · rw [ensures_accept]
        have hadvance : Exchange s.world.clock s.world.clock s.connection
            (s.connection.advanceOffset s.world.clock
              (min accepted (s.connection.request.length - s.connection.writeOffset))) :=
          (Exchange.refl _).advance hstarted (by omega) (by omega)
        refine ⟨fun _ => ⟨hadvance, .refl _⟩, fun _ => ?_⟩
        apply (ih ⟨advanceOffset s.world.clock _ s.connection, s.world⟩ hstarted).mono
        · intro _ s' h
          exact ⟨hadvance.trans h.1, h.2⟩
        · intro e s' h
          exact ⟨hadvance.trans h.1, h.2⟩

theorem isEarly_spec (c : Connection) (w : World) :
    Ensures c.isEarly w
      (fun early w' => w.Later 0 w' ∧
        if early then ∃ notBefore, c.notBefore = some notBefore ∧ w'.clock < notBefore
        else ∀ notBefore, c.notBefore = some notBefore → notBefore ≤ w'.clock)
      fun _ _ => False := by
  unfold isEarly
  cases c.notBefore with
  | none => exact ⟨.refl w, by simp⟩
  | some notBefore =>
    simp only [ensures_bind]
    apply World.ensures_now
    intro w' h
    refine ⟨h, ?_⟩
    by_cases hlt : w'.clock < notBefore
    · simp [hlt]
    · simp [hlt, Nat.le_of_not_lt hlt]

theorem sendRequest_spec (operation : Bool → Operation)
    (hpace : ∀ notBefore, s.connection.notBefore = some notBefore → notBefore ≤ s.world.clock) :
    Ensures (sendRequest operation) s
      (fun _ s' => Exchange s.world.clock s'.world.clock s.connection s'.connection ∧
        s.world.Later 0 s'.world)
      fun e s' => Exchange s.world.clock s'.world.clock s.connection s'.connection ∧
        s.world.Raises (operation s'.connection.hasStarted) e s'.world := by
  have hwrite : ∀ (now : ℕ) (w₁ : World), s.world.clock ≤ now → now ≤ w₁.clock →
      s.world.Later 0 w₁ → ∀ r : Reply,
      Ensures (writeLoop (operation true) r.writes) ⟨s.connection.begin now, w₁⟩
        (fun _ s' => Exchange s.world.clock s'.world.clock s.connection s'.connection ∧
          s.world.Later 0 s'.world)
        fun e s' => Exchange s.world.clock s'.world.clock s.connection s'.connection ∧
          s.world.Raises (operation s'.connection.hasStarted) e s'.world := by
    intro now w₁ hfrom hto h₁ r
    have hstarted : (s.connection.begin now).started.isSome := by
      rw [begin]
      split
      · rfl
      · rename_i h
        rwa [Bool.not_eq_true, Option.isNone_eq_false_iff] at h
    have hbegin : Exchange s.world.clock w₁.clock s.connection (s.connection.begin now) := by
      apply Exchange.later _ hto
      apply (Exchange.rests hfrom _).begin
      intro notBefore h
      exact (hpace notBefore h).trans hfrom
    apply (writeLoop_spec ⟨s.connection.begin now, w₁⟩ (operation true) r.writes hstarted).mono
    · intro _ s' h
      exact ⟨hbegin.trans h.1, h₁.zero_trans h.2⟩
    · rintro e s' ⟨hx, hs, hraises⟩
      rw [hs]
      exact ⟨hbegin.trans hx, h₁.raises hraises⟩
  unfold sendRequest
  simp only [ensures_bind, ensures_update, ensures_get, ensures_ite, ensures_world]
  constructor
  · intro hnone
    apply World.ensures_now
    intro w₁ h₁
    apply World.ensures_call
    intro r w₂ h₂
    have hb : s.connection.begin w₁.clock = start w₁.clock s.connection.endWait := if_pos hnone
    rw [← hb]
    exact hwrite _ _ h₁.clock_le h₂.clock_le (h₁.zero_trans h₂) r
  · intro hsome
    apply World.ensures_call
    intro r w₁ h₁
    have hb : s.connection.begin s.world.clock = s.connection.endWait := if_neg hsome
    rw [← hb]
    exact hwrite _ _ le_rfl h₁.clock_le h₁ r

theorem writeRequest_spec (operation : Bool → Operation) :
    Ensures (writeRequest operation) s
      (fun _ s' => Exchange s.world.clock s'.world.clock s.connection s'.connection ∧
        s.world.Later 0 s'.world)
      fun e s' => Exchange s.world.clock s'.world.clock s.connection s'.connection ∧
        s.world.Raises (operation s'.connection.hasStarted) e s'.world := by
  unfold writeRequest
  simp only [ensures_bind, ensures_get, ensures_ite, ensures_world, ensures_update]
  refine ⟨fun _ => ?_, fun _ => ?_⟩
  · apply (s.connection.stream.flushTls_spec _ s.world).mono
    · intro _ w' h
      exact ⟨.rests h.clock_le _, h⟩
    · intro e w' h
      exact ⟨.rests h.clock_le _, h⟩
  · apply (s.connection.stream.finishHandshake_spec _ s.world).mono
    · intro ready w₁ h₁
      refine ⟨fun _ => ?_, fun _ => ⟨.rests h₁.clock_le _, h₁⟩⟩
      apply (isEarly_spec s.connection w₁).mono
      · rintro early w₂ ⟨h₂, hearly⟩
        have h₂ := h₁.zero_trans h₂
        refine ⟨fun he => ?_, fun he => ?_⟩
        · rw [he] at hearly
          obtain ⟨notBefore, hpace, hlt⟩ := hearly
          exact ⟨(Exchange.rests h₂.clock_le _).awaitPace hpace hlt, h₂⟩
        · rw [Bool.not_eq_true] at he
          rw [he] at hearly
          apply (sendRequest_spec ⟨s.connection, w₂⟩ operation hearly).mono
          · intro _ s' h
            exact ⟨h.1.mono h₂.clock_le le_rfl, h₂.zero_trans h.2⟩
          · intro e s' h
            exact ⟨h.1.mono h₂.clock_le le_rfl, h₂.raises h.2⟩
      · intro _ _ h
        exact h.elim
    · intro e w' h
      exact ⟨.rests h.clock_le _, h⟩

/-- The bytes or the end of the stream that complete a response. -/
inductive Answers (now : ℕ) (c : Connection) : Connection → CompletedResponse → Prop
  | mk {c' : Connection} (h : Reads c c') {data : List UInt8} {eof : Bool}
      (hdata : data = [] ∨ eof = false) {parsed : ParsedResponse}
      (hdecoded : c'.decoded data eof = .ok (some parsed)) :
      Answers now c (c'.hear data eof) ((c'.hear data eof).completedResponse parsed eof now)

theorem Answers.kept {now : ℕ} {c c' : Connection} {response : CompletedResponse}
    (h : Answers now c c' response) : c'.readFrame = c.readFrame := by
  cases h with
  | mk h hdata hdecoded => exact (readFrame_hear _ _ _).trans h.kept

theorem Reads.answers {now : ℕ} {c c' c'' : Connection} {response : CompletedResponse}
    (h : Reads c c') (h' : Answers now c' c'' response) : Answers now c c'' response := by
  cases h' with
  | mk hreads hdata hdecoded => exact .mk (h.trans hreads) hdata hdecoded

theorem readLoop_spec (results : List (Except IoError (List UInt8))) :
    Ensures (readLoop results) s
      (fun result s' => s.world.Later 0 s'.world ∧
        match result with
        | .response parsed => ∃ c data, Reads s.connection c ∧
            c.decoded data false = .ok (some parsed) ∧ s'.connection = c.hear data false
        | _ => Reads s.connection s'.connection)
      fun e s' => (e.isIo = true → Reads s.connection s'.connection) ∧
        s.world.Raises (.read s.connection.hasStarted) e s'.world := by
  induction results generalizing s with
  | nil => exact ⟨.refl _, .refl _⟩
  | cons result results ih =>
    cases result with
    | error error =>
      simp only [readLoop, ensures_bind, ensures_get, ensures_ite]
      exact ⟨fun _ => ⟨.refl _, .refl _⟩,
        fun _ => ⟨fun _ => .refl _, World.raises_fail _ _ (.refl _)⟩⟩
    | ok bytes =>
      simp only [readLoop, ensures_bind, ensures_get, ensures_ite, ensures_update]
      refine ⟨fun _ => ⟨.refl _, .refl _⟩, fun hdata => ?_⟩
      cases hdecoded : s.connection.decoded (bytes.take readBufferSize) false with
      | error halt =>
        have hnoIo : halt.isIo = false := ResponseDecoder.feed_noIo _ _ _ _ hdecoded
        refine ⟨fun hio => ?_, Or.inr ⟨hnoIo, .refl _⟩⟩
        rw [hnoIo] at hio
        cases hio
      | ok parsed =>
        cases parsed with
        | some parsed => exact ⟨.refl _, _, _, .refl _, hdecoded, rfl⟩
        | none =>
          have hhear : Reads s.connection (s.connection.hear (bytes.take readBufferSize) false) :=
            (Reads.refl s.connection).hear (Or.inr ⟨rfl, hdecoded⟩)
          have hstarted : (s.connection.hear (bytes.take readBufferSize) false).hasStarted =
              s.connection.hasStarted := congrArg (fun c => c.started.isSome) hhear.kept
          apply (ih ⟨s.connection.hear (bytes.take readBufferSize) false, s.world⟩).mono
          · rintro result s' ⟨hw, hresult⟩
            refine ⟨hw, ?_⟩
            cases result with
            | response parsed =>
              obtain ⟨c, data, hc, hcd, hs'⟩ := hresult
              exact ⟨c, data, hhear.trans hc, hcd, hs'⟩
            | eof => exact hhear.trans hresult
            | blocked => exact hhear.trans hresult
          · rintro e s' ⟨hreads, hraises⟩
            rw [hstarted] at hraises
            exact ⟨fun hio => hhear.trans (hreads hio), hraises⟩

theorem feedEnd_spec (eof : Bool) :
    Ensures (feedEnd eof) s
      (fun result s' => s.world.Later 0 s'.world ∧ s'.connection = s.connection.hear [] eof ∧
        s.connection.decoded [] eof = .ok result)
      fun e s' => s'.connection = s.connection.hear [] eof ∧
        s.world.Raises (.read s.connection.hasStarted) e s'.world := by
  unfold feedEnd
  simp only [ensures_bind, ensures_get, ensures_update]
  cases hdecoded : s.connection.decoded [] eof with
  | ok result => exact ⟨.refl _, rfl, rfl⟩
  | error halt =>
    have hnoIo := ResponseDecoder.feed_noIo _ _ _ _ hdecoded
    cases halt with
    | error error =>
      cases eof with
      | true => exact ⟨rfl, World.raises_fail _ _ (.refl _)⟩
      | false => exact ⟨rfl, Or.inr ⟨hnoIo, .refl _⟩⟩
    | panic message => exact ⟨rfl, Or.inr ⟨hnoIo, .refl _⟩⟩
    | diverge => exact ⟨rfl, Or.inr ⟨hnoIo, .refl _⟩⟩

theorem respond_spec (parsed : ParsedResponse) (eof : Bool) :
    Ensures (respond parsed eof) s
      (fun response s' => s.world.Later 0 s'.world ∧ s'.connection = s.connection ∧
        response = some (s.connection.completedResponse parsed eof s'.world.clock))
      fun _ _ => False := by
  unfold respond
  simp only [ensures_bind, ensures_get, ensures_world]
  apply World.ensures_now
  intro w' h
  exact ⟨h, rfl, rfl⟩

/-- What reading gives: nothing yet, or the response that the last bytes complete. -/
def ReadResult (s : Session) (response : Option CompletedResponse) (s' : Session) : Prop :=
  s.world.Later 0 s'.world ∧
    match response with
    | none => Reads s.connection s'.connection
    | some r => Answers s'.world.clock s.connection s'.connection r

theorem readEnd_spec (eof : Bool) :
    Ensures (readEnd eof) s (ReadResult s)
      fun e s' => Reads s.connection s'.connection ∧
        s.world.Raises (.read s.connection.hasStarted) e s'.world := by
  unfold readEnd
  simp only [ensures_bind]
  have hhear : Reads s.connection (s.connection.hear [] eof) :=
    (Reads.refl s.connection).hear (Or.inl rfl)
  apply (feedEnd_spec s eof).mono
  · rintro result s₁ ⟨hw, hc, hdecoded⟩
    cases result with
    | none => exact ⟨hw, hc ▸ hhear⟩
    | some parsed =>
      apply (respond_spec s₁ parsed eof).mono
      · rintro response s₂ ⟨hw', hc', rfl⟩
        refine ⟨hw.zero_trans hw', ?_⟩
        rw [hc] at hc'
        simp only [hc, hc']
        exact .mk (.refl _) (Or.inl rfl) hdecoded
      · intro _ _ h
        exact h.elim
  · rintro e s' ⟨hc, hraises⟩
    exact ⟨hc ▸ hhear, hraises⟩

theorem readResponse_spec :
    Ensures readResponse s (ReadResult s)
      fun e s' => (e.isIo = true → Reads s.connection s'.connection) ∧
        s.world.Raises (.read s.connection.hasStarted) e s'.world := by
  unfold readResponse
  simp only [ensures_bind, ensures_world]
  apply World.ensures_call
  intro reply w₁ h₁
  have atEnd : ∀ s₂ : Session, s.world.Later 0 s₂.world → Reads s.connection s₂.connection →
      ∀ eof, Ensures (readEnd eof) s₂ (ReadResult s)
        fun e s' => (e.isIo = true → Reads s.connection s'.connection) ∧
          s.world.Raises (.read s.connection.hasStarted) e s'.world := by
    intro s₂ h₂ hreads eof
    have hstarted : s₂.connection.hasStarted = s.connection.hasStarted :=
      congrArg (fun c => c.started.isSome) hreads.kept
    apply (readEnd_spec s₂ eof).mono
    · rintro response s₃ ⟨hw, hresult⟩
      refine ⟨h₂.zero_trans hw, ?_⟩
      cases response with
      | none => exact hreads.trans hresult
      | some r => exact hreads.answers hresult
    · rintro e s₃ ⟨hreads', hraises⟩
      rw [hstarted] at hraises
      exact ⟨fun _ => hreads.trans hreads', h₂.raises hraises⟩
  apply (readLoop_spec ⟨s.connection, w₁⟩ reply.reads).mono
  · rintro result s₂ ⟨hw, hresult⟩
    have h₂ := h₁.zero_trans hw
    cases result with
    | eof => exact atEnd s₂ h₂ hresult true
    | blocked => exact atEnd s₂ h₂ hresult false
    | response parsed =>
      obtain ⟨c, data, hc, hdecoded, hs₂⟩ := hresult
      apply (respond_spec s₂ parsed false).mono
      · rintro response s₃ ⟨hw', hc', rfl⟩
        refine ⟨h₂.zero_trans hw', ?_⟩
        simp only [hc', hs₂]
        exact .mk hc (Or.inr rfl) hdecoded
      · intro _ _ h
        exact h.elim
  · rintro e s' ⟨hreads, hraises⟩
    exact ⟨hreads, h₁.raises hraises⟩

end Methods

end Connection

end Rload
