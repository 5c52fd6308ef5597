import Rload.ControlLimits
import Rload.SafePrograms
import Rload.WorldCalls

/-!
# Calls that end by errors alone

A sound decoder has its body configured once its head is parsed, and then ends by errors of the
library alone. So do the calls to the outside, except for the draws from the sequence.
-/

namespace Rload
open StatefulPrograms

/-- The worker does not end by an error of the library. -/
def Halt.aborts (halt : Halt) : Bool := !halt.isRunError

variable {data : List UInt8} {eof : Bool}

theorem parseResponseHead_avoids_aborts (header : List UInt8) :
    Avoids Halt.aborts (parseResponseHead header) := by
  unfold parseResponseHead
  split
  · exact avoids_error rfl
  · split
    · exact avoids_error rfl
    · split
      · exact avoids_error rfl
      · exact avoids_ok _

namespace ChunkedDecoder

theorem loop_failed (fuel : ℕ) {d d' : ChunkedDecoder} {halt : Halt}
    (h : loop fuel d = .failed halt d') : halt.aborts = false := by
  induction fuel generalizing d with
  | zero => cases h
  | succ fuel ih =>
    rw [loop] at h
    cases hp : d.pass with
    | next d₁ =>
      rw [hp] at h
      exact ih h
    | wait d₁ =>
      rw [hp] at h
      cases h
    | finished d₁ =>
      rw [hp] at h
      cases h
    | failed halt₁ d₁ =>
      rw [hp] at h
      cases h
      obtain rfl | rfl | rfl := failed_cases hp
      · rfl
      · rfl
      · rfl

theorem feed_avoids_aborts (d : ChunkedDecoder) : Avoids Halt.aborts (d.feed data eof).1 := by
  unfold feed
  split
  · exact avoids_ok _
  · rename_i halt d' hfailed
    intro halt' h
    cases h
    exact loop_failed _ hfailed
  all_goals
    dsimp only
    split
    · exact avoids_error rfl
    · exact avoids_ok _

end ChunkedDecoder

theorem BodyDecoder.consume_avoids_aborts {b : BodyDecoder} (h : b ≠ .waiting) :
    Avoids Halt.aborts (b.consume data eof).1 := by
  cases b with
  | waiting => exact absurd rfl h
  | contentLength remaining total =>
    simp only [consume]
    split
    · exact avoids_ok _
    · split
      · exact avoids_error rfl
      · exact avoids_ok _
  | chunked decoder => exact decoder.feed_avoids_aborts
  | closeDelimited total => exact avoids_ok _

theorem BodyDecoder.consume_ne_waiting {b : BodyDecoder} (h : b ≠ .waiting) :
    (b.consume data eof).2 ≠ .waiting := by
  cases b with
  | waiting => exact absurd rfl h
  | _ => exact nofun

namespace ResponseDecoder

variable {d : ResponseDecoder}

/-- The body is configured when the head is parsed. -/
def Sound (d : ResponseDecoder) : Prop := d.head.isSome → d.body ≠ .waiting

theorem sound_new (noBody : Bool) : (new noBody).Sound := nofun

theorem consumeBody_avoids_aborts (hhead : d.head.isSome) (hbody : d.body ≠ .waiting) :
    Avoids Halt.aborts (d.consumeBody data eof).1 := by
  have hconsumed := @BodyDecoder.consume_avoids_aborts data eof d.body hbody
  unfold consumeBody
  dsimp only
  split
  · rename_i halt hresult
    intro halt' h
    cases h
    exact hconsumed halt hresult
  · exact avoids_ok _
  · split
    · rename_i hnone
      rw [hnone] at hhead
      cases hhead
    · exact avoids_ok _

theorem consumeBody_sound (hbody : d.body ≠ .waiting) : (d.consumeBody data eof).2.Sound := by
  have hafter := @BodyDecoder.consume_ne_waiting data eof d.body hbody
  unfold consumeBody
  dsimp only
  split
  · exact fun _ => hafter
  · exact fun _ => hafter
  · split
    · exact fun _ => hafter
    · exact fun _ => hafter

theorem bodyOf_ne_waiting (noBody : Bool) (framing : BodyFraming) :
    bodyOf noBody framing ≠ .waiting := by
  unfold bodyOf
  split
  · exact nofun
  · split
    · exact nofun
    · exact nofun
    · exact nofun

theorem Sound.feed (h : d.Sound) (data : List UInt8) (eof : Bool) :
    Avoids Halt.aborts (d.feed data eof).1 ∧ (d.feed data eof).2.Sound := by
  unfold ResponseDecoder.feed
  split
  · rename_i hhead
    exact ⟨consumeBody_avoids_aborts hhead (h hhead), consumeBody_sound (h hhead)⟩
  · rename_i hhead
    have hnone : ∀ {d' : ResponseDecoder}, d'.head = d.head → d'.Sound := by
      intro d' hsame hsome
      exact absurd (hsame ▸ hsome) hhead
    dsimp only
    split
    · refine ⟨?_, hnone rfl⟩
      dsimp only
      split
      · exact avoids_error rfl
      · split
        · exact avoids_error rfl
        · exact avoids_ok _
    · split
      · exact ⟨avoids_error rfl, hnone rfl⟩
      · split
        · rename_i halt hparse
          refine ⟨fun halt' h => ?_, hnone rfl⟩
          cases h
          exact parseResponseHead_avoids_aborts _ _ hparse
        · exact ⟨consumeBody_avoids_aborts rfl (bodyOf_ne_waiting _ _),
            consumeBody_sound (bodyOf_ne_waiting _ _)⟩

end ResponseDecoder

/-- The range of a text in the bytes of a request. -/
def IsText (request : List UInt8) (uri : ℕ × ℕ) : Prop :=
  uri.1 ≤ uri.2 ∧ uri.2 ≤ request.length ∧
    (TextScanning.decodeUtf8 ((request.drop uri.1).take (uri.2 - uri.1))).isSome

/-- An error of the library, or a halt that is allowed. -/
def Halt.Expected (allowed : Halt → Prop) (halt : Halt) : Prop :=
  halt.aborts = false ∨ allowed halt

/-- Each draw that may follow gives a request with its URI, or a halt that is allowed. -/
def RequestSequence.Sound (allowed : Halt → Prop) (s : RequestSequence) : Prop :=
  ∀ s', s.Reaches s' → ∀ now,
    (∀ drawn s'', s'.next now = .ok (drawn, s'') → IsText drawn.request drawn.uri) ∧
      ∀ halt, s'.next now = .error halt → allowed halt

theorem RequestSequence.Sound.reaches {allowed : Halt → Prop} {s s' : RequestSequence}
    (h : s.Sound allowed) (hreach : s.Reaches s') : s'.Sound allowed :=
  fun s'' hreach' => h s'' (hreach.trans hreach')

section Safety

variable (allowed : Halt → Prop) {α : Type} {Q : α → Prop}

abbrev SafeWorld (m : WorldM α) (Q : α → Prop) : Prop :=
  Safe (fun w : World => w.sequence.Sound allowed) (Halt.Expected allowed) m Q

namespace World

theorem call_safe : SafeWorld allowed call fun _ => True := fun _ hw => ⟨⟨⟩, hw⟩

theorem now_safe : SafeWorld allowed now fun _ => True := fun _ hw => ⟨⟨⟩, hw⟩

theorem sleep_safe (nanos : ℕ) : SafeWorld allowed (sleep nanos) fun _ => True :=
  fun _ hw => ⟨⟨⟩, hw⟩

theorem raise_safe (e : RunError) : SafeWorld allowed (raise e) Q := .throw (Or.inl rfl)

theorem note_safe (failure : Failure) :
    SafeWorld allowed (modify (·.note failure)) fun _ => True := fun _ hw => ⟨⟨⟩, hw⟩

theorem fail_safe (operation : Operation) (error : IoError) :
    SafeWorld allowed (fail operation error) Q :=
  (note_safe allowed _).bind fun _ _ => raise_safe allowed _

theorem service_safe : SafeWorld allowed service fun _ => True := by
  refine (call_safe allowed).bind fun reply _ => ?_
  split
  · exact fail_safe allowed _ _
  · exact .pure ⟨⟩

theorem askRegistry_safe (call : RegistryCall) (registered : Bool) :
    SafeWorld allowed (askRegistry call registered) fun _ => True := by
  refine Safe.bind (Q := fun _ => True) ?_ fun _ _ => service_safe allowed
  exact fun _ hw => ⟨⟨⟩, hw⟩

/-- A draw gives a request with its URI. -/
theorem drawRequest_safe :
    SafeWorld allowed drawRequest fun drawn => IsText drawn.request drawn.uri := by
  intro w hw
  unfold drawRequest
  simp only [ensures_bind, ensures_get]
  apply ensures_now
  intro w₁ hlater
  rw [← hlater.sequence_eq] at hw
  obtain ⟨hdrawn, hhalt⟩ := hw w₁.sequence .refl w₁.clock
  cases hnext : w₁.sequence.next w₁.clock with
  | error halt => exact ⟨Or.inr (hhalt halt hnext), hw⟩
  | ok result =>
    obtain ⟨drawn, s⟩ := result
    exact ⟨hdrawn drawn s hnext, hw.reaches (.single ⟨_, drawn, hnext⟩)⟩

end World

open World

theorem connectAny_safe (operation : Operation) (addresses : List (SocketAddr × ℕ))
    (lastError : Option IoError) :
    SafeWorld allowed (connectAny operation addresses lastError) fun _ => True := by
  induction addresses generalizing lastError with
  | nil => exact fail_safe allowed _ _
  | cons address addresses ih =>
    refine (call_safe allowed).bind fun reply _ => ?_
    split
    · exact .pure ⟨⟩
    · exact ih _

theorem connectFrom_safe (operation : Operation) (addresses : List SocketAddr) (start : ℕ) :
    SafeWorld allowed (connectFrom operation addresses start) fun _ => True :=
  connectAny_safe allowed operation _ none

namespace Transport

theorem new_safe (initial tls : Bool) :
    SafeWorld allowed (Transport.new initial tls) fun _ => True := by
  refine .ite (fun _ => (call_safe allowed).bind fun reply _ => ?_) fun _ => .pure ⟨⟩
  split
  · exact (note_safe allowed _).bind fun _ _ => raise_safe allowed _
  · exact .pure ⟨⟩

theorem isTlsHandshaking_safe (t : Transport) :
    SafeWorld allowed t.isTlsHandshaking fun _ => True :=
  .ite (fun _ => (call_safe allowed).bind fun _ _ => .pure ⟨⟩) fun _ => .pure ⟨⟩

theorem wantsWrite_safe : SafeWorld allowed wantsWrite fun _ => True :=
  (call_safe allowed).bind fun _ _ => .pure ⟨⟩

theorem finishHandshake_safe (t : Transport) (operation : Operation) :
    SafeWorld allowed (t.finishHandshake operation) fun _ => True := by
  refine (isTlsHandshaking_safe allowed t).bind fun handshaking _ =>
    .ite (fun _ => (call_safe allowed).bind fun reply _ => ?_) fun _ => .pure ⟨⟩
  split
  · exact (isTlsHandshaking_safe allowed t).bind fun _ _ => .pure ⟨⟩
  · refine .ite (fun _ => ?_) fun _ => .ite (fun _ => raise_safe allowed _)
      fun _ => fail_safe allowed _ _
    exact (isTlsHandshaking_safe allowed t).bind fun _ _ => .pure ⟨⟩

theorem flushTls_safe (t : Transport) (operation : Operation) :
    SafeWorld allowed (t.flushTls operation) fun _ => True := by
  refine .ite (fun _ => (wantsWrite_safe allowed).bind fun wants _ =>
    .ite (fun _ => (call_safe allowed).bind fun reply _ => ?_) fun _ => .pure ⟨⟩)
    fun _ => .pure ⟨⟩
  split
  · exact .pure ⟨⟩
  · exact .ite (fun _ => .pure ⟨⟩) fun _ => fail_safe allowed _ _

theorem interest_safe (t : Transport) (requestWritten requestReady : Bool) :
    SafeWorld allowed (t.interest requestWritten requestReady) fun _ => True :=
  .ite (fun _ => (wantsWrite_safe allowed).bind fun _ _ => .ite (fun _ => .pure ⟨⟩)
    fun _ => (isTlsHandshaking_safe allowed t).bind fun _ _ => .pure ⟨⟩) fun _ => .pure ⟨⟩

end Transport

end Safety

end Rload
