import Rload.Connection
import Mathlib.Algebra.Group.Pi.Lemmas
import Mathlib.Logic.Relation

/-!
# What calls to the outside can do

Time passes, the request sequence stays as it is, and failures are recorded. An I/O error
is fatal at an operation whose caller has no other use for it than to end the worker.
-/

namespace Rload
open StatefulPrograms

variable {α : Type}

/-- The counters that failures raise: the socket errors of a summary and its recovery
attempts. -/
inductive Counter where
  | connect | read | write | timeout | attempts
  deriving DecidableEq, Repr

theorem Counter.connect_ne_timeout : connect ≠ timeout := by decide

theorem Counter.read_ne_timeout : read ≠ timeout := by decide

theorem Counter.write_ne_timeout : write ≠ timeout := by decide

abbrev FailureCounts := Counter → ℕ

namespace Failure

def fatal (f : Failure) : Bool :=
  match f.operation with
  | .service | .reconnect | .writeNext | .resumeAtPace => true
  | .retryAddress deadline | .recoverRequest deadline => deadline
  | _ => false

/-- The counter that the code raises. A read before the connect has come through is no failure,
and an attempt to recover counts as an attempt only. -/
def counter (f : Failure) : Option Counter :=
  match f.operation with
  | .service | .handshake => none
  | .session initial => if initial then some .connect else none
  | .connect | .reconnect | .resumeAtPace | .writableSocket _ _ => some .connect
  | .retryAddress deadline | .recoverRequest deadline =>
    some (if deadline then .connect else .attempts)
  | .write started => some (if started then .write else .connect)
  | .writeNext => some .write
  | .read started =>
    if started then some .read
    else if f.error.kind = .notConnected then none
    else some .connect
  | .socket started written =>
    some (if started then if written then .read else .write else .connect)
  | .expiry started => some (if started then .timeout else .connect)

def cost (f : Failure) : FailureCounts :=
  match f.counter with
  | none => 0
  | some counter => Pi.single counter 1

end Failure

/-- The sequence after some draws, at any times. -/
def RequestSequence.Reaches : RequestSequence → RequestSequence → Prop :=
  Relation.ReflTransGen fun s s' => ∃ time drawn, s.next time = .ok (drawn, s')

namespace World

def hasFatal (w : World) : Bool := w.failures.any Failure.fatal

/-- How many failures are for each counter. -/
def counts (w : World) : FailureCounts := fun counter =>
  w.failures.countP (·.counter = some counter)

@[simp] theorem hasFatal_note (w : World) (f : Failure) :
    (w.note f).hasFatal = (f.fatal || w.hasFatal) := rfl

theorem counts_note (w : World) (f : Failure) : (w.note f).counts = w.counts + f.cost := by
  funext counter
  simp only [counts, note, List.countP_cons, Pi.add_apply, Failure.cost]
  cases f.counter with
  | none => rfl
  | some counter' =>
    by_cases h : counter' = counter
    · subst h
      simp
    · simp [h]

/-- The world after calls that met failures for the counters, none of them fatal. -/
structure Later (n : FailureCounts) (w w' : World) : Prop where
  clock_le : w.clock ≤ w'.clock
  sequence_eq : w'.sequence = w.sequence
  fatal_eq : w'.hasFatal = w.hasFatal
  count_eq : w'.counts = w.counts + n

theorem Later.refl (w : World) : Later 0 w w := ⟨le_rfl, rfl, rfl, rfl⟩

theorem Later.trans {n m : FailureCounts} {w w' w'' : World} (h : Later n w w')
    (h' : Later m w' w'') :
    Later (n + m) w w'' where
  clock_le := h.clock_le.trans h'.clock_le
  sequence_eq := h'.sequence_eq.trans h.sequence_eq
  fatal_eq := h'.fatal_eq.trans h.fatal_eq
  count_eq := by rw [h'.count_eq, h.count_eq, add_assoc]

theorem Later.zero_trans {n : FailureCounts} {w w' w'' : World} (h : Later 0 w w')
    (h' : Later n w' w'') :
    Later n w w'' := by
  have := h.trans h'
  rwa [zero_add] at this

theorem Later.no_attempts {w w' : World} (h : Later 0 w w') :
    Later (Pi.single .attempts 0) w w' := by
  rwa [Pi.single_zero]

theorem later_note {w : World} {f : Failure} (h : f.fatal = false) :
    Later f.cost w (w.note f) where
  clock_le := le_rfl
  sequence_eq := rfl
  fatal_eq := by rw [hasFatal_note, h, Bool.false_or]
  count_eq := counts_note w f

theorem later_note_counted {w : World} {f : Failure} {counter : Counter} (h : f.fatal = false)
    (hcounter : f.counter = some counter) : Later (Pi.single counter 1) w (w.note f) := by
  have hlater := later_note (w := w) h
  rwa [Failure.cost, hcounter] at hlater

/-- An error of an operation: an I/O error that it records, or an error of another kind. -/
def Raises (operation : Operation) (e : Halt) (w w' : World) : Prop :=
  (∃ error w₁, e = .error (.io error) ∧ Later 0 w w₁ ∧ w' = w₁.note ⟨operation, error⟩) ∨
    e.isIo = false ∧ Later 0 w w'

theorem Later.raises {operation : Operation} {e : Halt} {w w' w'' : World} (h : Later 0 w w')
    (h' : Raises operation e w' w'') : Raises operation e w w'' := by
  rcases h' with ⟨error, w₁, he, hw, hn⟩ | ⟨he, hw⟩
  · exact Or.inl ⟨error, w₁, he, h.zero_trans hw, hn⟩
  · exact Or.inr ⟨he, h.zero_trans hw⟩

theorem Raises.clock_le {operation : Operation} {e : Halt} {w w' : World}
    (h : Raises operation e w w') : w.clock ≤ w'.clock := by
  rcases h with ⟨error, w₁, -, hw, rfl⟩ | ⟨-, hw⟩
  · exact hw.clock_le
  · exact hw.clock_le

/-- An error that ends the worker: it is an I/O error if and only if the worker has met a
fatal failure. Requests may have been drawn before. -/
structure Ends (e : Halt) (w w' : World) : Prop where
  clock_le : w.clock ≤ w'.clock
  fatal_eq : w'.hasFatal = (w.hasFatal || e.isIo)
  reach : w.sequence.Reaches w'.sequence

theorem Later.ends {n : FailureCounts} {e : Halt} {w w' w'' : World} (h : Later n w w')
    (h' : Ends e w' w'') :
    Ends e w w'' where
  clock_le := h.clock_le.trans h'.clock_le
  fatal_eq := by rw [h'.fatal_eq, h.fatal_eq]
  reach := h.sequence_eq ▸ h'.reach

theorem Later.ends_of_not_io {n : FailureCounts} {e : Halt} {w w' : World} (h : Later n w w')
    (he : e.isIo = false) : Ends e w w' where
  clock_le := h.clock_le
  fatal_eq := by rw [h.fatal_eq, he, Bool.or_false]
  reach := h.sequence_eq ▸ .refl

theorem Raises.ends {operation : Operation} {e : Halt} {w w' : World}
    (h : Raises operation e w w') (hf : ∀ error, Failure.fatal ⟨operation, error⟩ = true) :
    Ends e w w' := by
  rcases h with ⟨error, w₁, rfl, hw, rfl⟩ | ⟨he, hw⟩
  · refine ⟨hw.clock_le, ?_, hw.sequence_eq ▸ .refl⟩
    rw [hasFatal_note, hf, Bool.true_or]
    exact (Bool.or_true _).symm
  · exact hw.ends_of_not_io he

/-- The world after a request was drawn. -/
structure Draws (drawn : Drawn) (w w' : World) : Prop where
  clock_le : w.clock ≤ w'.clock
  fatal_eq : w'.hasFatal = w.hasFatal
  count_eq : w'.counts = w.counts
  next_eq : ∃ time, w.clock ≤ time ∧ time ≤ w'.clock ∧
    w.sequence.next time = .ok (drawn, w'.sequence)

theorem Draws.later {drawn : Drawn} {w w' w'' : World} (h : Draws drawn w w')
    (h' : Later 0 w' w'') : Draws drawn w w'' where
  clock_le := h.clock_le.trans h'.clock_le
  fatal_eq := h'.fatal_eq.trans h.fatal_eq
  count_eq := h'.count_eq.trans h.count_eq
  next_eq := by
    obtain ⟨time, hfrom, hto, hnext⟩ := h.next_eq
    exact ⟨time, hfrom, hto.trans h'.clock_le, h'.sequence_eq ▸ hnext⟩

theorem Later.draws {drawn : Drawn} {w w' w'' : World} (h : Later 0 w w')
    (h' : Draws drawn w' w'') : Draws drawn w w'' where
  clock_le := h.clock_le.trans h'.clock_le
  fatal_eq := h'.fatal_eq.trans h.fatal_eq
  count_eq := h'.count_eq.trans h.count_eq
  next_eq := by
    obtain ⟨time, hfrom, hto, hnext⟩ := h'.next_eq
    exact ⟨time, h.clock_le.trans hfrom, hto, h.sequence_eq ▸ hnext⟩

theorem Draws.reach {drawn : Drawn} {w w' : World} (h : Draws drawn w w') :
    w.sequence.Reaches w'.sequence := by
  obtain ⟨time, -, -, hnext⟩ := h.next_eq
  exact .single ⟨time, drawn, hnext⟩

theorem Draws.ends {drawn : Drawn} {e : Halt} {w w' w'' : World} (h : Draws drawn w w')
    (h' : Ends e w' w'') : Ends e w w'' where
  clock_le := h.clock_le.trans h'.clock_le
  fatal_eq := by rw [h'.fatal_eq, h.fatal_eq]
  reach := h.reach.trans h'.reach

section Calls

variable {w : World} {E : Halt → World → Prop}

theorem later_advance (w : World) : Later 0 w w.advance :=
  ⟨Nat.le_add_right _ _, rfl, rfl, rfl⟩

theorem ensures_call {Q : Reply → World → Prop} (h : ∀ r w', Later 0 w w' → Q r w') :
    Ensures call w Q E := by
  exact h _ _ (later_advance w)

theorem ensures_now {Q : ℕ → World → Prop}
    (h : ∀ w', Later 0 w w' → Q w'.clock w') : Ensures now w Q E :=
  h _ (later_advance w)

theorem ensures_sleep {nanos : ℕ} {Q : Unit → World → Prop}
    (h : ∀ w', Later 0 w w' → Q ⟨⟩ w') : Ensures (sleep nanos) w Q E := by
  apply h
  refine ⟨?_, rfl, rfl, rfl⟩
  exact (later_advance w).clock_le.trans (Nat.le_add_right _ _)

theorem raises_fail (operation : Operation) (error : IoError) {w w' : World}
    (h : Later 0 w w') :
    Raises operation (.error (.io error)) w (w'.note ⟨operation, error⟩) :=
  Or.inl ⟨error, w', rfl, h, rfl⟩

theorem raises_raise (operation : Operation) {e : RunError} {w w' : World} (h : Later 0 w w')
    (he : ∀ error, e ≠ .io error) : Raises operation (.error e) w w' := by
  apply Or.inr
  refine ⟨?_, h⟩
  cases e with
  | io error => exact absurd rfl (he error)
  | _ => rfl

theorem service_spec (w : World) :
    Ensures service w (fun _ w' => Later 0 w w') fun e w' => Raises .service e w w' := by
  unfold service
  simp only [ensures_bind]
  apply ensures_call
  intro r w' h
  cases r.fault with
  | some error => exact raises_fail _ _ h
  | none => exact h

theorem later_noteRegistration (w : World) (registration : Registration) :
    Later 0 w (w.noteRegistration registration) := ⟨le_rfl, rfl, rfl, (add_zero _).symm⟩

theorem askRegistry_spec (call : RegistryCall) (registered : Bool) (w : World) :
    Ensures (askRegistry call registered) w (fun _ w' => Later 0 w w')
      fun e w' => Raises .service e w w' := by
  have hnoted := later_noteRegistration w ⟨call, registered⟩
  apply (service_spec (w.noteRegistration ⟨call, registered⟩)).mono
  · intro _ w' h
    exact hnoted.zero_trans h
  · intro e w' h
    exact hnoted.raises h

theorem drawRequest_spec (w : World) :
    Ensures drawRequest w (fun drawn w' => Draws drawn w w')
      fun e w' => e.isRunError = false ∧ Later 0 w w' := by
  unfold drawRequest
  simp only [ensures_bind, ensures_get]
  apply ensures_now
  intro w₁ h
  cases hn : w₁.sequence.next w₁.clock with
  | error halt => exact ⟨RequestSequence.next_avoids _ _ halt hn, h⟩
  | ok r =>
    refine ⟨h.clock_le, h.fatal_eq, h.count_eq, w₁.clock, h.clock_le, le_rfl, ?_⟩
    rw [← h.sequence_eq]
    exact hn

end Calls

end World

theorem connectAny_spec (operation : Operation) (addresses : List (SocketAddr × ℕ))
    (lastError : Option IoError) (w : World) :
    Ensures (connectAny operation addresses lastError) w (fun _ w' => w.Later 0 w')
      fun e w' => ∃ error w₁, e = .error (.io error) ∧ w.Later 0 w₁ ∧
        w' = w₁.note ⟨operation, error⟩ := by
  induction addresses generalizing lastError w with
  | nil => exact ⟨_, w, rfl, .refl w, rfl⟩
  | cons address addresses ih =>
    simp only [connectAny, ensures_bind]
    apply World.ensures_call
    intro r w' h
    cases r.fault with
    | none => exact h
    | some error =>
      apply (ih (some error) w').mono
      · intro _ w'' h'
        exact h.zero_trans h'
      · rintro e w'' ⟨error, w₁, he, hw, hn⟩
        exact ⟨error, w₁, he, h.zero_trans hw, hn⟩

theorem connectFrom_spec (operation : Operation) (addresses : List SocketAddr) (start : ℕ)
    (w : World) :
    Ensures (connectFrom operation addresses start) w (fun _ w' => w.Later 0 w')
      fun e w' => ∃ error w₁, e = .error (.io error) ∧ w.Later 0 w₁ ∧
        w' = w₁.note ⟨operation, error⟩ :=
  connectAny_spec operation _ none w

namespace Transport

theorem new_spec (initial tls : Bool) (w : World) :
    Ensures (Transport.new initial tls) w
      (fun t w' => t = ⟨tls, none⟩ ∧ w.Later 0 w')
      fun e w' => e.isRunError ∧ e.isIo = false ∧
        w.Later (if initial then Pi.single .connect 1 else 0) w' := by
  unfold Transport.new
  cases tls with
  | false => exact ⟨rfl, .refl w⟩
  | true =>
    simp only [if_true, ensures_bind]
    apply World.ensures_call
    intro r w' h
    cases r.fault with
    | some error =>
      have hnoted := h.zero_trans (World.later_note (w := w') (f := ⟨.session initial, error⟩) rfl)
      cases initial with
      | false => exact ⟨rfl, rfl, hnoted⟩
      | true => exact ⟨rfl, rfl, hnoted⟩
    | none => exact ⟨rfl, h⟩

theorem isTlsHandshaking_spec (t : Transport) (w : World) :
    Ensures t.isTlsHandshaking w (fun b w' => w.Later 0 w' ∧ (b → t.tls)) fun _ _ => False := by
  unfold isTlsHandshaking
  simp only [ensures_ite, ensures_bind]
  constructor
  · intro ht
    apply World.ensures_call
    intro r w' h
    exact ⟨h, fun _ => ht⟩
  · intro _
    exact ⟨.refl w, by simp⟩

theorem wantsWrite_spec (w : World) :
    Ensures wantsWrite w (fun _ w' => w.Later 0 w') fun _ _ => False := by
  unfold wantsWrite
  simp only [ensures_bind]
  apply World.ensures_call
  intro r w' h
  exact h

theorem finishHandshake_spec (t : Transport) (operation : Operation) (w : World) :
    Ensures (t.finishHandshake operation) w (fun _ w' => w.Later 0 w')
      fun e w' => w.Raises operation e w' := by
  have again : ∀ w₂, w.Later 0 w₂ →
      Ensures t.isTlsHandshaking w₂ (fun _ w' => w.Later 0 w')
        fun e w' => w.Raises operation e w' := by
    intro w₂ h₂
    apply (t.isTlsHandshaking_spec w₂).mono
    · intro _ w' h
      exact h₂.zero_trans h.1
    · intro _ _ h
      exact h.elim
  unfold finishHandshake
  simp only [ensures_bind]
  apply (t.isTlsHandshaking_spec w).mono
  · rintro b w₁ ⟨h₁, -⟩
    simp only [ensures_ite, ensures_bind]
    constructor
    · intro _
      apply World.ensures_call
      intro r w₂ h₂
      have h₂ := h₁.zero_trans h₂
      cases r.fault with
      | none =>
        simp only [ensures_bind, ensures_pure]
        exact again w₂ h₂
      | some error =>
        simp only [ensures_ite, ensures_bind, ensures_pure]
        refine ⟨fun _ => again w₂ h₂, fun _ => ⟨fun _ => ?_, fun _ => ?_⟩⟩
        · exact World.raises_raise _ h₂ (by simp)
        · exact World.raises_fail _ _ h₂
    · intro _
      exact h₁
  · intro _ _ h
    exact h.elim

theorem flushTls_spec (t : Transport) (operation : Operation) (w : World) :
    Ensures (t.flushTls operation) w (fun _ w' => w.Later 0 w')
      fun e w' => w.Raises operation e w' := by
  unfold flushTls
  simp only [ensures_ite, ensures_bind]
  constructor
  · intro _
    apply (wantsWrite_spec w).mono
    · intro b w₁ h₁
      refine ⟨fun _ => ?_, fun _ => h₁⟩
      apply World.ensures_call
      intro r w₂ h₂
      have h₂ := h₁.zero_trans h₂
      cases r.fault with
      | none => exact h₂
      | some error =>
        simp only [ensures_ite]
        exact ⟨fun _ => h₂, fun _ => World.raises_fail _ _ h₂⟩
    · intro _ _ h
      exact h.elim
  · intro _
    exact .refl w

theorem interest_spec (t : Transport) (requestWritten requestReady : Bool) (w : World) :
    Ensures (t.interest requestWritten requestReady) w (fun _ w' => w.Later 0 w')
      fun _ _ => False := by
  unfold interest
  simp only [ensures_ite, ensures_bind]
  constructor
  · intro _
    apply (wantsWrite_spec w).mono
    · intro b w₁ h₁
      refine ⟨fun _ => h₁, fun _ => ?_⟩
      apply (t.isTlsHandshaking_spec w₁).mono
      · intro _ w₂ h₂
        exact h₁.zero_trans h₂.1
      · intro _ _ h
        exact h
    · intro _ _ h
      exact h
  · intro _
    exact .refl w

end Transport

theorem ConnectionLimit.shouldContinue_spec (limit : ConnectionLimit) (completed : ℕ) (w : World) :
    Ensures (limit.shouldContinue completed) w
      (fun b w' => w.Later 0 w' ∧
        (∀ count, limit = .requests count → b = decide (completed < count)))
      fun _ _ => False := by
  cases limit with
  | requests count =>
    refine ⟨.refl w, ?_⟩
    intro count' h
    cases h
    rfl
  | deadline time =>
    simp only [ConnectionLimit.shouldContinue, ensures_bind]
    apply World.ensures_now
    intro w' h
    exact ⟨h, by simp⟩

end Rload
