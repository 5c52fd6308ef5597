import Rload.ConnectionOutcomes
import Rload.EventHandling
import Mathlib.Logic.Relation

/-!
# What handling an event or a timer can do

The desk after a handler, as one of a few turns: nothing that ends a request, a failure that
the connection comes back from or gives up at, an answer, a stop. What is shown for every
turn holds for every handler.
-/

namespace Rload
open StatefulPrograms Connection

namespace World

/-- No fatal failure happens between two worlds. -/
structure Steady (w w' : World) : Prop where
  clock_le : w.clock ≤ w'.clock
  fatal_eq : w'.hasFatal = w.hasFatal
  reach : w.sequence.Reaches w'.sequence

theorem Steady.refl (w : World) : Steady w w := ⟨le_rfl, rfl, .refl⟩

theorem Steady.trans {w w' w'' : World} (h : Steady w w') (h' : Steady w' w'') :
    Steady w w'' :=
  ⟨h.clock_le.trans h'.clock_le, h'.fatal_eq.trans h.fatal_eq, h.reach.trans h'.reach⟩

theorem Later.steady {n : FailureCounts} {w w' : World} (h : Later n w w') : Steady w w' :=
  ⟨h.clock_le, h.fatal_eq, h.sequence_eq ▸ .refl⟩

theorem Draws.steady {drawn : Drawn} {w w' : World} (h : Draws drawn w w') : Steady w w' :=
  ⟨h.clock_le, h.fatal_eq, h.reach⟩

theorem Steady.ends {e : Halt} {w w' w'' : World} (h : Steady w w') (h' : Ends e w' w'') :
    Ends e w w'' where
  clock_le := h.clock_le.trans h'.clock_le
  fatal_eq := by rw [h'.fatal_eq, h.fatal_eq]
  reach := h.reach.trans h'.reach

end World

/-- The counters of the socket errors. -/
def SocketErrors.counts (e : SocketErrors) : FailureCounts
  | .connect => e.connect
  | .read => e.read
  | .write => e.write
  | .timeout => e.timeout
  | .attempts => 0

variable {α : Type}

theorem ensures_session {m : ConnectionM α} {d : Desk} {Q : α → Desk → Prop}
    {E : Halt → Desk → Prop} :
    Ensures (liftM m : DeskM α) d Q E ↔
      Ensures m d.session (fun a s => Q a (d.withSession s)) fun e s => E e (d.withSession s) :=
  ensures_zoom

theorem ensures_desk_world {m : WorldM α} {d : Desk} {Q : α → Desk → Prop}
    {E : Halt → Desk → Prop} :
    Ensures (liftM m : DeskM α) d Q E ↔
      Ensures m d.world (fun a w => Q a { d with world := w }) fun e w =>
        E e { d with world := w } :=
  Iff.trans ensures_session ensures_world

namespace Desk

theorem ensures_getConnection {d : Desk} {Q : Connection → Desk → Prop} {E : Halt → Desk → Prop} :
    Ensures getConnection d Q E ↔ Q d.connection d := Iff.rfl

def moved (c : Connection) (w : World) (d : Desk) : Desk := { d with connection := c, world := w }

/-- `recovery_attempts` of the connection go to the summary. -/
def countedAttempts (d : Desk) : Desk :=
  (d.moved d.connection.clearRecoveryAttempts d.world).counted fun s =>
    { s with recoveryAttempts := s.recoveryAttempts + d.connection.pendingRecoveryAttempts }

def countedBytes (d : Desk) : Desk :=
  (d.moved d.connection.clearReadBytes d.world).counted fun s =>
    { s with readBytes := s.readBytes + d.connection.pendingReadBytes }

/-- What happens on the current transport before it is decided what to do: reads and writes,
and `n` failures. -/
inductive Touches (d : Desk) : FailureCounts → Desk → Prop
  | refl : Touches d 0 d
  | exchange {d₁ : Desk} {n m : FailureCounts} {c : Connection} {w : World} (h : Touches d n d₁)
      (hx : Exchange d₁.world.clock w.clock d₁.connection c) (hw : d₁.world.Later m w) :
      Touches d (n + m) (d₁.moved c w)
  | read {d₁ : Desk} {n m : FailureCounts} {c : Connection} {w : World} (h : Touches d n d₁)
      (hr : Reads d₁.connection c) (hw : d₁.world.Later m w) :
      Touches d (n + m) (d₁.moved c w).countedBytes

/-- The counter goes up by one. -/
def AddsOne (counter : Counter) (f : SocketErrors → SocketErrors) : Prop :=
  ∀ e, (f e).counts = e.counts + Pi.single counter 1

variable (token timeout : ℕ)

/-- How a failure or the end of a run is dealt with: the connection comes back and its timers
are set anew, or it leaves. The failure is for a counter that is `allowed`. -/
inductive Settles (allowed : Counter → Prop) (d : Desk) : Desk → Prop
  | cameBack {d₁ : Desk} {c : Connection} {w : World} {k : ℕ} {counter : Counter}
      {f : SocketErrors → SocketErrors} {assign : Connection → Connection}
      (h : Touches d (Pi.single counter 1) d₁) (hallowed : allowed counter) (hf : AddsOne counter f)
      (hassign : assign = toRetry ∨ assign = toRecover)
      (hback : ComesBack assign k d₁.world d₁.connection c w)
      (hw : d₁.world.Later (Pi.single .attempts k) w) :
      Settles allowed d (((d₁.moved c w).countedAttempts.countedError f).scheduled token timeout)
  | gaveUp {d₁ : Desk} {c : Connection} {w : World} {k : ℕ} {counter : Counter}
      {f : SocketErrors → SocketErrors} (h : Touches d (Pi.single counter 1) d₁)
      (hallowed : allowed counter) (hf : AddsOne counter f) (hup : GivesUp k d₁.connection c)
      (hw : d₁.world.Later (Pi.single .attempts k) w) :
      Settles allowed d ((d₁.moved c w).countedAttempts.countedError f).abandoned
  | ranOut {d₁ : Desk} {w : World} {counter : Counter} {f : SocketErrors → SocketErrors}
      {time : ℕ} (h : Touches d (Pi.single counter 1) d₁) (hallowed : allowed counter)
      (hf : AddsOne counter f) (hlimit : d₁.connection.limit = .deadline time)
      (hw : d₁.world.Later 0 w) :
      Settles allowed d
        (((d₁.countedAttempts.moved ((finish d₁.connection.clearRecoveryAttempts).watch none)
          w).countedError f).left)
  | stopped {d₁ : Desk} {c : Connection} {w : World} (h : Touches d 0 d₁)
      (hstop : Stops d₁.connection c) (hw : d₁.world.Later 0 w) :
      Settles allowed d (d₁.moved c w).left

inductive Turn (d : Desk) : Desk → Prop
  | rested {d₁ : Desk} (h : Touches d 0 d₁)
      (hgen : d₁.connection.timerGeneration = d.connection.timerGeneration) : Turn d d₁
  | begun {d₁ : Desk} (h : Touches d 0 d₁) : Turn d (d₁.scheduled token timeout)
  | deferred {d₁ : Desk} {w : World} {f : SocketErrors → SocketErrors}
      (h : Touches d (Pi.single .connect 1) d₁) (hf : AddsOne .connect f)
      (hstarted : d₁.connection.started = none)
      (hpace : d₁.connection.notBefore.isSome) (hw : d₁.world.Later 0 w) :
      Turn d (((d₁.moved (d₁.connection.watch none).defer w).countedError f).pacingScheduled token)
  | settled {d' : Desk} (h : Settles token timeout (· ≠ .timeout) d d') : Turn d d'
  | answeredLast {c₁ : Connection} {w₁ w : World} {response : CompletedResponse} {uri : Uri}
      (hanswer : Answers w₁.clock d.connection c₁ response) (hw₁ : d.world.Later 0 w₁)
      (huri : recordedUri response = some uri) (hw : w₁.Later 0 w)
      (hlast : ∀ count, d.connection.limit = .requests count → count ≤ d.connection.completed + 1) :
      Turn d ((((d.moved c₁ w₁).countedBytes.counted (countResponse response uri)).moved
        ((finish (complete c₁.clearReadBytes)).watch none) w).left)
  | answeredNext {c₁ c : Connection} {w₁ w : World} {response : CompletedResponse} {uri : Uri}
      {drawn : Drawn}
      (hanswer : Answers w₁.clock d.connection c₁ response) (hw₁ : d.world.Later 0 w₁)
      (huri : recordedUri response = some uri) (hw : w₁.Draws drawn w)
      (hon : GoesOn drawn w₁ c₁.clearReadBytes c w)
      (hmore : ∀ count, d.connection.limit = .requests count → d.connection.completed + 1 < count) :
      Turn d ((((d.moved c₁ w₁).countedBytes.counted (countResponse response uri)).moved
        c w).scheduled token timeout)
  | resumed {c : Connection} {w : World} (hre : d.connection.reconnectAtPace)
      (hopen : Reopens toResume d.world d.connection c w)
      (hw : d.world.Later 0 w) : Turn d (d.moved c w)

variable {token timeout} {allowed : Counter → Prop} {d d₁ d' : Desk} {n : FailureCounts}

theorem Touches.later (h : Touches d n d₁) : d.world.Later n d₁.world := by
  induction h with
  | refl => exact .refl _
  | exchange _ hx hw ih => exact ih.trans hw
  | read _ hr hw ih => exact ih.trans hw

theorem Touches.cast {m : FailureCounts} (h : Touches d n d₁) (hn : n = m) : Touches d m d₁ :=
  hn ▸ h

theorem Touches.exchanged {c : Connection} {w : World} (h : Touches d n d₁)
    (hx : Exchange d₁.world.clock w.clock d₁.connection c) (hw : d₁.world.Later 0 w) :
    Touches d n (d₁.moved c w) := h.exchange hx hw

/-- What a connection keeps while bytes are read and written. -/
theorem Touches.kept (h : Touches d n d₁) :
    d₁.connection.frame = d.connection.frame := by
  induction h with
  | refl => rfl
  | exchange _ hx hw ih => exact hx.kept.trans ih
  | read _ hr hw ih => exact (frame_of_readFrame hr.kept).trans ih

theorem Touches.done_eq (h : Touches d n d₁) : d₁.connection.done = d.connection.done :=
  congrArg (·.done) h.kept

theorem Settles.steady (h : Settles token timeout allowed d d') : d.world.Steady d'.world := by
  cases h with
  | cameBack h hallowed hf hassign hback hw => exact h.later.steady.trans hw.steady
  | gaveUp h hallowed hf hup hw => exact h.later.steady.trans hw.steady
  | ranOut h hallowed hf hlimit hw => exact h.later.steady.trans hw.steady
  | stopped h hstop hw => exact h.later.steady.trans hw.steady

theorem Turn.steady (h : Turn token timeout d d') : d.world.Steady d'.world := by
  cases h with
  | rested h => exact h.later.steady
  | begun h => exact h.later.steady
  | deferred h hf hstarted hpace hw => exact h.later.steady.trans hw.steady
  | settled h => exact h.steady
  | answeredLast hanswer hw₁ huri hw => exact hw₁.steady.trans hw.steady
  | answeredNext hanswer hw₁ huri hw => exact hw₁.steady.trans hw.steady
  | resumed hre hopen hw => exact hw.steady

/-- Turns of a connection that is not done yet, one after the other. -/
def Turns (token timeout : ℕ) : Desk → Desk → Prop :=
  Relation.ReflTransGen fun d d' => d.connection.done = false ∧ Turn token timeout d d'

theorem Turns.steady (h : Turns token timeout d d₁) : d.world.Steady d₁.world := by
  induction h with
  | refl => exact .refl _
  | tail _ hturn ih => exact ih.trans hturn.2.steady

end Desk

end Rload
