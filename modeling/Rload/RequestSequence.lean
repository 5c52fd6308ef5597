import Rload.FloatingSeconds
import Rload.ListSwaps
import Rload.RunErrors
import Rload.RunSummary

/-!
# The shared sequence of requests

All connections of all workers draw their requests from one sequence. `next` selects an entry
by a cursor, at random or by a shuffled order, and reserves a slot of the pacer, if there is
one. An instant is a number of nanoseconds.
-/

namespace Rload
open FloatingSeconds

structure EncodedRequest where
  bytes : List UInt8
  methodUriStart : UInt32
  uriEnd : UInt32
  timestampMicros : Option ℤ
  deriving DecidableEq, Repr

def methodUriStart (method : Method) (uriStart : ℕ) : UInt32 :=
  (UInt32.ofNat method.index <<< 29) ||| UInt32.ofNat uriStart

inductive ReplayOrder where
  | sequential | shuffle | random
  deriving DecidableEq, Repr

structure ReplayStage where
  duration : ℕ
  rate : ℕ
  deriving DecidableEq, Repr

/-- The first number of nanoseconds that is no instant: seconds are a signed word. -/
def instantLimit : ℕ := 2 ^ 63 * 10 ^ 9

/-- `Instant + Duration`, without a result where it panics. -/
def addDuration (instant duration : ℕ) : Option ℕ :=
  if instant + duration < instantLimit then some (instant + duration) else none

theorem addDuration_of_lt {instant duration : ℕ} (h : instant + duration < instantLimit) :
    addDuration instant duration = some (instant + duration) := if_pos h

theorem addDuration_of_le {instant duration : ℕ} (h : instantLimit ≤ instant + duration) :
    addDuration instant duration = none := if_neg (Nat.not_lt_of_le h)

theorem addDuration_eq_some {instant duration sum : ℕ}
    (h : addDuration instant duration = some sum) : instant + duration = sum := by
  rw [addDuration] at h
  split at h
  · exact Option.some.inj h
  · cases h

structure Pacer where
  interval : ℕ
  next : ℕ
  deriving DecidableEq, Repr

/-- `Duration::from_secs_f64(1.0 / rate as f64)`. -/
def slotInterval (rate : ℕ) : ℕ := (fromSecsF64 (divF64 1 (toF64 rate))).getD 0

namespace Pacer

def new (rate started : ℕ) : Pacer := ⟨slotInterval rate, started⟩

/-- The slot and the pacer after it where the next slot is an instant. -/
def reserve (p : Pacer) (now : ℕ) : ℕ × Pacer :=
  let scheduled := max p.next now
  (scheduled, { p with next := scheduled + p.interval })

/-- `Pacer::reserve`, without a result where it panics. -/
def reserveIn (p : Pacer) (now : ℕ) : Option (ℕ × Pacer) :=
  let scheduled := max p.next now
  (addDuration scheduled p.interval).map fun next => (scheduled, { p with next := next })

theorem reserve_of_reserveIn {p : Pacer} {now : ℕ} {r : ℕ × Pacer}
    (h : p.reserveIn now = some r) : r = p.reserve now := by
  obtain ⟨next, hnext, rfl⟩ := Option.map_eq_some_iff.mp h
  rw [← addDuration_eq_some hnext]
  rfl

end Pacer

structure TimestampPacer where
  speed : ℚ
  previousMicros : Option ℤ
  next : ℕ
  deriving DecidableEq

namespace TimestampPacer

def new (speed : ℚ) (started : ℕ) : TimestampPacer := ⟨speed, none, started⟩

/-- What is added to the previous timestamp, if the new one is not before it. -/
def gap (previousMicros : Option ℤ) (timestampMicros : ℤ) : ℤ :=
  match previousMicros with
  | some previous => if previous ≤ timestampMicros then timestampMicros - previous else 0
  | none => 0

/-- The gap at the speed. It is `none` where the call panics: the subtraction overflows (where
overflow is not checked its result is negative and is refused as well), or the seconds are no
duration. -/
def pause (p : TimestampPacer) (timestampMicros : ℤ) : Option ℕ :=
  let gap := gap p.previousMicros timestampMicros
  if 2 ^ 63 ≤ gap then none
  else
    let seconds := divF64 (divF64 (if gap = 0 then 0 else toF64 gap) 1000000) p.speed
    fromSecsF64 seconds

/-- `TimestampPacer::reserve`, without a result where it panics. -/
def reserve (p : TimestampPacer) (timestampMicros : ℤ) (now : ℕ) :
    Option (ℕ × TimestampPacer) :=
  (p.pause timestampMicros).bind fun duration =>
    (addDuration (max p.next now) duration).map fun next =>
      (next, { p with next := next, previousMicros := some timestampMicros })

end TimestampPacer

/-- A stage with the boundary at which it ends. -/
structure StagePacer where
  stages : List (ℕ × ℕ)
  started : Option ℕ
  next : Option ℕ
  deriving DecidableEq, Repr

namespace StagePacer

def boundaries : ℕ → List ReplayStage → List (ℕ × ℕ)
  | _, [] => []
  | boundary, stage :: stages =>
    (boundary + stage.duration, stage.rate) :: boundaries (boundary + stage.duration) stages

def new (stages : List ReplayStage) : StagePacer := ⟨boundaries 0 stages, none, none⟩

/-- The slot and the pacer after it where the sums are instants. -/
def reserve (p : StagePacer) (now : ℕ) : ℕ × StagePacer :=
  let started := p.started.getD now
  let scheduled := max (p.next.getD now) now
  let elapsed := scheduled - started
  let (rate, boundary) := match p.stages.find? fun (boundary, _) => elapsed < boundary with
    | some (boundary, rate) => (rate, some (started + boundary))
    | none => ((p.stages.getLast?.map Prod.snd).getD 0, none)
  let candidate := scheduled + slotInterval rate
  (scheduled, { p with
    started := some started
    next := some ((boundary.map (min candidate)).getD candidate) })

end StagePacer

/-- The slot after the given one, `scheduled + Duration::from_secs_f64(1.0 / rate as f64)`. -/
def slotAfter (rate scheduled : ℕ) : Option ℕ :=
  (fromSecsF64 (divF64 1 (toF64 rate))).bind (addDuration scheduled)

theorem slotAfter_eq_some {rate scheduled slot : ℕ} (h : slotAfter rate scheduled = some slot) :
    scheduled + slotInterval rate = slot := by
  obtain ⟨interval, hinterval, hslot⟩ := Option.bind_eq_some_iff.mp h
  rw [slotInterval, hinterval]
  exact addDuration_eq_some hslot

namespace StagePacer

/-- `StagePacer::reserve`, without a result where it panics. -/
def reserveIn (p : StagePacer) (now : ℕ) : Option (ℕ × StagePacer) :=
  let started := p.started.getD now
  let scheduled := max (p.next.getD now) now
  let elapsed := scheduled - started
  match p.stages.find? fun (boundary, _) => elapsed < boundary with
  | some (boundary, rate) =>
    (addDuration started boundary).bind fun boundary =>
      (slotAfter rate scheduled).map fun candidate =>
        (scheduled, { p with started := some started, next := some (min candidate boundary) })
  | none =>
    (slotAfter ((p.stages.getLast?.map Prod.snd).getD 0) scheduled).map fun candidate =>
      (scheduled, { p with started := some started, next := some candidate })

theorem reserve_of_reserveIn {p : StagePacer} {now : ℕ} {r : ℕ × StagePacer}
    (h : p.reserveIn now = some r) : r = p.reserve now := by
  unfold reserveIn at h
  unfold reserve
  dsimp only at h ⊢
  split at h
  · obtain ⟨sum, hsum, h⟩ := Option.bind_eq_some_iff.mp h
    obtain ⟨candidate, hcandidate, rfl⟩ := Option.map_eq_some_iff.mp h
    rw [← addDuration_eq_some hsum, ← slotAfter_eq_some hcandidate]
    rfl
  · obtain ⟨candidate, hcandidate, rfl⟩ := Option.map_eq_some_iff.mp h
    rw [← slotAfter_eq_some hcandidate]
    rfl

end StagePacer

def splitmix64 (value : UInt64) : UInt64 :=
  let value := value + 0x9E3779B97F4A7C15
  let value := (value ^^^ (value >>> 30)) * 0xBF58476D1CE4E5B9
  let value := (value ^^^ (value >>> 27)) * 0x94D049BB133111EB
  value ^^^ (value >>> 31)

/-- `(bound as u64).wrapping_neg() % bound as u64`. -/
def rejectionThreshold (bound : ℕ) : UInt64 := (0 - UInt64.ofNat bound) % UInt64.ofNat bound

/-- The numbers from `random` on until one reaches the threshold. After `2 ^ 64` numbers they
repeat, so that running out of fuel is an endless loop. -/
def firstAccepted (threshold : UInt64) : ℕ → UInt64 → Option UInt64
  | 0, _ => none
  | fuel + 1, random =>
    if random < threshold then firstAccepted threshold fuel (splitmix64 random) else some random

def bounded (random : UInt64) (bound : ℕ) : Option ℕ :=
  (firstAccepted (rejectionThreshold bound) (2 ^ 64) random).map
    fun random => (random % UInt64.ofNat bound).toNat

structure ShuffleState where
  indices : List ℕ
  offset : ℕ
  randomState : UInt64
  deriving DecidableEq, Repr

namespace ShuffleState

def new (length : ℕ) (seed : UInt64) : ShuffleState := ⟨List.range length, 0, seed⟩

def bounded (s : ShuffleState) (bound : ℕ) : Option (ℕ × ShuffleState) :=
  (firstAccepted (rejectionThreshold bound) (2 ^ 64) (splitmix64 s.randomState)).map
    fun random => ((random % UInt64.ofNat bound).toNat, { s with randomState := random })

/-- The swaps at the positions from `index` down to 1. -/
def swaps : ℕ → ShuffleState → Option ShuffleState
  | 0, s => some s
  | index + 1, s =>
    (s.bounded (index + 2)).bind fun (selected, s) =>
      swaps index { s with indices := Arrangements.swap s.indices (index + 1) selected }

def reshuffle (s : ShuffleState) : Option ShuffleState :=
  (swaps (s.indices.length - 1) s).map fun s => { s with offset := 0 }

def next (s : ShuffleState) : Option (ℕ × ShuffleState) :=
  (if s.offset = s.indices.length then s.reshuffle else some s).bind fun s =>
    s.indices[s.offset]?.map fun index => (index, { s with offset := s.offset + 1 })

end ShuffleState

inductive Selection where
  | sequential (next : ℕ)
  | random (next : ℕ) (seed : UInt64)
  | shuffle (state : ShuffleState)
  deriving DecidableEq, Repr

structure RequestSequence where
  requests : List EncodedRequest
  selection : Selection
  pacer : Option Pacer
  timestampPacer : Option TimestampPacer
  timestampCursor : Option ℕ
  stagePacer : Option StagePacer
  deriving DecidableEq

/-- What `next` returns, with the index of the entry. -/
structure Drawn where
  entry : ℕ
  method : Method
  request : List UInt8
  uri : ℕ × ℕ
  notBefore : Option ℕ
  deriving DecidableEq, Repr

namespace RequestSequence

/-- The result is `none` where the first shuffle does not end. -/
def new (requests : List EncodedRequest) (order : ReplayOrder) (seed : UInt64) :
    Option RequestSequence :=
  let selection : Option Selection := match order with
    | .sequential => some (.sequential 0)
    | .random => some (.random 0 seed)
    | .shuffle => (ShuffleState.new requests.length seed).reshuffle.map .shuffle
  selection.map fun selection => ⟨requests, selection, none, none, none, none⟩

def withTimestamps (s : RequestSequence) (speed : ℚ) (started : ℕ) : RequestSequence :=
  { s with timestampPacer := some (.new speed started), timestampCursor := some 0 }

def withStages (s : RequestSequence) (stages : List ReplayStage) : RequestSequence :=
  if stages = [] then s else { s with stagePacer := some (.new stages) }

def withRate (s : RequestSequence) (rate : Option ℕ) (started : ℕ) : RequestSequence :=
  { s with pacer := rate.map (Pacer.new · started) }

/-- The index of the next entry. The cursors of the other orders are 64-bit counters. -/
def select (s : RequestSequence) : Except Halt (ℕ × RequestSequence) :=
  if s.requests.length = 0 then
    .error (.panic "attempt to calculate the remainder with a divisor of zero")
  else match s.timestampCursor with
    | some index =>
      .ok (index, { s with timestampCursor := some ((index + 1) % s.requests.length) })
    | none =>
      match s.selection with
      | .sequential next =>
        .ok (next % s.requests.length, { s with selection := .sequential ((next + 1) % 2 ^ 64) })
      | .random next seed => do
        let index ← orHalt .diverge
          (Rload.bounded (splitmix64 (seed + UInt64.ofNat next)) s.requests.length)
        pure (index, { s with selection := .random ((next + 1) % 2 ^ 64) seed })
      | .shuffle state => do
        let (index, state) ← orHalt .diverge state.next
        pure (index, { s with selection := .shuffle state })

def instantOverflow : Halt := .panic "overflow when adding duration to instant"

/-- The slot of the first pacer there is. -/
def reserve (s : RequestSequence) (request : EncodedRequest) (now : ℕ) :
    Except Halt (Option ℕ × RequestSequence) :=
  match s.pacer, s.timestampPacer, s.stagePacer with
  | some pacer, _, _ => do
    let (scheduled, pacer) ← orHalt instantOverflow (pacer.reserveIn now)
    pure (some scheduled, { s with pacer := some pacer })
  | none, some pacer, _ => do
    let timestamp ← orHalt (.panic "timestamp pacing validates every request")
      request.timestampMicros
    let (scheduled, pacer) ← orHalt
      (if (pacer.pause timestamp).isSome then instantOverflow
        else .panic "can not convert float seconds to Duration")
      (pacer.reserve timestamp now)
    pure (some scheduled, { s with timestampPacer := some pacer })
  | none, none, some pacer => do
    let (scheduled, pacer) ← orHalt instantOverflow (pacer.reserveIn now)
    pure (some scheduled, { s with stagePacer := some pacer })
  | none, none, none => .ok (none, s)

def outOfBounds : Halt := .panic "index out of bounds"

def next (s : RequestSequence) (now : ℕ) : Except Halt (Drawn × RequestSequence) := do
  let (index, s) ← s.select
  let request ← orHalt outOfBounds s.requests[index]?
  let (scheduled, s) ← s.reserve request now
  let method ← orHalt outOfBounds Method.all[(request.methodUriStart >>> 29).toNat]?
  pure ({
    entry := index
    method := method
    request := request.bytes
    uri := ((request.methodUriStart &&& 0x1fffffff).toNat, request.uriEnd.toNat)
    notBefore := scheduled }, s)

theorem select_avoids (s : RequestSequence) : Avoids Halt.isRunError s.select := by
  unfold select
  split
  · exact avoids_error rfl
  · split
    · exact avoids_ok _
    · split
      · exact avoids_ok _
      · exact (avoids_orHalt rfl _).bind fun _ => avoids_ok _
      · exact (avoids_orHalt rfl _).bind fun _ => avoids_ok _

theorem reserve_avoids (s : RequestSequence) (request : EncodedRequest) (now : ℕ) :
    Avoids Halt.isRunError (s.reserve request now) := by
  unfold reserve
  split
  · exact (avoids_orHalt rfl _).bind fun _ => avoids_ok _
  · refine (avoids_orHalt rfl _).bind fun timestamp =>
      (avoids_orHalt ?_ _).bind fun _ => avoids_ok _
    split
    · rfl
    · rfl
  · exact (avoids_orHalt rfl _).bind fun _ => avoids_ok _
  · exact avoids_ok _

theorem next_avoids (s : RequestSequence) (now : ℕ) : Avoids Halt.isRunError (s.next now) := by
  unfold next
  apply s.select_avoids.bind
  intro r
  apply (avoids_orHalt rfl _).bind
  intro request
  apply (reserve_avoids _ _ _).bind
  intro q
  exact (avoids_orHalt rfl _).bind fun _ => avoids_ok _

end RequestSequence

end Rload
