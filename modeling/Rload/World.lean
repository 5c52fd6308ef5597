import Rload.RequestSequence
import Rload.StatefulPrograms

/-!
# The outside world of a worker

Every call that leaves the program is answered by the next of an arbitrary sequence of
replies, after an arbitrary time; the clock of a worker never runs backwards. The request
sequence is a part of the world because the workers share it. `failures` is a record of the
I/O errors that were delivered and of the operations that met them, and `registryCalls` one of
the calls about a transport; no code reads them.
-/

namespace Rload
open StatefulPrograms

structure Event where
  token : ℕ
  isError : Bool := false
  isWritable : Bool := false
  isReadable : Bool := false
  isReadClosed : Bool := false
  deriving DecidableEq, Repr

/-- Each call uses the parts that it needs: a list of results serves a whole loop of reads or
writes. Every loop ends, since the socket would block after the last of them. -/
structure Reply where
  elapsed : ℕ := 0
  fault : Option IoError := none
  pending : Option IoError := none
  flag : Bool := false
  reads : List (Except IoError (List UInt8)) := []
  writes : List (Except IoError ℕ) := []
  events : List Event := []

/-- What a failed operation was for, and what the request was like then. A socket reports its
error at an error event or at a writable one. -/
inductive Operation where
  | service
  | handshake
  | session (initial : Bool)
  | connect
  | reconnect
  | retryAddress (deadline : Bool)
  | recoverRequest (deadline : Bool)
  | resumeAtPace
  | write (started : Bool)
  | writeNext
  | read (started : Bool)
  | socket (started written : Bool)
  | writableSocket (started written : Bool)
  | expiry (started : Bool)
  deriving DecidableEq, Repr

structure Failure where
  operation : Operation
  error : IoError
  deriving DecidableEq, Repr

inductive RegistryCall where
  | register | reregister | deregister
  deriving DecidableEq, Repr

/-- A call of the registry, and whether the transport was registered before it. -/
structure Registration where
  call : RegistryCall
  registered : Bool
  deriving DecidableEq, Repr

structure World where
  replies : ℕ → Reply
  calls : ℕ
  clock : ℕ
  sequence : RequestSequence
  failures : List Failure
  registryCalls : List Registration

abbrev WorldM := EStateM Halt World

namespace World

/-- The world after a call. -/
def advance (w : World) : World :=
  { w with calls := w.calls + 1, clock := w.clock + (w.replies w.calls).elapsed }

def note (w : World) (failure : Failure) : World := { w with failures := failure :: w.failures }

def call : WorldM Reply := do
  let w ← get
  set w.advance
  pure (w.replies w.calls)

/-- `Instant::now()`. -/
def now : WorldM ℕ := do
  let _ ← call
  let w ← get
  pure w.clock

/-- `thread::sleep`. -/
def sleep (nanos : ℕ) : WorldM Unit := do
  let _ ← call
  modify fun w => { w with clock := w.clock + nanos }

def raise {α : Type} (e : RunError) : WorldM α := throw (.error e)

/-- An I/O error is delivered and passed on. -/
def fail {α : Type} (operation : Operation) (error : IoError) : WorldM α := do
  modify (·.note ⟨operation, error⟩)
  raise (.io error)

/-- A call of the poll, of its registry or of a socket option. -/
def service : WorldM Reply := do
  let reply ← call
  match reply.fault with
  | some error => fail .service error
  | none => pure reply

def noteRegistration (w : World) (registration : Registration) : World :=
  { w with registryCalls := registration :: w.registryCalls }

/-- A call of the registry about a transport. -/
def askRegistry (call : RegistryCall) (registered : Bool) : WorldM Reply := do
  modify (·.noteRegistration ⟨call, registered⟩)
  service

/-- `RequestSequence::next`. -/
def drawRequest : WorldM Drawn := do
  let time ← now
  let w ← get
  match w.sequence.next time with
  | .error halt => throw halt
  | .ok (drawn, sequence) =>
    set { w with sequence := sequence }
    pure drawn

end World

structure SocketAddr where
  ip : ℕ
  port : ℕ
  deriving DecidableEq, Repr

def noAddresses : IoError := ⟨.notFound, "no addresses remain"⟩

def connectAny (operation : Operation) : List (SocketAddr × ℕ) → Option IoError → WorldM ℕ
  | [], lastError => World.fail operation (lastError.getD noAddresses)
  | (_, index) :: addresses, _ => do
    let reply ← World.call
    match reply.fault with
    | none => pure index
    | some error => connectAny operation addresses (some error)

/-- The index of the first address from `start` on that accepts. -/
def connectFrom (operation : Operation) (addresses : List SocketAddr) (start : ℕ) : WorldM ℕ :=
  connectAny operation (addresses.zipIdx.drop start) none

/-- A socket is always watched for reading. -/
structure Interest where
  writable : Bool
  deriving DecidableEq, Repr

/-- A plain or a TLS stream, with what the poll watches its socket for. -/
structure Transport where
  tls : Bool
  registered : Option Interest
  deriving DecidableEq, Repr

namespace Transport

def new (initial tls : Bool) : WorldM Transport := do
  if tls then
    let reply ← World.call
    match reply.fault with
    | some error =>
      modify (·.note ⟨.session initial, error⟩)
      World.raise (.tls error.message)
    | none => pure ⟨true, none⟩
  else pure ⟨false, none⟩

def isTlsHandshaking (t : Transport) : WorldM Bool := do
  if t.tls then
    let reply ← World.call
    pure reply.flag
  else pure false

def wantsWrite : WorldM Bool := do
  let reply ← World.call
  pure reply.flag

def finishHandshake (t : Transport) (operation : Operation) : WorldM Bool := do
  if ← t.isTlsHandshaking then
    let reply ← World.call
    match reply.fault with
    | none =>
      let handshaking ← t.isTlsHandshaking
      pure !handshaking
    | some error =>
      if error.kind = .wouldBlock then
        let handshaking ← t.isTlsHandshaking
        pure !handshaking
      else if error.kind = .invalidData then World.raise (.tls error.message)
      else World.fail operation error
  else pure true

def flushTls (t : Transport) (operation : Operation) : WorldM Unit := do
  if t.tls then
    if ← wantsWrite then
      let reply ← World.call
      match reply.fault with
      | none => pure ()
      | some error =>
        if error.kind = .wouldBlock then pure () else World.fail operation error
    else pure ()
  else pure ()

def interest (t : Transport) (requestWritten requestReady : Bool) : WorldM Interest := do
  if t.tls then
    if ← wantsWrite then pure ⟨true⟩
    else
      let handshaking ← t.isTlsHandshaking
      pure ⟨!handshaking && !requestWritten && requestReady⟩
  else pure ⟨!requestWritten && requestReady⟩

end Transport

end Rload
