import Rload.ResponseDecoder
import Rload.World

/-!
# Connections

The methods of `Connection`, which drive one request after the other over a transport that
may be replaced. What an error leaves behind stays, as it does behind a mutable reference.

`history` is no part of the program: it lists what happened on the connection, the newest
first.
-/

namespace Rload
open StatefulPrograms

def fixedRequestRecoveryAttempts : ℕ := 3

inductive ConnectionLimit where
  | requests (count : ℕ)
  | deadline (time : ℕ)
  deriving DecidableEq, Repr

namespace ConnectionLimit

def shouldContinue (limit : ConnectionLimit) (completed : ℕ) : WorldM Bool :=
  match limit with
  | requests count => pure (completed < count)
  | deadline time => do
    let now ← World.now
    pure (now < time)

def deadline? : ConnectionLimit → Option ℕ
  | requests _ => none
  | deadline time => some time

def requests? : ConnectionLimit → Option ℕ
  | requests count => some count
  | deadline _ => none

end ConnectionLimit

/-- What a new transport finds: how far the request is written, whether it is started, and
whether the decoder is a new one. -/
structure Leftover where
  writeOffset : ℕ
  started : Bool
  fresh : Bool
  deriving DecidableEq, Repr

/-- Each event has what a statement about it needs: the entry of the sequence, the bytes, the
time, how far the request was written, whether it was started. -/
inductive Happening where
  | drew (entry : ℕ)
  | opened (left : Leftover) (time : ℕ)
  | began (time : ℕ)
  | wrote (bytes : List UInt8) (time : ℕ)
  | received (bytes : List UInt8) (started : Bool)
  | answered (entry : ℕ) (started : Bool)
  | replaced (request : List UInt8) (writeOffset : ℕ)
  | attempted
  | restarted
  | retried (started : Bool)
  | reconnectedAtPace (started : Bool)
  deriving DecidableEq, Repr

structure Connection where
  stream : Transport
  addresses : List SocketAddr
  addressIndex : ℕ
  entry : ℕ
  method : Method
  uri : ℕ × ℕ
  request : List UInt8
  notBefore : Option ℕ
  awaitingPace : Bool
  reconnectAtPace : Bool
  writeOffset : ℕ
  decoder : ResponseDecoder
  started : Option ℕ
  connectedAt : ℕ
  completed : ℕ
  limit : ConnectionLimit
  done : Bool
  timerGeneration : ℕ
  pendingReadBytes : ℕ
  pendingRecoveryAttempts : ℕ
  recoveryAttempts : ℕ
  tls : Bool
  history : List Happening
  deriving DecidableEq, Repr

structure CompletedResponse where
  status : ℕ
  bodyLength : ℕ
  connectionClose : Bool
  latency : ℕ
  method : Method
  uri : ℕ × ℕ
  request : List UInt8
  deriving DecidableEq, Repr

inductive Expiration where
  | stopped | requestTimeout | connectionTimeout
  deriving DecidableEq, Repr

/-- A connection and its surroundings. -/
structure Session where
  connection : Connection
  world : World

abbrev ConnectionM := EStateM Halt Session

def Session.withWorld (w : World) (s : Session) : Session := { s with world := w }

instance : MonadLift WorldM ConnectionM := ⟨zoom Session.world Session.withWorld⟩

namespace Connection

def get : ConnectionM Connection := do
  let s ← MonadState.get
  pure s.connection

def update (f : Connection → Connection) : ConnectionM Unit :=
  modify fun s => { s with connection := f s.connection }

def happen (h : Happening) (c : Connection) : Connection := { c with history := h :: c.history }

def requestIsWritten (c : Connection) : Bool := c.writeOffset = c.request.length

def hasStarted (c : Connection) : Bool := c.started.isSome

def freshDecoder (method : Method) : ResponseDecoder := .new (method = .head)

def leftover (c : Connection) : Leftover :=
  ⟨c.writeOffset, c.hasStarted, c.decoder = freshDecoder c.method⟩

def watch (interest : Option Interest) (c : Connection) : Connection :=
  { c with stream := { c.stream with registered := interest } }

/-- A call of the registry, after which the socket is watched for the interest. -/
def askRegistry (call : RegistryCall) (interest : Option Interest) : ConnectionM Unit := do
  let c ← get
  let _ ← World.askRegistry call c.stream.registered.isSome
  update (watch interest)

/-- `registry.register` for both interests. -/
def register : ConnectionM Unit := askRegistry .register (some ⟨true⟩)

def reregister (interest : Interest) : ConnectionM Unit := askRegistry .reregister (some interest)

def deregister : ConnectionM Unit := askRegistry .deregister none

/-- `not_before.is_some_and(|not_before| Instant::now() < not_before)`. -/
def isEarly (c : Connection) : WorldM Bool :=
  match c.notBefore with
  | none => pure false
  | some notBefore => do
    let now ← World.now
    pure (now < notBefore)

def refreshInterest : ConnectionM Unit := do
  let c ← get
  let early ← c.isEarly
  let interest ← c.stream.interest c.requestIsWritten !early
  reregister interest

def takeError (operation : Bool → Bool → Operation) : ConnectionM (Option IoError) := do
  let reply ← World.service
  match reply.pending with
  | some error =>
    let c ← get
    let note : WorldM Unit :=
      modify (·.note ⟨operation c.hasStarted c.requestIsWritten, error⟩)
    note
    pure (some error)
  | none => pure none

def connect (addresses : List SocketAddr) (limit : ConnectionLimit) (tls : Bool) :
    WorldM Connection := do
  let addressIndex ← connectFrom .connect addresses 0
  let stream ← Transport.new true tls
  let drawn ← World.drawRequest
  let connectedAt ← World.now
  pure {
    stream, addresses, addressIndex, limit, tls, connectedAt
    entry := drawn.entry
    method := drawn.method
    uri := drawn.uri
    request := drawn.request
    notBefore := drawn.notBefore
    awaitingPace := false
    reconnectAtPace := false
    writeOffset := 0
    decoder := freshDecoder drawn.method
    started := none
    completed := 0
    done := false
    timerGeneration := 0
    pendingReadBytes := 0
    pendingRecoveryAttempts := 0
    recoveryAttempts := 0
    history := [.drew drawn.entry, .opened ⟨0, false, true⟩ connectedAt] }

/-- The assignments to the stream, the index of its address and the time of the connect. -/
def withStream (stream : Transport) (addressIndex connectedAt : ℕ) (c : Connection) : Connection :=
  { c with
    stream := stream
    addressIndex := addressIndex
    connectedAt := connectedAt
    history := .opened c.leftover connectedAt :: c.history }

/-- No wait for a pace goes on, and the timers of before are stale. -/
def leavePace (c : Connection) : Connection :=
  { c with
    awaitingPace := false
    reconnectAtPace := false
    timerGeneration := c.timerGeneration + 1 }

/-- A new transport over the accepted address, with the other assignments of the caller. -/
def adopt (addressIndex : ℕ) (assign : Connection → Connection) : ConnectionM Unit := do
  let c ← get
  let stream ← Transport.new false c.tls
  let connectedAt ← World.now
  update fun c => withStream stream addressIndex connectedAt (assign c)

def advanceOffset (now n : ℕ) (c : Connection) : Connection :=
  { c with
    writeOffset := c.writeOffset + n
    history := .wrote ((c.request.drop c.writeOffset).take n) now :: c.history }

/-- The socket takes the next bytes of the request. -/
def accept (n : ℕ) : ConnectionM Unit :=
  modify fun s => { s with connection := advanceOffset s.world.clock n s.connection }

def zeroWritten : IoError := ⟨.writeZero, "socket accepted zero request bytes"⟩

/-- The loop over `stream.write`. -/
def writeLoop (operation : Operation) : List (Except IoError ℕ) → ConnectionM Unit
  | [] => pure ()
  | .ok accepted :: results => do
    let c ← get
    let written := min accepted (c.request.length - c.writeOffset)
    if written = 0 then World.fail operation zeroWritten
    else
      accept written
      let c ← get
      if c.requestIsWritten then pure () else writeLoop operation results
  | .error error :: _ => do
    let c ← get
    if error.kind = .wouldBlock then pure ()
    else if c.started.isNone && error.kind = .invalidData then
      World.raise (.tls error.message)
    else World.fail operation error

def awaitPace (c : Connection) : Connection :=
  if c.awaitingPace then c
  else { c with awaitingPace := true, timerGeneration := c.timerGeneration + 1 }

def endWait (c : Connection) : Connection := { c with awaitingPace := false }

def start (now : ℕ) (c : Connection) : Connection :=
  { c with
    started := some now
    timerGeneration := c.timerGeneration + 1
    history := .began now :: c.history }

/-- The request may be written now. -/
def sendRequest (operation : Bool → Operation) : ConnectionM Unit := do
  update endWait
  let c ← get
  if c.started.isNone then
    let now ← World.now
    update (start now)
  let reply ← World.call
  writeLoop (operation true) reply.writes

def writeRequest (operation : Bool → Operation) : ConnectionM Unit := do
  let c ← get
  if c.requestIsWritten then c.stream.flushTls (operation c.hasStarted)
  else if ← c.stream.finishHandshake (operation c.hasStarted) then
    if ← c.isEarly then update awaitPace else sendRequest operation
  else pure ()

inductive ReadEnd where
  | response (parsed : ParsedResponse)
  | eof
  | blocked

def readBufferSize : ℕ := 8192

def receive (data : List UInt8) (c : Connection) : Connection :=
  { c with
    pendingReadBytes := c.pendingReadBytes + data.length
    history := .received data c.started.isSome :: c.history }

/-- The bytes of a read, and the decoder that they are fed to. -/
def hear (data : List UInt8) (eof : Bool) (c : Connection) : Connection :=
  let c' := if data = [] then c else receive data c
  { c' with decoder := (c.decoder.feed data eof).2 }

def decoded (data : List UInt8) (eof : Bool) (c : Connection) :
    Except Halt (Option ParsedResponse) :=
  (c.decoder.feed data eof).1

/-- The loop over `stream.read`. -/
def readLoop : List (Except IoError (List UInt8)) → ConnectionM ReadEnd
  | [] => pure .blocked
  | .ok bytes :: results => do
    let data := bytes.take readBufferSize
    if data = [] then pure .eof
    else
      let c ← get
      update (hear data false)
      match c.decoded data false with
      | .error halt => throw halt
      | .ok (some parsed) => pure (.response parsed)
      | .ok none => readLoop results
  | .error error :: _ => do
    let c ← get
    if error.kind = .wouldBlock then pure .blocked
    else World.fail (.read c.hasStarted) error

def completedResponse (c : Connection) (parsed : ParsedResponse) (eof : Bool) (now : ℕ) :
    CompletedResponse where
  status := parsed.status
  bodyLength := parsed.bodyLength
  connectionClose := parsed.connectionClose || eof
  latency := now - c.started.getD c.connectedAt
  method := c.method
  uri := c.uri
  request := c.request

/-- The text that `Display` gives an error of the decoder. -/
def errorText : RunError → String
  | .invalidResponse message => "invalid HTTP response: " ++ message
  | _ => ""

/-- `decoder.feed(&[], eof)`: at the end of the stream an error of the decoder becomes an
unexpected end. -/
def feedEnd (eof : Bool) : ConnectionM (Option ParsedResponse) := do
  let c ← get
  update (hear [] eof)
  match c.decoded [] eof with
  | .error (.error error) =>
    if eof then World.fail (.read c.hasStarted) ⟨.unexpectedEof, errorText error⟩
    else throw (.error error)
  | .error halt => throw halt
  | .ok parsed => pure parsed

/-- The response of the request, at the time of `elapsed`. -/
def respond (parsed : ParsedResponse) (eof : Bool) :
    ConnectionM (Option CompletedResponse) := do
  let c ← get
  let now ← World.now
  pure (some (c.completedResponse parsed eof now))

def readEnd (eof : Bool) : ConnectionM (Option CompletedResponse) := do
  match ← feedEnd eof with
  | some parsed => respond parsed eof
  | none => pure none

def readResponse : ConnectionM (Option CompletedResponse) := do
  let reply ← World.call
  match ← readLoop reply.reads with
  | .response parsed => respond parsed false
  | .eof => readEnd true
  | .blocked => readEnd false

def clearReadBytes (c : Connection) : Connection := { c with pendingReadBytes := 0 }

def takeReadBytes : ConnectionM ℕ := do
  let c ← get
  update clearReadBytes
  pure c.pendingReadBytes

def clearRecoveryAttempts (c : Connection) : Connection := { c with pendingRecoveryAttempts := 0 }

def takeRecoveryAttempts : ConnectionM ℕ := do
  let c ← get
  update clearRecoveryAttempts
  pure c.pendingRecoveryAttempts

def install (drawn : Drawn) (c : Connection) : Connection :=
  { c with
    entry := drawn.entry
    method := drawn.method
    uri := drawn.uri
    request := drawn.request
    notBefore := drawn.notBefore
    awaitingPace := false
    reconnectAtPace := false
    decoder := freshDecoder drawn.method
    history := .drew drawn.entry :: c.history }

def installNextRequest : ConnectionM Unit := do
  let drawn ← World.drawRequest
  update (install drawn)

def complete (c : Connection) : Connection :=
  { c with
    completed := c.completed + 1
    recoveryAttempts := 0
    history := .answered c.entry c.started.isSome :: c.history }

def rewind (c : Connection) : Connection :=
  { c with writeOffset := 0, history := .replaced c.request c.writeOffset :: c.history }

def unstart (c : Connection) : Connection :=
  { c with started := none, timerGeneration := c.timerGeneration + 1 }

def finish (c : Connection) : Connection := { c with done := true }

def finishResponse (connectionClose : Bool) : ConnectionM Bool := do
  update complete
  let c ← get
  if ← c.limit.shouldContinue c.completed then
    update rewind
    installNextRequest
    update unstart
    if connectionClose then
      deregister
      let c ← get
      let addressIndex ← connectFrom .reconnect c.addresses 0
      adopt addressIndex id
      register
    else
      reregister ⟨true⟩
      writeRequest fun _ => .writeNext
      refreshInterest
    pure false
  else
    update finish
    deregister
    pure true

def stopIfExpired : ConnectionM Bool := do
  let c ← get
  if c.started.isSome then pure false
  else if ← c.limit.shouldContinue c.completed then pure false
  else
    update finish
    unless c.reconnectAtPace do deregister
    pure true

def unfinishedRequests (c : Connection) : ℕ :=
  match c.limit with
  | .requests requests => requests - c.completed
  | .deadline _ => 0

def countAttempt (fixed : Bool) (c : Connection) : Connection :=
  { c with
    pendingRecoveryAttempts := c.pendingRecoveryAttempts + 1
    recoveryAttempts := if fixed then c.recoveryAttempts + 1 else c.recoveryAttempts }

def ioError : Halt → Option IoError
  | .error (.io error) => some error
  | _ => none

/-- The loop of a fixed limit that connects until it succeeds or the attempts are used up;
`fuel` is at least the number of attempts left. -/
def connectLoop (operation : Operation) (start : ℕ) : ℕ → ConnectionM (Option ℕ)
  | 0 => throw .diverge
  | fuel + 1 => do
    update (countAttempt true)
    update (happen .attempted)
    let c ← get
    let tried : WorldM (Except IoError ℕ) :=
      attempt ioError (connectFrom operation c.addresses start)
    match ← tried with
    | .ok addressIndex => pure (some addressIndex)
    | .error _ =>
      if fixedRequestRecoveryAttempts ≤ c.recoveryAttempts then
        update finish
        pure none
      else
        World.sleep 1000000
        connectLoop operation start fuel

/-- The request stays as it is. -/
def toRetry (c : Connection) : Connection := leavePace (happen (.retried c.hasStarted) c)

def retryAddress : ConnectionM Bool := do
  deregister
  let c ← get
  match c.limit with
  | .requests _ =>
    let next := (c.addressIndex + 1) % c.addresses.length
    if fixedRequestRecoveryAttempts ≤ c.recoveryAttempts then
      update finish
      pure false
    else
      match ← connectLoop (.retryAddress false) next fixedRequestRecoveryAttempts with
      | none => pure false
      | some addressIndex =>
        adopt addressIndex toRetry
        register
        pure true
  | .deadline _ =>
    let next := c.addressIndex + 1
    let next := if next < c.addresses.length then next else 0
    update (happen .attempted)
    let addressIndex ← connectFrom (.retryAddress true) c.addresses next
    adopt addressIndex toRetry
    register
    pure true

def restart (c : Connection) : Connection :=
  { c with
    writeOffset := 0
    decoder := freshDecoder c.method
    started := none
    history := .restarted :: c.history }

def toRecover (c : Connection) : Connection := leavePace (restart c)

def recoverRequest : ConnectionM Bool := do
  let c ← get
  let reopen (addressIndex : ℕ) : ConnectionM Bool := do
    adopt addressIndex toRecover
    register
    pure true
  match c.limit with
  | .requests _ =>
    if fixedRequestRecoveryAttempts ≤ c.recoveryAttempts then
      update finish
      deregister
      pure false
    else
      deregister
      match ← connectLoop (.recoverRequest false) 0 fixedRequestRecoveryAttempts with
      | none => pure false
      | some addressIndex => reopen addressIndex
  | .deadline deadline =>
    let now ← World.now
    if deadline ≤ now then pure false
    else
      deregister
      update (countAttempt false)
      update (happen .attempted)
      let addressIndex ← connectFrom (.recoverRequest true) c.addresses 0
      reopen addressIndex

def defer (c : Connection) : Connection :=
  { c with
    awaitingPace := true
    reconnectAtPace := true
    timerGeneration := c.timerGeneration + 1 }

def deferReconnectUntilPace : ConnectionM Bool := do
  let c ← get
  if c.started.isSome then pure false
  else if ← c.isEarly then
    deregister
    update defer
    pure true
  else pure false

/-- The request stays as it is. -/
def toResume (c : Connection) : Connection := leavePace (happen (.reconnectedAtPace c.hasStarted) c)

def resumeAtPace : ConnectionM Unit := do
  let c ← get
  if c.reconnectAtPace then
    let addressIndex ← connectFrom .resumeAtPace c.addresses 0
    adopt addressIndex toResume
    register
  else refreshInterest

def stopAfterDurationError : ConnectionM Bool := do
  let c ← get
  match c.limit with
  | .requests _ => pure false
  | .deadline deadline =>
    let now ← World.now
    if deadline ≤ now then
      update finish
      deregister
      pure true
    else pure false

def nextDeadline (c : Connection) (timeout : ℕ) : Option ℕ :=
  if c.awaitingPace then none
  else match c.started with
    | some started => some (started + timeout)
    | none =>
      some ((c.limit.deadline?.map (min · (c.connectedAt + timeout))).getD
        (c.connectedAt + timeout))

def pacingDeadline (c : Connection) : Option ℕ :=
  if !c.awaitingPace || c.done then none
  else c.notBefore.map fun notBefore =>
    (c.limit.deadline?.map (min · notBefore)).getD notBefore

def expire : ConnectionM Expiration := do
  let c ← get
  if c.started.isSome then pure .requestTimeout
  else if ← c.limit.shouldContinue c.completed then pure .connectionTimeout
  else
    update finish
    deregister
    pure .stopped

end Connection

end Rload
