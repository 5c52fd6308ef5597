import Rload.Connection
import Mathlib.Data.List.Sort

/-!
# Handling events and timers

What the loop of a worker does for one event, one expired deadline or one due pace. A `Desk`
is all that the code of one such step can reach: one connection, the counters of the worker
and its two timer queues. Where the source writes the same statements at several places,
they are one definition here.
-/

namespace Rload
open StatefulPrograms

structure Timer where
  time : ℕ
  token : ℕ
  generation : ℕ
  deriving DecidableEq, Repr

/-- The order of the tuples. -/
def Timer.Before (t u : Timer) : Prop :=
  t.time < u.time ∨ t.time = u.time ∧
    (t.token < u.token ∨ t.token = u.token ∧ t.generation ≤ u.generation)

instance : DecidableRel Timer.Before := fun t u =>
  inferInstanceAs (Decidable (t.time < u.time ∨ t.time = u.time ∧
    (t.token < u.token ∨ t.token = u.token ∧ t.generation ≤ u.generation)))

/-- A `BinaryHeap<Reverse<_>>` as the sorted list of what it holds. -/
abbrev TimerQueue := List Timer

def TimerQueue.push (t : Timer) (q : TimerQueue) : TimerQueue := q.orderedInsert Timer.Before t

structure Desk where
  connection : Connection
  world : World
  summary : RunSummary
  deadlines : TimerQueue
  pacing : TimerQueue
  active : ℕ

abbrev DeskM := EStateM Halt Desk

namespace Desk

def session (d : Desk) : Session := ⟨d.connection, d.world⟩

def withSession (s : Session) (d : Desk) : Desk :=
  { d with connection := s.connection, world := s.world }

end Desk

instance : MonadLift ConnectionM DeskM := ⟨zoom Desk.session Desk.withSession⟩

namespace Desk

def getConnection : DeskM Connection := do
  let d ← get
  pure d.connection

def counted (f : RunSummary → RunSummary) (d : Desk) : Desk := { d with summary := f d.summary }

def countedError (f : SocketErrors → SocketErrors) (d : Desk) : Desk :=
  d.counted fun s => { s with socketErrors := f s.socketErrors }

def countError (f : SocketErrors → SocketErrors) : DeskM Unit := modify (countedError f)

/-- `summary.recovery_attempts += connection.take_recovery_attempts()`. -/
def countRecoveryAttempts : DeskM Unit := do
  let attempts ← Connection.takeRecoveryAttempts
  modify (counted fun s => { s with recoveryAttempts := s.recoveryAttempts + attempts })

/-- `active -= 1`. -/
def left (d : Desk) : Desk := { d with active := d.active - 1 }

def leave : DeskM Unit := modify left

/-- The connection gives its unfinished requests up. -/
def abandoned (d : Desk) : Desk :=
  left (d.counted fun s =>
    { s with abandonedRequests := s.abandonedRequests + d.connection.unfinishedRequests })

def abandon : DeskM Unit := modify abandoned

def scheduledDeadlines (token timeout : ℕ) (c : Connection) (q : TimerQueue) : TimerQueue :=
  match c.nextDeadline timeout with
  | some deadline => q.push ⟨deadline, token, c.timerGeneration⟩
  | none => q

def scheduledPacing (token : ℕ) (c : Connection) (q : TimerQueue) : TimerQueue :=
  match c.pacingDeadline with
  | some deadline => q.push ⟨deadline, token, c.timerGeneration⟩
  | none => q

def pacingScheduled (token : ℕ) (d : Desk) : Desk :=
  { d with pacing := scheduledPacing token d.connection d.pacing }

/-- `schedule_deadline` and `schedule_pacing`. -/
def scheduled (token timeout : ℕ) (d : Desk) : Desk :=
  pacingScheduled token
    { d with deadlines := scheduledDeadlines token timeout d.connection d.deadlines }

def schedulePacing (token : ℕ) : DeskM Unit := modify (pacingScheduled token)

def schedule (token timeout : ℕ) : DeskM Unit := modify (scheduled token timeout)

section Failures

variable (token timeout : ℕ)

/-- A failure of a started request: it is recovered, or the connection stops because its run
is over or its attempts are used up. -/
def recoverOrStop (addError : SocketErrors → SocketErrors) (error : RunError) : DeskM Unit := do
  let recovered ← Connection.recoverRequest
  countRecoveryAttempts
  if recovered then
    countError addError
    schedule token timeout
  else if ← Connection.stopAfterDurationError then
    countError addError
    leave
  else
    let c ← getConnection
    if c.done then
      countError addError
      abandon
    else throw (.error error)

def retryOrAbandon : DeskM Unit := do
  let retried ← Connection.retryAddress
  countRecoveryAttempts
  if retried then schedule token timeout else abandon

def runError : Halt → Option RunError
  | .error e => some e
  | _ => none

/-- `let Err(RunError::Tls(error)) = connection.write_request()` during a handshake. -/
def checkHandshake : DeskM Unit := do
  let c ← getConnection
  let handshaking ← c.stream.isTlsHandshaking
  if handshaking then
    let written : ConnectionM (Except RunError Unit) :=
      attempt runError (Connection.writeRequest fun _ => .handshake)
    match ← written with
    | .error (.tls message) => throw (.error (.tls message))
    | _ => pure ()

/-- A failure before the request was started. -/
def failBeforeStart : DeskM Unit := do
  checkHandshake
  countError SocketErrors.addConnect
  if ← Connection.deferReconnectUntilPace then schedulePacing token
  else retryOrAbandon token timeout

/-- The branch of an error event. The result tells whether the event is dealt with. -/
def handleError : DeskM Bool := do
  match ← Connection.takeError .socket with
  | none => pure false
  | some error =>
    let c ← getConnection
    if c.hasStarted then
      recoverOrStop token timeout
        (if c.requestIsWritten then SocketErrors.addRead else SocketErrors.addWrite) (.io error)
    else failBeforeStart token timeout
    pure true

/-- The branch of a writable event. The result tells whether the event is dealt with. -/
def handleWritable : DeskM Bool := do
  if ← Connection.stopIfExpired then
    leave
    pure true
  else
    match ← Connection.takeError .writableSocket with
    | some _ =>
      failBeforeStart token timeout
      pure true
    | none =>
      let before ← getConnection
      let written : ConnectionM (Except RunError Unit) :=
        attempt runError (Connection.writeRequest .write)
      match ← written with
      | .error (.tls message) => throw (.error (.tls message))
      | .error error =>
        let c ← getConnection
        match c.hasStarted, error with
        | false, .io _ =>
          countError SocketErrors.addConnect
          retryOrAbandon token timeout
        | _, error => recoverOrStop token timeout SocketErrors.addWrite error
        pure true
      | .ok _ =>
        Connection.refreshInterest
        let c ← getConnection
        if c.timerGeneration ≠ before.timerGeneration then schedule token timeout
        pure false

/-- `std::str::from_utf8(&completed.request[completed.uri])`. -/
def recordedUri (response : CompletedResponse) : Option Uri :=
  let (first, last) := response.uri
  if first ≤ last ∧ last ≤ response.request.length then
    let uri := (response.request.drop first).take (last - first)
    if (TextScanning.decodeUtf8 uri).isSome then some uri else none
  else none

def countResponse (response : CompletedResponse) (uri : Uri) (s : RunSummary) : RunSummary :=
  { s with responseBodyBytes := s.responseBodyBytes + response.bodyLength }.recordResponse
    response.method uri response.status response.latency

def handleResponse (response : CompletedResponse) : DeskM Unit := do
  match recordedUri response with
  | none => throw (.panic "validated request URIs are UTF-8")
  | some uri =>
    modify (counted (countResponse response uri))
    if ← Connection.finishResponse response.connectionClose then leave
    else schedule token timeout

/-- `summary.read_bytes += connection.take_read_bytes()`. -/
def countReadBytes : DeskM Unit := do
  let bytes ← Connection.takeReadBytes
  modify (counted fun s => { s with readBytes := s.readBytes + bytes })

def handleReadable : DeskM Unit := do
  let read : ConnectionM (Except RunError (Option CompletedResponse)) :=
    attempt runError Connection.readResponse
  let response ← read
  countReadBytes
  let c ← getConnection
  match response with
  | .ok (some response) => handleResponse token timeout response
  | .ok none => Connection.refreshInterest
  | .error (.io error) =>
    if c.hasStarted then recoverOrStop token timeout SocketErrors.addRead (.io error)
    else if error.kind = .notConnected then Connection.refreshInterest
    else failBeforeStart token timeout
  | .error error => throw (.error error)

def handleEvent (event : Event) : DeskM Unit := do
  let c ← getConnection
  if c.done then pure ()
  else if ← if event.isError then handleError token timeout else pure false then pure ()
  else if ← if event.isWritable then handleWritable token timeout else pure false then pure ()
  else if event.isReadable || event.isReadClosed then handleReadable token timeout
  else pure ()

def connectionTimedOut : IoError := ⟨.timedOut, "connection timed out"⟩

def requestTimedOut : IoError := ⟨.timedOut, "request timed out"⟩

def noteExpiry (error : IoError) : DeskM Unit :=
  modify fun d => { d with world := d.world.note ⟨.expiry d.connection.hasStarted, error⟩ }

/-- A deadline of the current generation has passed. -/
def handleExpired : DeskM Unit := do
  match ← Connection.expire with
  | .stopped => leave
  | .requestTimeout =>
    noteExpiry requestTimedOut
    countError SocketErrors.addTimeout
    recoverOrStop token timeout id (.io requestTimedOut)
  | .connectionTimeout =>
    noteExpiry connectionTimedOut
    countError SocketErrors.addConnect
    retryOrAbandon token timeout

/-- A pace of the current generation is due. -/
def handlePace : DeskM Unit := do
  if ← Connection.stopIfExpired then leave else Connection.resumeAtPace

end Failures

end Desk

end Rload
