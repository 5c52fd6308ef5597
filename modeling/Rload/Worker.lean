import Rload.EventHandling

/-!
# Workers

`run_worker` as a machine: one step is an attempt to connect, a poll, an event, an expired
deadline or a due pace. A step that ends the worker by an error leaves the connections as
they were before it.
-/

namespace Rload
open StatefulPrograms

def fixedRequestConnectionAttempts : ℕ := 3

inductive Phase where
  | opening (limits : List ConnectionLimit)
  | starting (limits : List ConnectionLimit) (attempts : ℕ)
  | polling
  | handling (events : List Event)
  | expiring (now : ℕ)
  | resuming (now : ℕ)
  | finished (result : Except Halt RunSummary)

structure Worker where
  addresses : List SocketAddr
  timeout : ℕ
  tls : Bool
  connections : List Connection
  summary : RunSummary
  deadlines : TimerQueue
  pacing : TimerQueue
  active : ℕ
  world : World
  phase : Phase

namespace Worker

def new (addresses : List SocketAddr) (limits : List ConnectionLimit) (timeout : ℕ) (tls : Bool)
    (world : World) : Worker where
  addresses := addresses
  timeout := timeout
  tls := tls
  connections := []
  summary := {}
  deadlines := []
  pacing := []
  active := 0
  world := world
  phase := .opening limits

def goTo (phase : Phase) (w : Worker) : Worker := { w with phase := phase }

def halt (h : Halt) (world : World) (w : Worker) : Worker :=
  { w with world := world, phase := .finished (.error h) }

/-- `Poll::new()`. -/
def openPoll (limits : List ConnectionLimit) (w : Worker) : Worker :=
  match World.service w.world with
  | .error h world => w.halt h world
  | .ok _ world => { w with world := world, phase := .starting limits 0 }

def countConnectError (s : RunSummary) : RunSummary :=
  { s with socketErrors := s.socketErrors.addConnect }

/-- An attempt to connect has failed. -/
def attemptFailed (limit : ConnectionLimit) (limits : List ConnectionLimit) (attempts : ℕ)
    (w : Worker) : Worker :=
  let w := { w with summary := countConnectError w.summary }
  match limit with
  | .deadline deadline =>
    match World.now w.world with
    | .error h world => w.halt h world
    | .ok now world =>
      let w := { w with world := world }
      if deadline ≤ now then w.goTo (.finished (.ok w.summary))
      else match World.sleep 1000000 w.world with
        | .error h world => w.halt h world
        | .ok _ world => { w with world := world }
  | .requests requests =>
    if attempts + 1 = fixedRequestConnectionAttempts then
      { w with
        summary := { w.summary with
          abandonedRequests := w.summary.abandonedRequests + requests }
        phase := .starting limits 0 }
    else match World.sleep 1000000 w.world with
      | .error h world => w.halt h world
      | .ok _ world =>
        { w with world := world, phase := .starting (limit :: limits) (attempts + 1) }

/-- One pass of the loop that connects for the first of the limits left. -/
def startNext (limit : ConnectionLimit) (limits : List ConnectionLimit) (attempts : ℕ)
    (w : Worker) : Worker :=
  match Connection.connect w.addresses limit w.tls w.world with
  | .error h world =>
    if h.isRunError then attemptFailed limit limits attempts { w with world := world }
    else w.halt h world
  | .ok connection world =>
    match Connection.register ⟨connection, world⟩ with
    | .error h s => w.halt h s.world
    | .ok _ s =>
      { w with
        connections := w.connections ++ [s.connection]
        world := s.world
        phase := .starting limits 0 }

def scheduleAll (timeout : ℕ) (connections : List Connection) (deadlines pacing : TimerQueue) :
    TimerQueue × TimerQueue :=
  connections.zipIdx.foldl (fun q (c, token) =>
    (Desk.scheduledDeadlines token timeout c q.1, Desk.scheduledPacing token c q.2))
    (deadlines, pacing)

def enterLoop (w : Worker) : Worker :=
  let queues := scheduleAll w.timeout w.connections w.deadlines w.pacing
  { w with
    active := w.connections.length
    deadlines := queues.1
    pacing := queues.2
    phase := .polling }

/-- The timer is not for what its connection waits for now. -/
def isStale (connections : List Connection) (t : Timer) : Bool :=
  match connections[t.token]? with
  | none => false
  | some c => c.done || c.timerGeneration ≠ t.generation

def isStalePacing (connections : List Connection) (t : Timer) : Bool :=
  isStale connections t ||
    (connections[t.token]?.bind Connection.pacingDeadline) ≠ some t.time

def discardStale (w : Worker) : Worker :=
  { w with
    deadlines := w.deadlines.dropWhile (isStale w.connections)
    pacing := w.pacing.dropWhile (isStalePacing w.connections) }

/-- How long until the first timer of a queue. -/
def untilFirst (q : TimerQueue) : WorldM (Option ℕ) :=
  match q.head? with
  | none => pure none
  | some t => do
    let now ← World.now
    pure (some (t.time - now))

def pollTimeout (deadlines pacing : TimerQueue) : WorldM (Option ℕ) := do
  let deadlineTimeout ← untilFirst deadlines
  let pacingTimeout ← untilFirst pacing
  match deadlineTimeout, pacingTimeout with
  | some left, some right => pure (some (min left right))
  | left, right => pure (left.or right)

/-- `poll.poll`: without an event it returns when the timeout has passed. -/
def pollEvents (timeout : Option ℕ) : WorldM (List Event) := do
  let before ← get
  let reply ← World.service
  if reply.events = [] then
    modify fun w => { w with clock := max w.clock (before.clock + timeout.getD 0) }
  pure reply.events

/-- Only the sockets that are registered have events. -/
def isWatched (connections : List Connection) (event : Event) : Bool :=
  (connections[event.token]?.bind (·.stream.registered)).isSome

def poll (w : Worker) : Worker :=
  let program : WorldM (List Event) := do
    let timeout ← pollTimeout w.deadlines w.pacing
    pollEvents timeout
  match program w.world with
  | .error h world => w.halt h world
  | .ok events world =>
    { w with world := world, phase := .handling (events.filter (isWatched w.connections)) }

def desk (w : Worker) (c : Connection) : Desk where
  connection := c
  world := w.world
  summary := w.summary
  deadlines := w.deadlines
  pacing := w.pacing
  active := w.active

def withDesk (token : ℕ) (d : Desk) (w : Worker) : Worker :=
  { w with
    connections := w.connections.set token d.connection
    world := d.world
    summary := d.summary
    deadlines := d.deadlines
    pacing := d.pacing
    active := d.active }

/-- The handler runs on the connection of the token. -/
def work (token : ℕ) (handler : DeskM Unit) (w : Worker) : Worker :=
  match w.connections[token]? with
  | none => w.halt RequestSequence.outOfBounds w.world
  | some c =>
    match handler (w.desk c) with
    | .error h d => w.halt h d.world
    | .ok _ d => w.withDesk token d

/-- `Instant::now()`, then the loop over the timers that are due at that time. -/
def readClock (next : ℕ → Phase) (w : Worker) : Worker :=
  match World.now w.world with
  | .error h world => w.halt h world
  | .ok now world => { w with world := world, phase := next now }

/-- The first timer is taken off its queue if it is due. -/
def due (now : ℕ) (q : TimerQueue) : Option (Timer × TimerQueue) :=
  match q with
  | [] => none
  | t :: q => if now < t.time then none else some (t, q)

def step (w : Worker) : Worker :=
  match w.phase with
  | .opening limits => w.openPoll limits
  | .starting [] _ => w.enterLoop
  | .starting (limit :: limits) attempts => startNext limit limits attempts w
  | .polling =>
    if w.active = 0 then w.goTo (.finished (.ok w.summary)) else w.discardStale.poll
  | .handling [] => w.readClock .expiring
  | .handling (event :: events) =>
    (w.goTo (.handling events)).work event.token (Desk.handleEvent event.token w.timeout event)
  | .expiring now =>
    match due now w.deadlines with
    | none => w.readClock .resuming
    | some (t, deadlines) =>
      let w := { w with deadlines := deadlines }
      if isStale w.connections t then w
      else w.work t.token (Desk.handleExpired t.token w.timeout)
  | .resuming now =>
    match due now w.pacing with
    | none => w.goTo .polling
    | some (t, pacing) =>
      let w := { w with pacing := pacing }
      if isStale w.connections t then w
      else w.work t.token (Desk.handlePace)
  | .finished _ => w

end Worker

end Rload
