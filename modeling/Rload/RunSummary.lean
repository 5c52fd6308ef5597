import Rload.UriTop
import Mathlib.Data.Multiset.Basic

/-!
# What a run reports

Every worker counts into a `RunSummary` of its own; `merge` adds them up. Durations are
numbers of nanoseconds.
-/

namespace Rload

inductive Method where
  | get | head | post | put | patch | delete | options
  deriving DecidableEq, Repr

namespace Method

/-- `Method::ALL`. -/
def all : List Method := [get, head, post, put, patch, delete, options]

def index : Method → ℕ
  | get => 0
  | head => 1
  | post => 2
  | put => 3
  | patch => 4
  | delete => 5
  | options => 6

end Method

def maxLatencyUs : ℕ := 60 * 60 * 1000000

def uriTopCapacity : ℕ := 20

theorem uriTopCapacity_pos : 0 < uriTopCapacity := by decide

structure SocketErrors where
  connect : ℕ := 0
  read : ℕ := 0
  write : ℕ := 0
  timeout : ℕ := 0
  deriving DecidableEq, Repr

namespace SocketErrors

def total (e : SocketErrors) : ℕ := e.connect + e.read + e.write + e.timeout

def merge (e other : SocketErrors) : SocketErrors where
  connect := e.connect + other.connect
  read := e.read + other.read
  write := e.write + other.write
  timeout := e.timeout + other.timeout

def addConnect (e : SocketErrors) : SocketErrors := { e with connect := e.connect + 1 }

def addRead (e : SocketErrors) : SocketErrors := { e with read := e.read + 1 }

def addWrite (e : SocketErrors) : SocketErrors := { e with write := e.write + 1 }

def addTimeout (e : SocketErrors) : SocketErrors := { e with timeout := e.timeout + 1 }

end SocketErrors

/-- The values that a histogram has recorded. -/
abbrev Histogram := Multiset ℕ

structure LatencyHistogram where
  histogram : Option Histogram := none
  overflowCount : ℕ := 0

namespace LatencyHistogram

def histogramMut (h : LatencyHistogram) : Histogram := h.histogram.getD 0

def record (h : LatencyHistogram) (latency : ℕ) : LatencyHistogram :=
  let rawMicros := min (latency / 1000) (2 ^ 64 - 1)
  { histogram := some (max 1 (min rawMicros maxLatencyUs) ::ₘ h.histogramMut)
    overflowCount := if maxLatencyUs < rawMicros then h.overflowCount + 1 else h.overflowCount }

def merge (h other : LatencyHistogram) : LatencyHistogram where
  histogram :=
    match h.histogram, other.histogram with
    | some values, some others => some (values + others)
    | none, some others => some others
    | values, none => values
  overflowCount := h.overflowCount + other.overflowCount

end LatencyHistogram

structure MethodSummary where
  completed : ℕ := 0
  statusErrors : ℕ := 0
  latencies : LatencyHistogram := {}

namespace MethodSummary

def record (m : MethodSummary) (status latency : ℕ) : MethodSummary where
  completed := m.completed + 1
  statusErrors := m.statusErrors + if 400 ≤ status then 1 else 0
  latencies := m.latencies.record latency

def merge (m other : MethodSummary) : MethodSummary where
  completed := m.completed + other.completed
  statusErrors := m.statusErrors + other.statusErrors
  latencies := m.latencies.merge other.latencies

end MethodSummary

/-- How often each status below 1000 was seen. -/
structure StatusCounts where
  counts : List ℕ := List.replicate 1000 0
  deriving DecidableEq, Repr

namespace StatusCounts

def record (s : StatusCounts) (status : ℕ) : StatusCounts :=
  ⟨s.counts.modify status (· + 1)⟩

def get (s : StatusCounts) (status : ℕ) : ℕ := s.counts[status]?.getD 0

def merge (s other : StatusCounts) : StatusCounts :=
  ⟨List.zipWith (· + ·) s.counts other.counts⟩

end StatusCounts

structure RunSummary where
  completed : ℕ := 0
  abandonedRequests : ℕ := 0
  recoveryAttempts : ℕ := 0
  readBytes : ℕ := 0
  responseBodyBytes : ℕ := 0
  statusErrors : ℕ := 0
  socketErrors : SocketErrors := {}
  latencies : LatencyHistogram := {}
  filteredReplayEntries : ℕ := 0
  configuredReplayRate : Option ℕ := none
  replayEntries : ℕ := 0
  configuredReplayRounds : Option ℕ := none
  completedReplayRounds : Option ℕ := none
  methodSummaries : Method → MethodSummary := fun _ => {}
  statusCounts : StatusCounts := {}
  uriTop : UriTop := .new uriTopCapacity uriTopCapacity_pos

namespace RunSummary

def merge (s other : RunSummary) : RunSummary :=
  { s with
    completed := s.completed + other.completed
    abandonedRequests := s.abandonedRequests + other.abandonedRequests
    recoveryAttempts := s.recoveryAttempts + other.recoveryAttempts
    readBytes := s.readBytes + other.readBytes
    responseBodyBytes := s.responseBodyBytes + other.responseBodyBytes
    statusErrors := s.statusErrors + other.statusErrors
    socketErrors := s.socketErrors.merge other.socketErrors
    filteredReplayEntries := s.filteredReplayEntries + other.filteredReplayEntries
    latencies := s.latencies.merge other.latencies
    methodSummaries := fun m => (s.methodSummaries m).merge (other.methodSummaries m)
    statusCounts := s.statusCounts.merge other.statusCounts
    uriTop := s.uriTop.merge other.uriTop }

def method (s : RunSummary) (m : Method) : MethodSummary := s.methodSummaries m

/-- The statuses that were seen, with their counts. -/
def observedStatuses (s : RunSummary) : List (ℕ × ℕ) :=
  (s.statusCounts.counts.zipIdx.filter fun (count, _) => 0 < count).map
    fun (count, status) => (status, count)

def recordResponse (s : RunSummary) (method : Method) (uri : Uri) (status latency : ℕ) :
    RunSummary :=
  { s with
    completed := s.completed + 1
    statusErrors := s.statusErrors + if 400 ≤ status then 1 else 0
    latencies := s.latencies.record latency
    methodSummaries := fun m =>
      if m = method then (s.methodSummaries m).record status latency else s.methodSummaries m
    statusCounts := s.statusCounts.record status
    uriTop := s.uriTop.record uri }

end RunSummary

end Rload
