import Rload.SharedResource
import Rload.Worker

/-!
# Runs

A run prepares its request sequence, splits its limit over the connections, distributes the
connections over the workers, lets the workers run in any interleaving and merges what they
report.
-/

namespace Rload

inductive RunLimit where
  | requests (count : ℕ)
  | duration (nanos : ℕ)
  deriving DecidableEq, Repr

structure RunConfig where
  limit : RunLimit
  connections : ℕ
  threads : ℕ
  timeout : ℕ
  deriving DecidableEq, Repr

def RunConfig.validate (config : RunConfig) : Except RunError Unit :=
  if config.connections = 0 then
    .error (.invalidConfig "connections must be greater than zero")
  else if config.threads = 0 then
    .error (.invalidConfig "threads must be greater than zero")
  else if 60 * 60 * 10 ^ 9 < config.timeout then
    .error (.invalidConfig "timeout must not exceed one hour")
  else match config.limit with
    | .requests 0 => .error (.invalidConfig "requests must be greater than zero")
    | .duration 0 => .error (.invalidConfig "duration must be greater than zero")
    | _ => .ok ()

structure ReplayOptions where
  order : ReplayOrder := .sequential
  seed : Option UInt64 := none
  rate : Option ℕ := none
  timestamps : Bool := false
  speed : ℚ := 1
  stages : List ReplayStage := []

/-- The largest `Duration`, in nanoseconds. -/
def maxDuration : ℕ := 2 ^ 64 * 10 ^ 9 - 1

def validateStages (stages : List ReplayStage) : Except RunError Unit :=
  if stages.any fun stage => stage.duration = 0 || stage.rate = 0 then
    .error (.invalidConfig "rate stages require positive durations and rates")
  else if maxDuration < (stages.map (·.duration)).sum then
    .error (.invalidConfig "cumulative rate stage duration is too large")
  else .ok ()

def validateReplayOptions (options : ReplayOptions) (rounds : Option ℕ) :
    Except RunError Unit :=
  if options.order = .sequential && options.seed.isSome then
    .error (.invalidConfig "replay seed requires shuffle or random order")
  else if rounds = some 0 then
    .error (.invalidConfig "replay rounds must be greater than zero")
  else if rounds.isSome && options.order = .random then
    .error (.invalidConfig "replay rounds cannot be combined with random replay order")
  else if options.timestamps && options.order ≠ .sequential then
    .error (.invalidConfig "timestamp pacing requires sequential replay order")
  else if options.timestamps && options.rate.isSome then
    .error (.invalidConfig "timestamp pacing cannot be combined with a fixed replay rate")
  else if options.stages ≠ [] && (options.rate.isSome || options.timestamps) then
    .error (.invalidConfig
      "replay stages cannot be combined with fixed-rate or timestamp pacing")
  else match validateStages options.stages with
    | .error e => .error e
    | .ok _ =>
      if options.speed ≤ 0 then
        .error (.invalidConfig "replay speed must be a finite number greater than zero")
      else .ok ()

structure PreparedRun where
  config : RunConfig
  sequence : RequestSequence
  filteredReplayEntries : ℕ
  replayRate : Option ℕ
  replayEntries : ℕ
  configuredReplayRounds : Option ℕ

def replayLimit (config : RunConfig) (entries : ℕ) (rounds : Option ℕ) :
    Except RunError RunConfig :=
  match rounds with
  | none => .ok config
  | some rounds =>
    if entries * rounds < wordLimit then
      .ok { config with limit := .requests (entries * rounds) }
    else .error (.invalidConfig "replay round request count is too large")

/-- `none` stands for a first shuffle that does not end. `seed` is the value of
`replay_seed`. -/
def prepareReplay (config : RunConfig) (requests : List EncodedRequest) (options : ReplayOptions)
    (rounds : Option ℕ) (filtered : ℕ) (seed : UInt64) (now : ℕ) :
    Except RunError (Option PreparedRun) :=
  match validateReplayOptions options rounds, config.validate,
      replayLimit config requests.length rounds with
  | .error e, _, _ => .error e
  | .ok _, .error e, _ => .error e
  | .ok _, .ok _, .error e => .error e
  | .ok _, .ok _, .ok config =>
    .ok ((RequestSequence.new requests options.order (options.seed.getD seed)).map
      fun sequence =>
        let sequence := (sequence.withRate options.rate now).withStages options.stages
        { config := config
          sequence :=
            if options.timestamps then sequence.withTimestamps options.speed now else sequence
          filteredReplayEntries := filtered
          replayRate := options.rate
          replayEntries := requests.length
          configuredReplayRounds := rounds })

/-- The number of connections, their limits and the time at which a duration is over. -/
def connectionLimits (config : RunConfig) (started : ℕ) :
    ℕ × List ConnectionLimit × Option ℕ :=
  match config.limit with
  | .requests requests =>
    let count := min config.connections requests
    let base := requests / count
    let extra := requests % count
    (count, (List.range count).map fun index =>
      .requests (base + if index < extra then 1 else 0), none)
  | .duration duration =>
    let deadline := started + duration
    (config.connections, List.replicate config.connections (.deadline deadline), some deadline)

/-- The limits go round the workers. -/
def workerLimits (threadCount : ℕ) (limits : List ConnectionLimit) :
    List (List ConnectionLimit) :=
  limits.zipIdx.foldl (fun workers (limit, index) =>
    workers.modify (index % threadCount) (· ++ [limit])) (List.replicate threadCount [])

abbrev LoadRun := SharedResource Worker RequestSequence

def Worker.shareStep (w : Worker) (sequence : RequestSequence) : Worker × RequestSequence :=
  let w := { w with world := { w.world with sequence := sequence } }.step
  (w, w.world.sequence)

/-- What the outside answers to a worker. -/
abbrev Surroundings := ℕ → ℕ → Reply

namespace LoadRun

def worldOf (surroundings : Surroundings) (started worker : ℕ) (sequence : RequestSequence) :
    World where
  replies := surroundings worker
  calls := 0
  clock := started
  sequence := sequence
  failures := []
  registryCalls := []

def start (prepared : PreparedRun) (addresses : List SocketAddr) (tls : Bool)
    (surroundings : Surroundings) (started : ℕ) : LoadRun where
  components :=
    let (connectionCount, limits, _) := connectionLimits prepared.config started
    let threadCount := min prepared.config.threads connectionCount
    (workerLimits threadCount limits).zipIdx.map fun (limits, worker) =>
      .new addresses limits prepared.config.timeout tls
        (worldOf surroundings started worker prepared.sequence)
  shared := prepared.sequence

/-- The workers make their steps in the order of the schedule. -/
def follow (r : LoadRun) (schedule : List ℕ) : LoadRun := r.run Worker.shareStep schedule

end LoadRun

/-- What joining the worker gives, if it ends. -/
def Worker.result? (w : Worker) : Option (Except RunError RunSummary) :=
  match w.phase with
  | .finished (.ok summary) => some (.ok summary)
  | .finished (.error (.error e)) => some (.error e)
  | .finished (.error (.panic _)) => some (.error .workerPanic)
  | _ => none

/-- The results in their order; the first error ends the merge. -/
def mergeAll (summary : RunSummary) : List (Except RunError RunSummary) → Except RunError RunSummary
  | [] => .ok summary
  | .error e :: _ => .error e
  | .ok other :: results => mergeAll (summary.merge other) results

def completeSummary (prepared : PreparedRun) (summary : RunSummary) : RunSummary :=
  { summary with
    filteredReplayEntries := prepared.filteredReplayEntries
    configuredReplayRate := prepared.replayRate
    replayEntries := prepared.replayEntries
    configuredReplayRounds := prepared.configuredReplayRounds
    completedReplayRounds :=
      (prepared.configuredReplayRounds.filter fun _ => 0 < prepared.replayEntries).map
        fun _ => summary.completed / prepared.replayEntries }

/-- The result of the run once every worker has ended. -/
def LoadRun.outcome (prepared : PreparedRun) (r : LoadRun) :
    Option (Except RunError RunSummary) :=
  (r.components.mapM Worker.result?).map fun results =>
    (mergeAll {} results).map (completeSummary prepared)

end Rload
