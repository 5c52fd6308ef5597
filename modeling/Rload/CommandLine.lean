import Rload.Profile

/-!
# Command lines

The options of a command line set the variables of the program, a profile sets those that the
command line left alone, and what cannot go together is refused. What remains is the plan of a
run. A panic of the code is an error here.
-/

namespace Rload.Profiles
open TextScanning

def stripSuffix (last text : List Char) : Option (List Char) :=
  (stripPrefix last.reverse text.reverse).map List.reverse

/-- The number and the milliseconds of its unit. -/
def durationUnit (text : List Char) : List Char × ℕ :=
  match stripSuffix ['m', 's'] text with
  | some number => (number, 1)
  | none => match stripSuffix ['s'] text with
    | some number => (number, 1000)
    | none => match stripSuffix ['m'] text with
      | some number => (number, 60000)
      | none => match stripSuffix ['h'] text with
        | some number => (number, 3600000)
        | none => (text, 1000)

def parseDuration (value : String) : Except String ℕ :=
  let (number, multiplier) := durationUnit value.toList
  match parseUnsigned 10 (2 ^ 64) number with
  | some number =>
    if number * multiplier < 2 ^ 64 ∧ 0 < number * multiplier then
      .ok (number * multiplier * 10 ^ 6)
    else .error ("invalid duration: " ++ value)
  | none => .error ("invalid duration: " ++ value)

def parseMethod (value : String) : Except String Method :=
  match Method.all.find? fun method => method.asStr = value.toList with
  | some method => .ok method
  | none => .error ("unsupported HTTP method: " ++ value)

inductive OutputFormat where
  | text | beauty | json
  deriving DecidableEq, Repr

def parseOutputFormat : String → Except String OutputFormat
  | "text" => .ok .text
  | "json" => .ok .json
  | value =>
    .error ("profile observability.output_format must be text or json, got " ++ value)

def parseOrder : String → Except String ReplayOrder
  | "sequential" => .ok .sequential
  | "shuffle" => .ok .shuffle
  | "random" => .ok .random
  | order =>
    .error ("profile load_profile.log_replay.order must be sequential, shuffle, or random, got " ++
      order)

def PacingStage.parse (stage : PacingStage) : Except String ReplayStage := do
  let duration ← parseDuration stage.duration
  if duration = 0 then .error "profile replay stage durations must be greater than zero"
  else .ok ⟨duration, stage.targetRps⟩

/-- The checks of a profile exclude numbers that are not finite. -/
def Float64.value : Float64 → ℚ
  | .finite x => x
  | .notFinite => 0

/-- The options that a command line gives, as they are parsed. -/
structure CommandLine where
  assertions : List Assertion := []
  requests : Option ℕ := none
  duration : Option ℕ := none
  connections : Option ℕ := none
  threads : Option ℕ := none
  timeout : Option ℕ := none
  url : Option String := none
  accessLog : Option String := none
  requestFile : Option String := none
  requestSchema : Option String := none
  skipInvalidRecords : Bool := false
  replayOrder : Option ReplayOrder := none
  seed : Option UInt64 := none
  replayRate : Option ℕ := none
  replayTimestamps : Bool := false
  replaySpeed : Option ℚ := none
  stages : Option (List ReplayStage) := none
  replayStages : Option (List ReplayStage) := none
  replayRounds : Option ℕ := none
  outputFormat : Option OutputFormat := none
  outputBeauty : Bool := false
  outputHtml : Option String := none
  version : Bool := false
  method : Option Method := none
  headers : List (String × String) := []
  data : List String := []
  dataBinary : Option String := none
  allowedMethods : List Method := []
  allowedUris : List String := []

/-- The variables of the program. -/
structure Settings where
  assertions : List Assertion
  requests : ℕ
  requestsWereSet : Bool
  duration : Option ℕ
  connections : ℕ
  connectionsWereSet : Bool
  threads : ℕ
  threadsWereSet : Bool
  timeout : ℕ
  timeoutWasSet : Bool
  url : Option String
  accessLog : Option String
  requestFile : Option String
  requestSchema : Option String
  skipInvalidRecords : Bool
  replayOrder : ReplayOrder
  replayOrderWasSet : Bool
  seedWasSet : Bool
  seed : Option UInt64
  replayRate : Option ℕ
  replayTimestamps : Bool
  replaySpeed : ℚ
  replaySpeedWasSet : Bool
  stages : List ReplayStage
  stagesWereSet : Bool
  replayStagesWereSet : Bool
  replayRounds : Option ℕ
  outputFormat : OutputFormat
  outputFormatWasSet : Bool
  outputBeauty : Bool
  outputHtml : Option String
  version : Bool
  method : Method
  methodWasSet : Bool
  headers : List (String × String)
  data : List String
  dataBinary : Option String
  allowedMethods : List Method
  allowedUris : List String
  ordinaryRequestWasSet : Bool

def CommandLine.ordinaryRequestWasSet (cli : CommandLine) : Bool :=
  cli.method.isSome || !cli.headers.isEmpty || !cli.data.isEmpty || cli.dataBinary.isSome

/-- The variables after the options are parsed. -/
def CommandLine.settings (cli : CommandLine) : Settings where
  assertions := cli.assertions
  requests := cli.requests.getD 1
  requestsWereSet := cli.requests.isSome
  duration := cli.duration
  connections := cli.connections.getD 10
  connectionsWereSet := cli.connections.isSome
  threads := cli.threads.getD 2
  threadsWereSet := cli.threads.isSome
  timeout := cli.timeout.getD (2 * 10 ^ 9)
  timeoutWasSet := cli.timeout.isSome
  url := cli.url
  accessLog := cli.accessLog
  requestFile := cli.requestFile
  requestSchema := cli.requestSchema
  skipInvalidRecords := cli.skipInvalidRecords
  replayOrder := cli.replayOrder.getD .sequential
  replayOrderWasSet := cli.replayOrder.isSome
  seedWasSet := cli.seed.isSome
  seed := cli.seed
  replayRate := cli.replayRate
  replayTimestamps := cli.replayTimestamps
  replaySpeed := cli.replaySpeed.getD 1
  replaySpeedWasSet := cli.replaySpeed.isSome
  stages := (cli.stages.or cli.replayStages).getD []
  stagesWereSet := cli.stages.isSome
  replayStagesWereSet := cli.replayStages.isSome
  replayRounds := cli.replayRounds
  outputFormat := cli.outputFormat.getD .text
  outputFormatWasSet := cli.outputFormat.isSome
  outputBeauty := cli.outputBeauty
  outputHtml := cli.outputHtml
  version := cli.version
  method := cli.method.getD .get
  methodWasSet := cli.method.isSome
  headers := cli.headers
  data := cli.data
  dataBinary := cli.dataBinary
  allowedMethods := cli.allowedMethods
  allowedUris := cli.allowedUris
  ordinaryRequestWasSet := cli.ordinaryRequestWasSet

/-- The variable is set to what the profile has unless the command line did so. -/
def mergeValue {α : Type} (wasSet : Bool) (value : α) (inProfile : Option (Except String α)) :
    Except String α :=
  match inProfile with
  | some parsed => if wasSet then .ok value else parsed
  | none => .ok value

def mergeRunner (profile : Profile) (s : Settings) : Except String Settings := do
  let runner := profile.runner
  let duration ← mergeValue (s.requestsWereSet || s.duration.isSome) s.duration
    (runner.duration.map fun value => some <$> parseDuration value)
  let timeout ← mergeValue s.timeoutWasSet s.timeout (some (parseDuration runner.timeout))
  return { s with
    assertions := s.assertions ++ profile.assertions
    url := s.url.or (some profile.targetUrl)
    duration
    connections := if s.connectionsWereSet then s.connections else runner.connections
    threads := if s.threadsWereSet then s.threads else runner.threads
    timeout }

def mergeOutput (observability : Observability) (s : Settings) : Except String Settings := do
  let outputFormat ← mergeValue s.outputFormatWasSet s.outputFormat
    (observability.outputFormat.map parseOutputFormat)
  return { s with outputFormat, outputHtml := s.outputHtml.or observability.outputHtml }

/-- The command line has no workload. -/
def Settings.takesWorkload (s : Settings) : Bool :=
  s.accessLog.isNone && s.requestFile.isNone && !s.ordinaryRequestWasSet

def mergeStatic (request : StaticRequest) (s : Settings) : Except String Settings := do
  let method ← parseMethod request.method
  return { s with
    method
    methodWasSet := true
    headers := request.headers
    data := request.body.toList
    ordinaryRequestWasSet := true }

def mergePacing (pacing : Pacing) (s : Settings) : Except String Settings :=
  match pacing.mode with
  | "none" => .ok s
  | "rate" => .ok { s with replayRate := pacing.rate }
  | "timestamp" =>
    .ok { s with
      replayTimestamps := true
      replaySpeed := if s.replaySpeedWasSet then s.replaySpeed
        else (pacing.speed.map Float64.value).getD 1 }
  | "stages" => do
    let stages ← pacing.stages.mapM PacingStage.parse
    return { s with stages }
  | _ => .error "profile pacing mode is validated before use"

/-- The command line has no pacing. -/
def Settings.takesPacing (s : Settings) : Bool :=
  s.replayRate.isNone && !s.replayTimestamps && s.stages.isEmpty

def mergeReplayPacing (replay : LogReplay) (s : Settings) : Except String Settings :=
  match replay.pacing with
  | some pacing => if s.takesPacing then mergePacing pacing s else .ok s
  | none => .ok s

def mergeSource (replay : LogReplay) (s : Settings) : Except String Settings :=
  match replay.format with
  | "nginx" => .ok { s with accessLog := some replay.path }
  | "jsonl" => .ok { s with requestFile := some replay.path }
  | _ => .error "profile format is validated before use"

def mergeReplay (replay : LogReplay) (s : Settings) : Except String Settings := do
  let s ← mergeSource replay s
  let replayOrder ← mergeValue s.replayOrderWasSet s.replayOrder (replay.order.map parseOrder)
  let allowedMethods ← mergeValue (!s.allowedMethods.isEmpty) s.allowedMethods
    (some (replay.filter.allowedMethods.mapM parseMethod))
  mergeReplayPacing replay { s with
    replayOrder
    seed := if s.seedWasSet then s.seed else replay.seed
    replayRounds := s.replayRounds.or replay.rounds
    requestSchema := s.requestSchema.or replay.schema
    skipInvalidRecords := s.skipInvalidRecords || replay.skipInvalidRecords
    allowedMethods
    allowedUris := if s.allowedUris.isEmpty then replay.filter.allowedUris else s.allowedUris }

def mergeStaticSection (load : LoadProfile) (s : Settings) : Except String Settings :=
  match load.staticRequest with
  | some request => if s.takesWorkload then mergeStatic request s else .ok s
  | none => .ok s

def mergeReplaySection (load : LoadProfile) (s : Settings) : Except String Settings :=
  match load.logReplay with
  | some replay => if s.takesWorkload then mergeReplay replay s else .ok s
  | none => .ok s

def mergeProfile (profile : Profile) (s : Settings) : Except String Settings := do
  let s ← mergeRunner profile s
  let s ← mergeOutput profile.observability s
  let s ← mergeStaticSection profile.loadProfile s
  mergeReplaySection profile.loadProfile s

inductive Workload where
  | plain (stages : List ReplayStage)
  | request (headers : List (String × String)) (body : Option (List UInt8))
    (stages : List ReplayStage)
  | accessLog (path : String) (replay : ReplayOptions) (rounds : Option ℕ) (filter : ReplayFilter)
  | requestFile (path : String) (replay : ReplayOptions) (rounds : Option ℕ)
    (schema : Option String) (skipInvalidRecords : Bool) (filter : ReplayFilter)

structure Plan where
  url : String
  method : Method
  config : RunConfig
  workload : Workload
  assertions : List Assertion
  outputFormat : OutputFormat
  outputHtml : Option String

namespace Settings

variable (s : Settings)

def noReplay : Bool := s.accessLog.isNone && s.requestFile.isNone

def earlyRefusals : List (Bool × String) :=
  [(s.duration.isSome && s.requestsWereSet, "--duration and --requests cannot be used together"),
    (s.outputBeauty && s.outputFormat = .json,
      "--output-beauty cannot be used with --output-format json"),
    (s.accessLog.isSome && s.requestFile.isSome,
      "--access-log and --request-file cannot be used together"),
    (s.requestSchema.isSome && s.requestFile.isNone, "--request-schema requires --request-file"),
    (s.skipInvalidRecords && s.requestFile.isNone,
      "--skip-invalid-records requires --request-file"),
    (s.replayRounds.isSome && s.noReplay,
      "--replay-rounds requires --access-log or --request-file"),
    (s.replayRounds.isSome && (s.requestsWereSet || s.duration.isSome),
      "--replay-rounds cannot be combined with --requests or --duration"),
    (s.replayRounds.isSome && s.replayOrder = .random,
      "--replay-rounds cannot be combined with random replay order"),
    (s.ordinaryRequestWasSet && !s.noReplay,
      "ordinary request options cannot be combined with replay inputs"),
    (!s.data.isEmpty && s.dataBinary.isSome,
      "--data and --data-binary cannot be used together")]

def lateRefusals : List (Bool × String) :=
  [((s.replayOrderWasSet || s.seedWasSet) && s.noReplay,
      "--replay-order and --seed require --access-log or --request-file"),
    (s.replayRate.isSome && s.noReplay, "--replay-rate requires --access-log or --request-file"),
    (s.replayTimestamps && s.noReplay,
      "--replay-timestamps requires --access-log or --request-file"),
    (s.replaySpeedWasSet && !s.replayTimestamps, "--replay-speed requires --replay-timestamps"),
    (s.replayTimestamps && s.replayRate.isSome,
      "--replay-timestamps cannot be combined with --replay-rate"),
    (s.replayTimestamps && s.replayOrder ≠ .sequential,
      "--replay-timestamps requires sequential replay order"),
    (s.stagesWereSet && s.replayStagesWereSet, "--stages cannot be combined with --replay-stages"),
    (s.replayStagesWereSet && s.noReplay,
      "--replay-stages requires --access-log or --request-file"),
    (!s.stages.isEmpty && (s.replayRate.isSome || s.replayTimestamps),
      "--stages cannot be combined with --replay-rate or --replay-timestamps"),
    ((!s.allowedMethods.isEmpty || !s.allowedUris.isEmpty) && s.noReplay,
      "replay whitelist options require --access-log or --request-file"),
    (s.seed.isSome && s.replayOrder = .sequential,
      "--seed requires --replay-order shuffle or random")]

/-- The body of an ordinary request. Files are read by `readBodyFile`. -/
def body (readBodyFile : String → Except String (List UInt8)) :
    Except String (Option (List UInt8)) :=
  match s.dataBinary with
  | some path => some <$> readBodyFile path
  | none =>
    if s.data.isEmpty then .ok none
    else .ok (some (encodeUtf8 ("&".intercalate s.data).toList))

def requestMethod (body : Option (List UInt8)) : Method :=
  if !s.methodWasSet && body.isSome then .post else s.method

def limit : RunLimit :=
  if s.requestsWereSet then .requests s.requests
  else .duration (s.duration.getD (10 * 10 ^ 9))

def replayOptions : ReplayOptions where
  order := s.replayOrder
  seed := s.seed
  rate := s.replayRate
  timestamps := s.replayTimestamps
  speed := s.replaySpeed
  stages := s.stages

def replayFilter : ReplayFilter where
  allowedMethods := s.allowedMethods
  allowedUris := s.allowedUris.map String.toList

def workload (body : Option (List UInt8)) : Workload :=
  match s.accessLog, s.requestFile with
  | some path, _ => .accessLog path s.replayOptions s.replayRounds s.replayFilter
  | none, some path =>
    .requestFile path s.replayOptions s.replayRounds s.requestSchema s.skipInvalidRecords
      s.replayFilter
  | none, none =>
    if s.ordinaryRequestWasSet then .request s.headers body s.stages else .plain s.stages

def target : Except String String :=
  match s.url with
  | some url => .ok url
  | none => .error "a target URL is required"

def plan (readBodyFile : String → Except String (List UInt8)) : Except String Plan := do
  refuse s.earlyRefusals
  let body ← s.body readBodyFile
  refuse s.lateRefusals
  let url ← s.target
  return {
    url
    method := s.requestMethod body
    config := ⟨s.limit, s.connections, s.threads, s.timeout⟩
    workload := s.workload body
    assertions := s.assertions
    outputFormat := if s.outputBeauty then .beauty else s.outputFormat
    outputHtml := s.outputHtml }

end Settings

def mergeFile (file : Option (Except String Profile)) (s : Settings) : Except String Settings :=
  match file with
  | some read => do mergeProfile (← load read) s
  | none => .ok s

/-- Up to the run, instead of which the version may be printed. -/
def execute (readBodyFile : String → Except String (List UInt8)) (cli : CommandLine)
    (file : Option (Except String Profile)) : Except String (Option Plan) := do
  let s ← mergeFile file cli.settings
  if s.version then return none
  else some <$> s.plan readBodyFile

end Rload.Profiles
