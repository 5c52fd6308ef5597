import Rload.ArgumentLoops
import Rload.CommandLine
import Rload.DecimalNumbers

/-!
# Arguments

The program goes through its arguments one by one. An option is a name, and the value of an option
is the rest of its argument or the next argument.
-/

namespace Rload.Profiles
open TextScanning FloatingSeconds ArgumentLoop

/-- `value.parse`, for the integers of 64 bits. -/
def parseInteger (what value : String) : Except String ℕ :=
  match parseUnsigned 10 (2 ^ 64) value.toList with
  | some n => .ok n
  | none => .error ("invalid " ++ what ++ ": " ++ value)

/-- A number that must not be zero. -/
def parseCount (what value : String) : Except String ℕ := do
  let n ← parseInteger what value
  if n = 0 then .error (what ++ " must be greater than zero") else .ok n

def parseReplayOrder : String → Except String ReplayOrder
  | "sequential" => .ok .sequential
  | "shuffle" => .ok .shuffle
  | "random" => .ok .random
  | value =>
    .error ("invalid replay order: " ++ value ++ "; expected sequential, shuffle, or random")

def parseReplaySpeed (value : String) : Except String ℚ :=
  match parseF64 value.toList with
  | none => .error ("invalid replay speed: " ++ value)
  | some speed =>
    match speed.filter (0 < ·) with
    | some speed => .ok speed
    | none => .error "replay speed must be a finite number greater than zero"

def commaSeparated (value option : String) : Except String (List (List Char)) :=
  let values := (value.toList.splitOn ',').map trim
  if values.any List.isEmpty then .error (option ++ " requires non-empty comma-separated values")
  else .ok values

def parseStage (stageName : String) (stage : List Char) : Except String ReplayStage :=
  match splitOnce ':' stage with
  | none => .error ("invalid " ++ stageName ++ " " ++ String.ofList stage ++
      "; expected DURATION:RPS")
  | some (duration, rate) => do
    let duration ← parseDuration (String.ofList duration)
    let rate ← parseInteger (stageName ++ " rate") (String.ofList rate)
    if duration = 0 ∨ rate = 0 then
      .error (stageName ++ " durations and rates must be greater than zero")
    else .ok ⟨duration, rate⟩

def parseStages (value option : String) : Except String (List ReplayStage) := do
  let stageName := if option = "--replay-stages" then "replay stage" else "rate stage"
  let stages ← commaSeparated value option
  stages.mapM (parseStage stageName)

def parseCommandOutputFormat : String → Except String OutputFormat
  | "text" => .ok .text
  | "json" => .ok .json
  | value => .error ("invalid output format: " ++ value ++ "; expected text or json")

def parseHeader (value : String) : Except String (String × String) :=
  match splitOnce ':' value.toList with
  | some (name, value) => .ok (String.ofList (trim name), String.ofList (trim value))
  | none => .error "header must use 'Name: Value' syntax"

/-- The path after the sign of `--data-binary`. -/
def parseDataBinary (value : String) : Except String String :=
  match (stripPrefix ['@'] value.toList).filter (· ≠ []) with
  | some path => .ok (String.ofList path)
  | none => .error "--data-binary requires @FILE"

/-- The methods that are not there yet are added. -/
def addMethods (methods : List Method) : List (List Char) → Except String (List Method)
  | [] => .ok methods
  | value :: values => do
    let method ← parseMethod (String.ofList value)
    addMethods (if method ∈ methods then methods else methods ++ [method]) values

/-- What the arguments have given. -/
structure Given where
  options : CommandLine := {}
  profilePath : Option String := none

/-- An option without a value. -/
def switch (set : CommandLine → CommandLine) : Action Given :=
  .flag fun given => .ok { given with options := set given.options }

/-- An option whose value is parsed. -/
def parsed {α : Type} (missing : String) (parse : String → Except String α)
    (set : α → CommandLine → CommandLine) : Action Given :=
  .value missing fun value given => do
    let a ← parse value
    return { given with options := set a given.options }

def setDataBinary (path : String) (given : Given) : Except String Given :=
  if given.options.dataBinary.isSome then .error "--data-binary may only be supplied once"
  else .ok { given with options := { given.options with dataBinary := some path } }

/-- The options by their names. -/
def optionActions : List (List String × Action Given) :=
  [(["--profile"], .value "--profile requires a file path"
      fun path given => .ok { given with profilePath := some path }),
    (["--assert"], parsed "--assert requires an expression" .ok
      fun expression cli => { cli with
        assertions := cli.assertions ++ [⟨expression, none⟩] }),
    (["-n", "--requests"], parsed "--requests requires a value"
      (parseCount "request count")
      fun n cli => { cli with requests := some n }),
    (["--access-log"], parsed "--access-log requires a file path" .ok
      fun path cli => { cli with accessLog := some path }),
    (["--request-file"], parsed "--request-file requires a file path" .ok
      fun path cli => { cli with requestFile := some path }),
    (["--request-schema"], parsed "--request-schema requires a file path" .ok
      fun path cli => { cli with requestSchema := some path }),
    (["--skip-invalid-records"], switch fun cli => { cli with skipInvalidRecords := true }),
    (["--replay-order"], parsed "--replay-order requires a value" parseReplayOrder
      fun order cli => { cli with replayOrder := some order }),
    (["--seed"], parsed "--seed requires a value" (parseInteger "replay seed")
      fun seed cli => { cli with seed := some (UInt64.ofNat seed) }),
    (["--replay-rate"], parsed "--replay-rate requires a value"
      (parseCount "replay rate")
      fun rate cli => { cli with replayRate := some rate }),
    (["--replay-timestamps"], switch fun cli => { cli with replayTimestamps := true }),
    (["--replay-speed"], parsed "--replay-speed requires a value" parseReplaySpeed
      fun speed cli => { cli with replaySpeed := some speed }),
    (["--stages"], parsed "--stages requires a value" (parseStages · "--stages")
      fun stages cli => { cli with stages := some stages }),
    (["--replay-stages"], parsed "--replay-stages requires a value"
      (parseStages · "--replay-stages")
      fun stages cli => { cli with replayStages := some stages }),
    (["--replay-rounds"], parsed "--replay-rounds requires a value"
      (parseCount "replay round count")
      fun rounds cli => { cli with replayRounds := some rounds }),
    (["--output-format"], parsed "--output-format requires a value" parseCommandOutputFormat
      fun format cli => { cli with outputFormat := some format }),
    (["--output-beauty"], switch fun cli => { cli with outputBeauty := true }),
    (["--output-html"], parsed "--output-html requires a file path" .ok
      fun path cli => { cli with outputHtml := some path }),
    (["-X", "--request"], parsed "--request requires a method" parseMethod
      fun method cli => { cli with method := some method }),
    (["-H", "--header"], parsed "--header requires a value" parseHeader
      fun header cli => { cli with headers := cli.headers ++ [header] }),
    (["--data"], parsed "--data requires a value" .ok
      fun value cli => { cli with data := cli.data ++ [value] }),
    (["--data-binary"], .value "--data-binary requires @FILE"
      fun value given => do setDataBinary (← parseDataBinary value) given),
    (["--allowed-methods"], .value "--allowed-methods requires a value"
      fun value given => do
        let methods ← addMethods given.options.allowedMethods
          (← commaSeparated value "--allowed-methods")
        return { given with options := { given.options with allowedMethods := methods } }),
    (["--allowed-uris"], parsed "--allowed-uris requires a value"
      (commaSeparated · "--allowed-uris")
      fun uris cli => { cli with allowedUris := cli.allowedUris ++ uris.map String.ofList }),
    (["-d", "--duration"], parsed "--duration requires a value" parseDuration
      fun duration cli => { cli with duration := some duration }),
    (["-T", "--timeout"], parsed "--timeout requires a value" parseDuration
      fun timeout cli => { cli with timeout := some timeout }),
    (["--latency"], switch id),
    (["-c", "--connections"], parsed "--connections requires a value"
      (parseCount "connection count")
      fun connections cli => { cli with connections := some connections }),
    (["-t", "--threads"], parsed "--threads requires a value"
      (parseCount "thread count")
      fun threads cli => { cli with threads := some threads }),
    (["-h", "--help"], .stop),
    (["--version"], switch fun cli => { cli with version := true })]

def scriptRefusal : String :=
  "Lua scripting is not supported\n\n" ++
    "Use an access log or JSONL request file for dynamic request sequences."

/-- The script options of other programs. -/
def isScript (argument : List Char) : Bool :=
  argument = "--script".toList || "--script=".toList.isPrefixOf argument ||
    "-s".toList.isPrefixOf argument

def setUrl (url : String) (given : Given) : Except String Given :=
  if given.options.url.isSome then .error "only one URL may be supplied"
  else .ok { given with options := { given.options with url := some url } }

/-- What an argument does: an option of that name, or else it is the URL. -/
def findOption (argument : String) : Except String (Action Given) :=
  if isScript argument.toList then .error scriptRefusal
  else match optionActions.find? fun (names, _) => names.contains argument with
    | some (_, action) => .ok action
    | none =>
      if ['-'].isPrefixOf argument.toList then .error ("unknown option: " ++ argument)
      else .ok (.flag (setUrl argument))

def attachable : List String := ["-T", "-X", "-H", "-t", "-c", "-d", "-n"]

/-- An option of one letter may be followed by its value at once. -/
def splitAttached (argument : String) : String × Option String :=
  match attachable.findSome? fun option =>
    ((stripPrefix option.toList argument.toList).filter (· ≠ [])).map fun value =>
      (option, some (String.ofList value)) with
  | some split => split
  | none => (argument, none)

/-- What the arguments give, or nothing if the help is printed instead. -/
def parseArguments : List String → Except String (Option Given) :=
  run splitAttached findOption {}

end Rload.Profiles
