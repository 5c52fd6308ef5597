import Rload.RunErrors
import Rload.SkippedRecords

/-!
# Times of records

Reading a file with a schema of its own or with times. The time of a record is where the schema has
it, or a number of microseconds, or one of two fields that must agree. Times do nothing but mark
the requests: what is read with them is what is read without them, where they can be read.
-/

namespace Rload.RequestFile
open TextScanning JsonDocuments

structure TimestampMapping where
  path : List Char
  format : Option (List Char)

structure SchemaFields where
  method : Option (List Char) := none
  uri : Option (List Char) := none
  args : Option (List Char) := none
  headers : Option (List Char) := none
  body : Option (List Char) := none
  timestamp : Option TimestampMapping := none

/-- A schema as it is written. -/
structure RequestSchema where
  schemaVersion : ℕ
  fields : SchemaFields := {}

/-- Why a schema is not valid. The code has these as messages: "invalid request schema: {error}",
"unsupported request schema version {version}" and "request schema field {field} has an invalid
path". -/
inductive SchemaFault where
  | io (error : IoError)
  | invalid (error : String)
  | unsupportedVersion (version : ℕ)
  | invalidPath (field : String)
  deriving DecidableEq, Repr

structure CompiledTimestamp where
  path : List (List Char)
  format : Option (List Char)

/-- The paths of a schema with that of the time. -/
structure TimedSchema where
  fields : CompiledSchema := {}
  timestamp : Option CompiledTimestamp := none

def compilePath (path : List Char) (field : String) : Except SchemaFault (List (List Char)) :=
  let segments := path.splitOn '.'
  if segments = [] ∨ [] ∈ segments then .error (.invalidPath field) else .ok segments

def compileMapping (mapping : Option (List Char)) (field : String) :
    Except SchemaFault (Option (List (List Char))) :=
  match mapping with
  | none => .ok none
  | some path => some <$> compilePath path field

def compileTimestamp : Option TimestampMapping → Except SchemaFault (Option CompiledTimestamp)
  | none => .ok none
  | some mapping => do
    let path ← compilePath mapping.path "timestamp"
    return some { path, format := mapping.format }

def compileSchema (schema : RequestSchema) : Except SchemaFault TimedSchema :=
  if schema.schemaVersion ≠ 1 then .error (.unsupportedVersion schema.schemaVersion)
  else do
    let method ← compileMapping schema.fields.method "method"
    let uri ← compileMapping schema.fields.uri "uri"
    let args ← compileMapping schema.fields.args "args"
    let headers ← compileMapping schema.fields.headers "headers"
    let body ← compileMapping schema.fields.body "body"
    let timestamp ← compileTimestamp schema.fields.timestamp
    return { fields := { method, uri, args, headers, body }, timestamp }

/-- Why the time of a record is not valid. The code has these as messages: "timestamp_micros must be
a signed 64-bit integer", "time and _time contain conflicting timestamps", "invalid timestamp:
expected format" with the format, "invalid timestamp: expected Nginx or RFC3339 format" and
"timestamp must be an integer or string". -/
inductive TimeFault where
  | notSigned
  | conflicting
  | expectedFormat (format : List Char)
  | unknownFormat
  | notIntegerOrString
  deriving DecidableEq, Repr

/-- What is taken from the libraries of JSON and of times. -/
structure TimeLibrary where
  /-- Whether two values are equal. -/
  same : Value → Value → Bool
  /-- The microseconds of a text in a format. -/
  parseFromStr : List Char → List Char → Option ℤ

def defaultTimestampFormat : List Char := "%d/%b/%Y:%H:%M:%S %z".toList

def rfc3339TimestampFormat : List Char := "%+".toList

/-- `Number::as_i64`. A negative zero is a floating point number. -/
def asI64 : List Char → Option ℤ
  | '-' :: digits =>
    ((numeral 10 digits).filter fun n => 0 < n ∧ n ≤ 2 ^ 63).map fun n : ℕ => -(n : ℤ)
  | digits => ((numeral 10 digits).filter (· < 2 ^ 63)).map fun n : ℕ => (n : ℤ)

example : asI64 "-7".toList = some (-7) := by decide

def microsOfNumber (text : List Char) : Except TimeFault (Option ℤ) :=
  match asI64 text with
  | some micros => .ok (some micros)
  | none => .error .notSigned

section Times

variable (times : TimeLibrary)

def parseTimestampText (text : List Char) : Option (List Char) → Except TimeFault (Option ℤ)
  | some format =>
    match times.parseFromStr text format with
    | some micros => .ok (some micros)
    | none => .error (.expectedFormat format)
  | none =>
    match [defaultTimestampFormat, rfc3339TimestampFormat].findSome?
      (times.parseFromStr text) with
    | some micros => .ok (some micros)
    | none => .error .unknownFormat

def parseTimestampValue (value : Option Value) (format : Option (List Char)) :
    Except TimeFault (Option ℤ) :=
  match value with
  | none | some .null => .ok none
  | some (.number text) => microsOfNumber text
  | some (.string text) => parseTimestampText times text format
  | some _ => .error .notIntegerOrString

/-- The time of a record without a schema. -/
def unmappedTimestamp (value : Value) : Except TimeFault (Option ℤ) :=
  match get value "timestamp_micros".toList with
  | some .null => .ok none
  | some (.number text) => microsOfNumber text
  | some _ => .error .notSigned
  | none =>
    let time := get value "time".toList
    let alternate := get value "_time".toList
    match time, alternate with
    | some first, some second =>
      if times.same first second then parseTimestampValue times time none
      else .error .conflicting
    | _, _ => parseTimestampValue times (time.or alternate) none

def extractTimestamp (value : Value) : Option CompiledTimestamp → Except TimeFault (Option ℤ)
  | some mapping => parseTimestampValue times (valueAt value mapping.path) mapping.format
  | none => unmappedTimestamp times value

/-- The time is read where the run asks for times or the schema has one. -/
def timestampOf (schema : TimedSchema) (asked : Bool) (value : Value) :
    Except TimeFault (Option ℤ) :=
  if asked || schema.timestamp.isSome then extractTimestamp times value schema.timestamp
  else .ok none

end Times

inductive TimedFault where
  | record (fault : RecordFault)
  | time (fault : TimeFault)
  deriving DecidableEq, Repr

/-- The message "line {line}: {fault}". -/
structure InvalidTimedRecord where
  line : ℕ
  fault : TimedFault
  deriving DecidableEq, Repr

def InvalidRecord.timed (e : InvalidRecord) : InvalidTimedRecord := ⟨e.line, .record e.fault⟩

/-- The fields of a request other than its time. -/
def recordFields (value : Value) (schema : CompiledSchema) (line : ℕ) :
    Except InvalidRecord JsonRequest := do
  let method ← optionalString (valueFor value schema.method "method") line "method"
  let uri ← requiredString (valueFor value schema.uri "uri") line "uri"
  let args ← optionalString (valueFor value schema.args "args") line "args"
  let headers ← headersOf (valueFor value schema.headers "headers") line
  let body ← optionalString (valueFor value schema.body "body") line "body"
  return { method := method, uri := uri, args := args, headers := headers, body := body }

structure TimedReplay where
  requests : List ReplayRequest
  skippedRecords : Multiset TimedFault

/-- Why a file is not read. -/
inductive ReadFault where
  | io (error : IoError)
  | schema (fault : SchemaFault)
  | record (e : InvalidTimedRecord)
  | noRequests
  | noValidRequests (skipped : ℕ)
  deriving DecidableEq, Repr

def FileFault.timed : FileFault → ReadFault
  | .record e => .record e.timed
  | .noRequests => .noRequests
  | .noValidRequests skipped => .noValidRequests skipped

def RequestFileReplay.timed (replay : RequestFileReplay) : TimedReplay where
  requests := replay.requests
  skippedRecords := replay.skippedRecords.map .record

def finishTimed (requests : List ReplayRequest) (skipped : Multiset TimedFault) :
    Except ReadFault TimedReplay :=
  if requests = [] then
    .error (if skipped.card = 0 then .noRequests else .noValidRequests skipped.card)
  else .ok ⟨requests, skipped⟩

section Loop

variable (decode : List Char → ℕ → Except InvalidTimedRecord ReplayRequest)
  (skipInvalidRecords : Bool)

/-- The loop over the lines, with fuel above the number of bytes. -/
def timedLoop : ℕ → List UInt8 → ℕ → List ReplayRequest → Multiset TimedFault →
    Except ReadFault TimedReplay
  | 0, _, _, requests, skipped => finishTimed requests skipped
  | fuel + 1, bytes, lineNumber, requests, skipped =>
    match readLine bytes lineNumber with
    | .error e => .error (.record e.timed)
    | .ok none => finishTimed requests skipped
    | .ok (some (line, rest)) =>
      if trim line = [] then timedLoop fuel rest (lineNumber + 1) requests skipped
      else
        match decode line (lineNumber + 1) with
        | .ok request => timedLoop fuel rest (lineNumber + 1) (requests ++ [request]) skipped
        | .error e =>
          if skipInvalidRecords then
            timedLoop fuel rest (lineNumber + 1) requests (e.fault ::ₘ skipped)
          else .error (.record e)

end Loop

section Reading

variable (json : JsonLibrary) (times : TimeLibrary)

def validateTimed (value : Value) (schema : TimedSchema) (asked : Bool) (line : ℕ) :
    Except InvalidTimedRecord ReplayRequest := do
  let request ← (recordFields value schema.fields line).mapError InvalidRecord.timed
  let timestampMicros ← (timestampOf times schema asked value).mapError (⟨line, .time ·⟩)
  let replay ← (validate request line).mapError InvalidRecord.timed
  return { replay with timestampMicros }

def decodeTimed (schema : TimedSchema) (asked : Bool) (line : List Char) (lineNumber : ℕ) :
    Except InvalidTimedRecord ReplayRequest :=
  match (json.read line).bind (toValue json.inRange maxDepth) with
  | none => .error ⟨lineNumber, .record .invalidJson⟩
  | some value => validateTimed times value schema asked lineNumber

def readTimed (bytes : List UInt8) (schema : TimedSchema) (asked skipInvalidRecords : Bool) :
    Except ReadFault TimedReplay :=
  timedLoop (decodeTimed json times schema asked) skipInvalidRecords (bytes.length + 1) bytes 0 [] 0

/-- `read`. The schema is what reading its file as YAML gives. Errors that come after the file is
opened are left out. -/
def read (file : Except IoError (List UInt8)) (schema : Option (Except SchemaFault RequestSchema))
    (timestamps skipInvalidRecords : Bool) : Except ReadFault TimedReplay := do
  let bytes ← file.mapError .io
  match schema with
  | some schema => do
    let schema ← (schema >>= compileSchema).mapError .schema
    readTimed json times bytes schema timestamps skipInvalidRecords
  | none =>
    if timestamps then readTimed json times bytes {} timestamps skipInvalidRecords
    else
      ((readFrom json bytes skipInvalidRecords).mapError FileFault.timed).map
        RequestFileReplay.timed

end Reading

theorem mapError_eq_ok {ε ε' α : Type} {f : ε → ε'} {x : Except ε α} {a : α} :
    x.mapError f = .ok a ↔ x = .ok a := by
  cases x with
  | error e => simp [Except.mapError]
  | ok b => simp [Except.mapError]

def withoutTime (r : ReplayRequest) : ReplayRequest := { r with timestampMicros := none }

section Decoding

variable {json : JsonLibrary} {times : TimeLibrary} {schema : TimedSchema} {asked : Bool}
  {line : List Char} {lineNumber : ℕ} {r : ReplayRequest}

/-- The time of the record in a line. -/
def lineTime (json : JsonLibrary) (times : TimeLibrary) (schema : TimedSchema) (asked : Bool)
    (line : List Char) : Except TimeFault (Option ℤ) :=
  match (json.read line).bind (toValue json.inRange maxDepth) with
  | none => .ok none
  | some value => timestampOf times schema asked value

theorem validateValue_fields (value : Value) (schema : CompiledSchema) (line : ℕ) :
    validateValue value schema line =
      recordFields value schema line >>= fun request => validate request line := by
  simp only [validateValue, recordFields, bind_assoc, pure_bind]

theorem timestampMicros_of_validate {request : JsonRequest}
    (h : validate request lineNumber = .ok r) : r.timestampMicros = none := by
  unfold validate at h
  dsimp only at h
  split at h
  · cases h
  · split at h
    · cases h
    · cases h
      rfl

theorem timestampMicros_of_decodeValue {schema : CompiledSchema}
    (h : decodeValue json schema line lineNumber = .ok r) : r.timestampMicros = none := by
  rw [decodeValue] at h
  split at h
  · cases h
  · rw [validateValue_fields] at h
    obtain ⟨request, -, h⟩ := ok_of_bind h
    exact timestampMicros_of_validate h

/-- A record is decoded with a time if it is decoded without it and its time is read. -/
theorem decodeTimed_eq_ok :
    decodeTimed json times schema asked line lineNumber = .ok r ↔
      decodeValue json schema.fields line lineNumber = .ok (withoutTime r) ∧
        lineTime json times schema asked line = .ok r.timestampMicros := by
  rw [decodeTimed, decodeValue, lineTime]
  cases (json.read line).bind (toValue json.inRange maxDepth) with
  | none => exact ⟨nofun, fun h => nomatch h.1⟩
  | some value =>
    dsimp only
    rw [validateValue_fields, validateTimed]
    constructor
    · intro h
      obtain ⟨request, hfields, h⟩ := ok_of_bind h
      obtain ⟨timestampMicros, htime, h⟩ := ok_of_bind h
      obtain ⟨replay, hvalid, h⟩ := ok_of_bind h
      cases h
      rw [mapError_eq_ok] at hfields htime hvalid
      have hnone := timestampMicros_of_validate hvalid
      refine ⟨?_, htime⟩
      rw [hfields]
      exact hvalid.trans (by rw [withoutTime, ← hnone])
    · rintro ⟨hplain, htime⟩
      obtain ⟨request, hfields, hvalid⟩ := ok_of_bind hplain
      rw [hfields, htime]
      change ((validate request lineNumber).mapError InvalidRecord.timed >>= _) = _
      rw [hvalid]
      rfl

/-- Where no time is read, records are decoded as without times. -/
theorem decodeTimed_of_unasked (hasked : asked = false) (hschema : schema.timestamp = none) :
    decodeTimed json times schema asked line lineNumber =
      (decodeValue json schema.fields line lineNumber).mapError InvalidRecord.timed := by
  rw [decodeTimed, decodeValue]
  cases (json.read line).bind (toValue json.inRange maxDepth) with
  | none => rfl
  | some value =>
    dsimp only
    have htime : timestampOf times schema asked value = .ok none := by
      rw [timestampOf, hasked, hschema]
      rfl
    rw [validateTimed, validateValue_fields, htime]
    cases recordFields value schema.fields lineNumber with
    | error e => rfl
    | ok request =>
      change ((validate request lineNumber).mapError InvalidRecord.timed >>= _) =
        (validate request lineNumber).mapError InvalidRecord.timed
      cases hvalid : validate request lineNumber with
      | error e => rfl
      | ok replay =>
        have hnone := timestampMicros_of_validate hvalid
        change Except.ok { replay with timestampMicros := none } = Except.ok replay
        rw [← hnone]

end Decoding

/-- What becomes of the lines. -/
def settleTimed (decode : List Char → ℕ → Except InvalidTimedRecord ReplayRequest)
    (skipInvalidRecords : Bool) : ℕ → List (List UInt8) → List ReplayRequest →
    Multiset TimedFault → Except ReadFault TimedReplay
  | _, [], requests, skipped => finishTimed requests skipped
  | lineNumber, raw :: lines, requests, skipped =>
    match recordText raw with
    | .error fault => .error (.record ⟨lineNumber + 1, .record fault⟩)
    | .ok line =>
      if trim line = [] then
        settleTimed decode skipInvalidRecords (lineNumber + 1) lines requests skipped
      else
        match decode line (lineNumber + 1) with
        | .ok request =>
          settleTimed decode skipInvalidRecords (lineNumber + 1) lines (requests ++ [request])
            skipped
        | .error e =>
          if skipInvalidRecords then
            settleTimed decode skipInvalidRecords (lineNumber + 1) lines requests
              (e.fault ::ₘ skipped)
          else .error (.record e)

theorem timedLoop_eq {decode : List Char → ℕ → Except InvalidTimedRecord ReplayRequest}
    {skip : Bool} {fuel : ℕ} {bytes : List UInt8} (hfuel : bytes.length < fuel) (lineNumber : ℕ)
    (requests : List ReplayRequest) (skipped : Multiset TimedFault) :
    timedLoop decode skip fuel bytes lineNumber requests skipped =
      settleTimed decode skip lineNumber (rawLines bytes) requests skipped := by
  induction fuel generalizing bytes lineNumber requests skipped with
  | zero => exact absurd hfuel (Nat.not_lt_zero _)
  | succ fuel ih =>
    by_cases hnil : bytes = []
    · subst hnil
      rfl
    · have hrest : (bytes.drop (firstLine bytes).length).length < fuel := by
        have hpos := List.length_pos_of_ne_nil (firstLine_ne_nil hnil)
        have hpos' := List.length_pos_of_ne_nil hnil
        rw [List.length_drop]
        omega
      rw [timedLoop, readLine_eq hnil, rawLines_eq hnil, settleTimed]
      cases recordText (firstLine bytes) with
      | error fault => rfl
      | ok line =>
        dsimp only
        split
        · exact ih hrest _ _ _
        · cases decode line (lineNumber + 1) with
          | ok request => exact ih hrest _ _ _
          | error e =>
            dsimp only
            split
            · exact ih hrest _ _ _
            · rfl

theorem finishTimed_eq_ok {requests : List ReplayRequest} {skipped : Multiset TimedFault}
    {replay : TimedReplay} :
    finishTimed requests skipped = .ok replay ↔ requests ≠ [] ∧ replay = ⟨requests, skipped⟩ := by
  rw [finishTimed]
  split
  · rename_i hnil
    exact ⟨nofun, fun h => absurd hnil h.1⟩
  · rename_i hsome
    exact ⟨fun h => ⟨hsome, (Except.ok.inj h).symm⟩, fun h => congrArg _ h.2.symm⟩

theorem finishRequests_of_ne_nil {requests : List ReplayRequest} (skipped : SkippedRecords)
    (h : requests ≠ []) : finishRequests requests skipped = .ok ⟨requests, skipped⟩ := by
  rw [finishRequests, if_neg h]

section Settling

variable (json : JsonLibrary) (times : TimeLibrary) (schema : TimedSchema) (asked : Bool)

/-- The time of the record in a line is read, if there is one. -/
def TimeRead (raw : List UInt8) : Prop :=
  ∀ line, recordText raw = .ok line → trim line ≠ [] →
    ∃ micros, lineTime json times schema asked line = .ok micros

variable {json times schema asked} {skip : Bool} {lineNumber : ℕ} {lines : List (List UInt8)}
  {requests plain : List ReplayRequest} {skipped : Multiset TimedFault}
  {plainSkipped : SkippedRecords} {replay : TimedReplay}

/-- What is read with times is read without them, where no record gets lost. -/
theorem settle_of_settleTimed
    (h : settleTimed (decodeTimed json times schema asked) skip lineNumber lines requests skipped =
      .ok replay) (hsublist : (requests.map withoutTime).Sublist plain)
    (hcount : requests.length + skipped.card = plain.length + plainSkipped.card) :
    ∃ untimed,
      settle skip lineNumber (verdictsFrom (decodeValue json schema.fields) lineNumber lines) plain
        plainSkipped = .ok untimed ∧
      (replay.requests.map withoutTime).Sublist untimed.requests ∧
      replay.requests.length + replay.skippedRecords.card =
        untimed.requests.length + untimed.skippedRecords.card := by
  induction lines generalizing lineNumber requests skipped plain plainSkipped with
  | nil =>
    obtain ⟨hsome, rfl⟩ := finishTimed_eq_ok.mp h
    have hplain : plain ≠ [] := by
      rintro rfl
      exact hsome (List.map_eq_nil_iff.mp (List.sublist_nil.mp hsublist))
    exact ⟨_, finishRequests_of_ne_nil plainSkipped hplain, hsublist, hcount⟩
  | cons raw lines ih =>
    rw [settleTimed] at h
    rw [verdictsFrom, verdict]
    cases htext : recordText raw with
    | error fault =>
      rw [htext] at h
      cases h
    | ok line =>
      rw [htext] at h
      dsimp only at h ⊢
      by_cases hblank : trim line = []
      · rw [if_pos hblank] at h
        rw [if_pos hblank]
        exact ih h hsublist hcount
      · rw [if_neg hblank] at h
        rw [if_neg hblank]
        cases hdecode : decodeTimed json times schema asked line (lineNumber + 1) with
        | ok request =>
          rw [hdecode] at h
          rw [(decodeTimed_eq_ok.mp hdecode).1]
          refine ih h ?_ ?_
          · rw [List.map_append]
            exact hsublist.append (List.Sublist.refl _)
          · simp only [List.length_append, List.length_singleton]
            omega
        | error e =>
          rw [hdecode] at h
          dsimp only at h
          split at h
          · rename_i hskip
            -- without its time the record may be valid
            cases decodeValue json schema.fields line (lineNumber + 1) with
            | ok request =>
              refine ih h (hsublist.trans (List.sublist_append_left _ _)) ?_
              rw [Multiset.card_cons, List.length_append, List.length_singleton]
              omega
            | error plainFault =>
              dsimp only
              rw [settle, if_pos hskip]
              refine ih h hsublist ?_
              rw [Multiset.card_cons, Multiset.card_cons]
              omega
          · cases h

/-- Without skipping every time is read. -/
theorem timesRead_of_settleTimed
    (h : settleTimed (decodeTimed json times schema asked) false lineNumber lines requests
      skipped = .ok replay) :
    replay.skippedRecords = skipped ∧ ∀ raw ∈ lines, TimeRead json times schema asked raw := by
  induction lines generalizing lineNumber requests with
  | nil =>
    obtain ⟨-, rfl⟩ := finishTimed_eq_ok.mp h
    exact ⟨rfl, List.forall_mem_nil _⟩
  | cons raw lines ih =>
    rw [settleTimed] at h
    rw [List.forall_mem_cons]
    cases htext : recordText raw with
    | error fault =>
      rw [htext] at h
      cases h
    | ok line =>
      rw [htext] at h
      dsimp only at h
      by_cases hblank : trim line = []
      · rw [if_pos hblank] at h
        obtain ⟨hskipped, hread⟩ := ih h
        refine ⟨hskipped, fun line' htext' hsome => ?_, hread⟩
        cases htext.symm.trans htext'
        exact absurd hblank hsome
      · rw [if_neg hblank] at h
        cases hdecode : decodeTimed json times schema asked line (lineNumber + 1) with
        | error e =>
          rw [hdecode] at h
          cases h
        | ok request =>
          rw [hdecode] at h
          obtain ⟨hskipped, hread⟩ := ih h
          refine ⟨hskipped, fun line' htext' _ => ?_, hread⟩
          cases htext.symm.trans htext'
          exact ⟨_, (decodeTimed_eq_ok.mp hdecode).2⟩

/-- Where every time is read, what is read without times is read with them. -/
theorem settleTimed_of_settle {untimed : RequestFileReplay}
    (h : settle false lineNumber (verdictsFrom (decodeValue json schema.fields) lineNumber lines)
      plain plainSkipped = .ok untimed)
    (hread : ∀ raw ∈ lines, TimeRead json times schema asked raw)
    (hsome : requests = [] → plain = []) :
    ∃ replay, settleTimed (decodeTimed json times schema asked) false lineNumber lines requests
      skipped = .ok replay := by
  induction lines generalizing lineNumber requests plain with
  | nil =>
    obtain ⟨hplain, -⟩ := finishRequests_eq_ok h
    exact ⟨_, finishTimed_eq_ok.mpr ⟨fun hnil => hplain (hsome hnil), rfl⟩⟩
  | cons raw lines ih =>
    rw [List.forall_mem_cons] at hread
    rw [verdictsFrom, verdict] at h
    rw [settleTimed]
    cases htext : recordText raw with
    | error fault =>
      rw [htext] at h
      cases h
    | ok line =>
      rw [htext] at h
      dsimp only at h ⊢
      by_cases hblank : trim line = []
      · rw [if_pos hblank] at h
        rw [if_pos hblank]
        exact ih h hread.2 hsome
      · rw [if_neg hblank] at h
        rw [if_neg hblank]
        cases hplain : decodeValue json schema.fields line (lineNumber + 1) with
        | error e =>
          rw [hplain] at h
          cases h
        | ok request =>
          rw [hplain] at h
          obtain ⟨micros, hmicros⟩ := hread.1 line htext hblank
          have hmark : withoutTime { request with timestampMicros := micros } = request := by
            rw [withoutTime, ← timestampMicros_of_decodeValue hplain]
          have hdecode : decodeTimed json times schema asked line (lineNumber + 1) =
              .ok { request with timestampMicros := micros } :=
            decodeTimed_eq_ok.mpr ⟨hplain.trans (congrArg _ hmark.symm), hmicros⟩
          rw [hdecode]
          refine ih h hread.2 fun hnil => absurd hnil ?_
          exact List.append_ne_nil_of_right_ne_nil _ (List.cons_ne_nil _ _)

/-- Where no time is read, lines are settled as without times. -/
theorem settleTimed_of_unasked {requests : List ReplayRequest} (hasked : asked = false)
    (hschema : schema.timestamp = none) :
    settleTimed (decodeTimed json times schema asked) skip lineNumber lines requests
        (plainSkipped.map .record) =
      ((settle skip lineNumber (verdictsFrom (decodeValue json schema.fields) lineNumber lines)
        requests plainSkipped).mapError FileFault.timed).map RequestFileReplay.timed := by
  induction lines generalizing lineNumber requests plainSkipped with
  | nil =>
    rw [settleTimed, verdictsFrom, settle, finishTimed, finishRequests, Multiset.card_map]
    split
    · rw [SkippedRecords.total]
      split <;> rfl
    · rfl
  | cons raw lines ih =>
    rw [settleTimed, verdictsFrom, verdict]
    cases recordText raw with
    | error fault => rfl
    | ok line =>
      dsimp only
      by_cases hblank : trim line = []
      · rw [if_pos hblank, if_pos hblank]
        exact ih
      · rw [if_neg hblank, if_neg hblank, decodeTimed_of_unasked hasked hschema]
        cases decodeValue json schema.fields line (lineNumber + 1) with
        | ok request => exact ih
        | error e =>
          change (if skip then settleTimed (decodeTimed json times schema asked) skip
            (lineNumber + 1) lines requests (.record e.fault ::ₘ plainSkipped.map .record)
            else .error (.record e.timed)) = _
          rw [settle, ← Multiset.map_cons, ih]
          cases skip <;> rfl

end Settling

section Files

variable (json : JsonLibrary) (times : TimeLibrary) (bytes : List UInt8) (schema : TimedSchema)
  (asked skip : Bool)

theorem readTimed_eq :
    readTimed json times bytes schema asked skip =
      settleTimed (decodeTimed json times schema asked) skip 0 (rawLines bytes) [] 0 :=
  timedLoop_eq (Nat.lt_succ_self _) 0 [] 0

/-- Times mark the requests and do nothing else. Where none is read, the file is read as without
times. What is read with times are requests that are read without them, and a record whose time is
not valid is skipped and counted; without skipping, a file is read with times if it is read without
them and every time is read, and the requests are the same. -/
theorem times_only_mark :
    (asked = false → schema.timestamp = none →
      readTimed json times bytes schema asked skip =
        ((readRecords json bytes schema.fields skip).mapError FileFault.timed).map
          RequestFileReplay.timed) ∧
    (∀ replay, readTimed json times bytes schema asked skip = .ok replay →
      ∃ untimed, readRecords json bytes schema.fields skip = .ok untimed ∧
        (replay.requests.map withoutTime).Sublist untimed.requests ∧
        replay.requests.length + replay.skippedRecords.card =
          untimed.requests.length + untimed.skippedRecords.card ∧
        (skip = false → replay.requests.map withoutTime = untimed.requests)) ∧
    ((∃ replay, readTimed json times bytes schema asked false = .ok replay) ↔
      (∃ untimed, readRecords json bytes schema.fields false = .ok untimed) ∧
        ∀ raw ∈ rawLines bytes, TimeRead json times schema asked raw) := by
  have hplain : ∀ skip, readRecords json bytes schema.fields skip =
      settle skip 0 (verdictsFrom (decodeValue json schema.fields) 0 (rawLines bytes)) [] 0 :=
    fun skip => decodeRecords_eq skip bytes
  have hread : ∀ skip replay, readTimed json times bytes schema asked skip = .ok replay →
      ∃ untimed, readRecords json bytes schema.fields skip = .ok untimed ∧
        (replay.requests.map withoutTime).Sublist untimed.requests ∧
        replay.requests.length + replay.skippedRecords.card =
          untimed.requests.length + untimed.skippedRecords.card := by
    intro skip replay h
    rw [readTimed_eq] at h
    rw [hplain]
    exact settle_of_settleTimed h (List.Sublist.refl _) rfl
  refine ⟨fun hasked hschema => ?_, fun replay h => ?_, ?_⟩
  · have hunasked : settleTimed (decodeTimed json times schema asked) skip 0 (rawLines bytes) []
        ((0 : SkippedRecords).map TimedFault.record) = _ := settleTimed_of_unasked hasked hschema
    rw [readTimed_eq, hplain, ← hunasked, Multiset.map_zero]
  · obtain ⟨untimed, huntimed, hsublist, hcount⟩ := hread skip replay h
    refine ⟨untimed, huntimed, hsublist, hcount, ?_⟩
    rintro rfl
    rw [readTimed_eq] at h
    rw [hplain] at huntimed
    have hnone := (timesRead_of_settleTimed h).1
    have hplainNone := (settle_strict huntimed).2
    rw [hnone, hplainNone, Multiset.card_zero, Multiset.card_zero] at hcount
    exact hsublist.eq_of_length (by rw [List.length_map]; omega)
  · constructor
    · rintro ⟨replay, h⟩
      obtain ⟨untimed, huntimed, -⟩ := hread false replay h
      rw [readTimed_eq] at h
      exact ⟨⟨untimed, huntimed⟩, (timesRead_of_settleTimed h).2⟩
    · rintro ⟨⟨untimed, huntimed⟩, htimes⟩
      rw [hplain] at huntimed
      rw [readTimed_eq]
      exact settleTimed_of_settle huntimed htimes fun _ => rfl

end Files

/-- A record with a time, and libraries that read it. -/
def timedRecord : List Char := "\x7b\"uri\":\"/\",\"timestamp_micros\":7\x7d".toList

def timedRecordLibrary : JsonLibrary where
  read line :=
    if line = timedRecord then
      some (.object [(some "uri".toList, .string (some ['/'])),
        (some "timestamp_micros".toList, .number ['7'])])
    else none
  inRange _ := true

def noTimes : TimeLibrary := ⟨fun _ _ => false, fun _ _ => none⟩

theorem times_only_mark_sample :
    ∃ replay untimed,
      readTimed timedRecordLibrary noTimes (encodeUtf8 timedRecord) {} true false = .ok replay ∧
        replay.requests.map (·.timestampMicros) = [some 7] ∧
        readRecords timedRecordLibrary (encodeUtf8 timedRecord) {} false = .ok untimed ∧
        replay.requests.map withoutTime = untimed.requests := by
  have hmarked : (readTimed timedRecordLibrary noTimes (encodeUtf8 timedRecord) {} true
      false).toOption.map (·.requests.map (·.timestampMicros)) = some [some 7] := by
    decide +kernel
  obtain ⟨replay, hreplay, htimes⟩ := Option.map_eq_some_iff.mp hmarked
  have hread := ok_of_toOption hreplay
  obtain ⟨-, hmark, -⟩ := times_only_mark timedRecordLibrary noTimes (encodeUtf8 timedRecord) {}
    true false
  obtain ⟨untimed, huntimed, -, -, hsame⟩ := hmark replay hread
  exact ⟨replay, untimed, hread, htimes, huntimed, hsame rfl⟩

end Rload.RequestFile
