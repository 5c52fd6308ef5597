import Rload.JsonDocuments
import Rload.RequestEncoding

/-!
# Request files

Each line of a request file is a JSON record of a request. Records are decoded into a request as
they are written, or, with a schema, from the value of the document by the paths of the schema.
The JSON library is a parameter: it reads a text as a document, and takes some numbers to be out of
range. Times of records are left out.
-/

namespace Rload.RequestFile
open TextScanning JsonDocuments

structure JsonRequest where
  method : Option (List Char)
  uri : List Char
  args : Option (List Char)
  headers : TextMap (List Char)
  body : Option (List Char)

/-- Why a record is not valid. The code has these as messages: "record exceeds 1 MiB", "record is
not valid UTF-8", "invalid JSON: {error}", "{field} must be a string", "{field} is required",
"headers must be an object of string values", "unsupported method {method}" and those of a request
that is not valid. -/
inductive RecordFault where
  | tooLong
  | notUtf8
  | invalidJson
  | notString (field : String)
  | required (field : String)
  | headersNotStrings
  | unsupportedMethod (name : List Char)
  | request (fault : RequestFault)
  deriving DecidableEq, Repr

/-- The message "line {line}: {fault}". -/
structure InvalidRecord where
  line : ℕ
  fault : RecordFault
  deriving DecidableEq, Repr

def appendQuery (uri : List Char) (args : Option (List Char)) : List Char :=
  match args.filter (· ≠ []) with
  | none => uri
  | some args =>
    if '?' ∈ uri then
      if uri.getLast? = some '?' ∧ args.head? = some '&' then uri ++ args
      else
        let added := if args.head? = some '?' ∨ args.head? = some '&' then args.drop 1 else args
        if uri.getLast? = some '?' ∨ uri.getLast? = some '&' then uri ++ added
        else uri ++ '&' :: added
    else if args.head? = some '?' then uri ++ args
    else uri ++ '?' :: args

def validate (request : JsonRequest) (line : ℕ) : Except InvalidRecord ReplayRequest :=
  let name := request.method.getD "GET".toList
  match Method.all.find? fun method => method.asStr = name with
  | none => .error ⟨line, .unsupportedMethod name⟩
  | some method =>
    let replay : ReplayRequest :=
      .new method (appendQuery request.uri request.args) request.headers.toList
        (encodeUtf8 (request.body.getD [])) request.body.isSome none
    match validateRequest replay with
    | .error fault => .error ⟨line, .request fault⟩
    | .ok _ => .ok replay

/-- The value of a field of a structure, which must not be repeated. -/
def structField (field : String) (members : List (Option (List Char) × Json)) :
    Option (Option Json) :=
  match members.filter fun m => m.1 = some field.toList with
  | [] => some none
  | [m] => some (some m.2)
  | _ => none

/-- `Option<String>`, which takes `null`. -/
def optionText : Json → Option (Option (List Char))
  | .null => some none
  | json => json.text?.map some

/-- An absent field has a default. -/
def orDefault {α : Type} (default : α) (read : Json → Option α) : Option Json → Option α
  | none => some default
  | some json => read json

/-- A member whose key and value are texts. -/
def textMember (m : Option (List Char) × Json) : Option (List Char × List Char) :=
  m.1.bind fun key => member Json.text? (key, m.2)

/-- `BTreeMap<String, String>`. -/
def textMap : Json → Option (TextMap (List Char))
  | .object members => (members.mapM textMember).map TextMap.collect
  | _ => none

/-- A structure from an object. Other fields are ignored. -/
def requestOfObject (members : List (Option (List Char) × Json)) : Option JsonRequest :=
  if members.any fun m => m.1 = none then none
  else do
    let method ← orDefault none optionText (← structField "method" members)
    let uri ← (← structField "uri" members).bind Json.text?
    let args ← orDefault none optionText (← structField "args" members)
    let headers ← orDefault ∅ textMap (← structField "headers" members)
    let body ← orDefault none optionText (← structField "body" members)
    some { method := method, uri := uri, args := args, headers := headers, body := body }

/-- A structure from an array, with its fields by their positions. -/
def requestOfArray (items : List Json) : Option JsonRequest :=
  if 5 < items.length then none
  else do
    let method ← orDefault none optionText items[0]?
    let uri ← items[1]?.bind Json.text?
    let args ← orDefault none optionText items[2]?
    let headers ← orDefault ∅ textMap items[3]?
    let body ← orDefault none optionText items[4]?
    some { method := method, uri := uri, args := args, headers := headers, body := body }

def jsonRequest : Json → Option JsonRequest
  | .object members => requestOfObject members
  | .array items => requestOfArray items
  | _ => none

/-- `Value::get` of a key. -/
def get (value : Value) (key : List Char) : Option Value :=
  match value with
  | .object members => lastValue key members
  | _ => none

/-- The paths of a schema without times. -/
structure CompiledSchema where
  method : Option (List (List Char)) := none
  uri : Option (List (List Char)) := none
  args : Option (List (List Char)) := none
  headers : Option (List (List Char)) := none
  body : Option (List (List Char)) := none

def valueAt (value : Value) (path : List (List Char)) : Option Value := path.foldlM get value

def valueFor (value : Value) (path : Option (List (List Char))) (fallback : String) :
    Option Value :=
  match path with
  | none => get value fallback.toList
  | some path => valueAt value path

def optionalString (value : Option Value) (line : ℕ) (field : String) :
    Except InvalidRecord (Option (List Char)) :=
  match value with
  | none | some .null => .ok none
  | some (.string text) => .ok (some text)
  | some _ => .error ⟨line, .notString field⟩

def requiredString (value : Option Value) (line : ℕ) (field : String) :
    Except InvalidRecord (List Char) :=
  match optionalString value line field with
  | .error e => .error e
  | .ok none => .error ⟨line, .required field⟩
  | .ok (some text) => .ok text

/-- `from_value` of a map of texts. -/
def mapFromValue : Value → Option (TextMap (List Char))
  | .object members =>
    ((TextMap.collect members).toList.mapM (member Value.text?)).map TextMap.collect
  | _ => none

def headersOf (value : Option Value) (line : ℕ) : Except InvalidRecord (TextMap (List Char)) :=
  match value with
  | none | some .null => .ok ∅
  | some value =>
    match mapFromValue value with
    | none => .error ⟨line, .headersNotStrings⟩
    | some headers => .ok headers

def validateValue (value : Value) (schema : CompiledSchema) (line : ℕ) :
    Except InvalidRecord ReplayRequest := do
  let method ← optionalString (valueFor value schema.method "method") line "method"
  let uri ← requiredString (valueFor value schema.uri "uri") line "uri"
  let args ← optionalString (valueFor value schema.args "args") line "args"
  let headers ← headersOf (valueFor value schema.headers "headers") line
  let body ← optionalString (valueFor value schema.body "body") line "body"
  validate { method := method, uri := uri, args := args, headers := headers, body := body } line

/-- The JSON library. -/
structure JsonLibrary where
  /-- The document that a text is. -/
  read : List Char → Option Json
  /-- Whether a number is in the range of floating point. -/
  inRange : List Char → Bool

/-- How deep arrays and objects of a value may stand inside each other. -/
def maxDepth : ℕ := 127

def decodeRequest (json : JsonLibrary) (line : List Char) (lineNumber : ℕ) :
    Except InvalidRecord ReplayRequest :=
  match (json.read line).bind jsonRequest with
  | none => .error ⟨lineNumber, .invalidJson⟩
  | some request => validate request lineNumber

def decodeValue (json : JsonLibrary) (schema : CompiledSchema) (line : List Char)
    (lineNumber : ℕ) : Except InvalidRecord ReplayRequest :=
  match (json.read line).bind (toValue json.inRange maxDepth) with
  | none => .error ⟨lineNumber, .invalidJson⟩
  | some value => validateValue value schema lineNumber

def maxLineBytes : ℕ := 1024 * 1024

/-- The line without its ending. -/
def withoutEnding (bytes : List UInt8) : List UInt8 :=
  let line := if bytes.getLast? = some 10 then bytes.dropLast else bytes
  if line.getLast? = some 13 then line.dropLast else line

/-- The bytes up to the first line feed, of the first `maxLineBytes + 1`. -/
def readUntil (bytes : List UInt8) : List UInt8 :=
  let taken := bytes.take (maxLineBytes + 1)
  taken.takeWhile (· ≠ 10) ++ (taken.dropWhile (· ≠ 10)).take 1

/-- The next line, and the bytes after it. -/
def readLine (bytes : List UInt8) (lineNumber : ℕ) :
    Except InvalidRecord (Option (List Char × List UInt8)) :=
  let read := readUntil bytes
  if read = [] then .ok none
  else if maxLineBytes < read.length then .error ⟨lineNumber + 1, .tooLong⟩
  else
    match decodeUtf8 (withoutEnding read) with
    | none => .error ⟨lineNumber + 1, .notUtf8⟩
    | some line => .ok (some (line, bytes.drop read.length))

/-- How often each reason was the one for a record to be skipped. -/
abbrev SkippedRecords := Multiset RecordFault

def SkippedRecords.total (s : SkippedRecords) : ℕ := s.card

structure RequestFileReplay where
  requests : List ReplayRequest
  skippedRecords : SkippedRecords

/-- Why a file is not valid: a record, "request file contains no requests", or "request file
contains no valid requests; skipped {skipped} records". -/
inductive FileFault where
  | record (e : InvalidRecord)
  | noRequests
  | noValidRequests (skipped : ℕ)
  deriving DecidableEq, Repr

def finishRequests (requests : List ReplayRequest) (skipped : SkippedRecords) :
    Except FileFault RequestFileReplay :=
  if requests = [] then
    .error (if skipped.total = 0 then .noRequests else .noValidRequests skipped.total)
  else .ok ⟨requests, skipped⟩

section Records

variable (decode : List Char → ℕ → Except InvalidRecord ReplayRequest)
  (skipInvalidRecords : Bool)

/-- The loop over the lines. Each line has a byte, so that fuel above their number is enough. -/
def decodeLoop : ℕ → List UInt8 → ℕ → List ReplayRequest → SkippedRecords →
    Except FileFault RequestFileReplay
  | 0, _, _, requests, skipped => finishRequests requests skipped
  | fuel + 1, bytes, lineNumber, requests, skipped =>
    match readLine bytes lineNumber with
    | .error e => .error (.record e)
    | .ok none => finishRequests requests skipped
    | .ok (some (line, rest)) =>
      if trim line = [] then decodeLoop fuel rest (lineNumber + 1) requests skipped
      else
        match decode line (lineNumber + 1) with
        | .ok request => decodeLoop fuel rest (lineNumber + 1) (requests ++ [request]) skipped
        | .error e =>
          if skipInvalidRecords then
            decodeLoop fuel rest (lineNumber + 1) requests (e.fault ::ₘ skipped)
          else .error (.record e)

def decodeRecords (bytes : List UInt8) : Except FileFault RequestFileReplay :=
  decodeLoop decode skipInvalidRecords (bytes.length + 1) bytes 0 [] 0

end Records

def readFrom (json : JsonLibrary) (bytes : List UInt8) (skipInvalidRecords : Bool) :
    Except FileFault RequestFileReplay :=
  decodeRecords (decodeRequest json) skipInvalidRecords bytes

def readRecords (json : JsonLibrary) (bytes : List UInt8) (schema : CompiledSchema)
    (skipInvalidRecords : Bool) : Except FileFault RequestFileReplay :=
  decodeRecords (decodeValue json schema) skipInvalidRecords bytes

end Rload.RequestFile
