import Rload.RequestEncoding
import Rload.RunErrors

/-!
# Access logs

Each line of an access log gives a request: the words of its first quoted field are the method,
the path and the version. The text in brackets is the time of the request. Arithmetic on `i64`
panics on overflow where the build checks for it, and wraps around elsewhere.
-/

namespace Rload.AccessLog
open TextScanning

inductive ParsedLine where
  | request (r : ReplayRequest)
  | skippedMethod (method : List Char)
  deriving DecidableEq, Repr

def i64Limit : ℕ := 2 ^ 63

/-- The result of an operation on `i64`. -/
def i64 (overflowChecks : Bool) (operation : String) (x : ℤ) : Except Halt ℤ :=
  if -(i64Limit : ℤ) ≤ x ∧ x < i64Limit then .ok x
  else if overflowChecks then .error (.panic ("attempt to " ++ operation ++ " with overflow"))
  else .ok (x.bmod (2 ^ 64))

section Arithmetic

variable (overflowChecks : Bool)

def add (x y : ℤ) : Except Halt ℤ := i64 overflowChecks "add" (x + y)

def sub (x y : ℤ) : Except Halt ℤ := i64 overflowChecks "subtract" (x - y)

def mul (x y : ℤ) : Except Halt ℤ := i64 overflowChecks "multiply" (x * y)

/-- `div_euclid` is the division of integers here, and `/` truncates. -/
def daysFromCivil (year month day : ℤ) : Except Halt ℤ := do
  let year ← sub overflowChecks year (if month ≤ 2 then 1 else 0)
  let era := year / 400
  let yearOfEra ← sub overflowChecks year (← mul overflowChecks era 400)
  let shiftedMonth ← add overflowChecks month (if month > 2 then -3 else 9)
  let dayOfYear ← sub overflowChecks
    (← add overflowChecks
      ((← add overflowChecks (← mul overflowChecks 153 shiftedMonth) 2).tdiv 5) day) 1
  let dayOfEra ← add overflowChecks
    (← sub overflowChecks
      (← add overflowChecks (← mul overflowChecks yearOfEra 365) (yearOfEra.tdiv 4))
      (yearOfEra.tdiv 100)) dayOfYear
  sub overflowChecks (← add overflowChecks (← mul overflowChecks era 146097) dayOfEra) 719468

end Arithmetic

def monthNumber (month : List Char) : Option ℤ :=
  (["Jan", "Feb", "Mar", "Apr", "May", "Jun", "Jul", "Aug", "Sep", "Oct", "Nov", "Dec"].findIdx?
    fun name => name.toList = month).map fun index => (index : ℤ) + 1

/-- `parse::<i64>`. -/
def parseI64 (text : List Char) : Option ℤ := parseSigned i64Limit text

/-- `text[first..last]`. -/
def slice (text : List Char) (first last : ℕ) : Except Halt (List Char) :=
  orHalt (.panic "byte index is not a char boundary")
    (decodeUtf8 (((encodeUtf8 text).take last).drop first))

def isAsciiDigitChar (c : Char) : Bool := 48 ≤ c.toNat && c.toNat ≤ 57

/-- The digits after the decimal point, as microseconds. -/
def fractionMicros (fraction : List Char) : Option ℤ :=
  if fraction = [] then some 0
  else (parseI64 fraction).map (· * 10 ^ (6 - fraction.length))

def offsetSign : List Char → Option ℤ
  | '+' :: _ => some 1
  | '-' :: _ => some (-1)
  | _ => none

/-- `none` inside is a text that is no time. -/
def parseTimestamp (overflowChecks : Bool) (value : List Char) : Except Halt (Option ℤ) :=
  OptionT.run do
    let (dateTime, offset) ← (rsplitOnce ' ' value).getM
    let (date, time) ← (splitOnce ':' dateTime).getM
    let [day, month, year] := date.splitOn '/' | failure
    let day ← (parseI64 day).getM
    let month ← (monthNumber month).getM
    let year ← (parseI64 year).getM
    let hour :: minute :: seconds :: more := time.splitOn ':' | failure
    let hour ← (parseI64 hour).getM
    let minute ← (parseI64 minute).getM
    if more ≠ [] ∨ day = 0 ∨ day > 31 ∨ hour > 23 ∨ minute > 59 then failure
    let (second, fraction) := (splitOnce '.' seconds).getD (seconds, [])
    let second ← (parseI64 second).getM
    if second > 60 ∨ 6 < (encodeUtf8 fraction).length ∨ !fraction.all isAsciiDigitChar then
      failure
    let fraction ← (fractionMicros fraction).getM
    let sign ← (offsetSign offset).getM
    if (encodeUtf8 offset).length ≠ 5 then failure
    let offsetHour ← (parseI64 (← slice offset 1 3)).getM
    let offsetMinute ← (parseI64 (← slice offset 3 5)).getM
    if offsetHour > 23 ∨ offsetMinute > 59 then failure
    let add := add overflowChecks
    let sub := sub overflowChecks
    let mul := mul overflowChecks
    let days ← daysFromCivil overflowChecks year month day
    let localSeconds ←
      add (← add (← add (← mul days 86400) (← mul hour 3600)) (← mul minute 60)) second
    let offsetSeconds ← mul sign (← add (← mul offsetHour 3600) (← mul offsetMinute 60))
    add (← mul (← sub localSeconds offsetSeconds) 1000000) fraction

def invalid (lineNumber : ℕ) (message : String) : Halt :=
  .error (.invalidAccessLog (s!"line {lineNumber}: {message}"))

/-- What stands between the first character `opening` and the first character `closing` after
it. -/
def enclosed (opening closing : Char) (line : List Char) : Option (List Char) :=
  (splitOnce opening line).bind fun (_, remainder) =>
    (splitOnce closing remainder).map Prod.fst

def lineTimestamp (overflowChecks : Bool) (line : List Char) : Except Halt (Option ℤ) :=
  match enclosed '[' ']' line with
  | some value => parseTimestamp overflowChecks value
  | none => .ok none

/-- The fields after the method. -/
def parseFields (lineNumber : ℕ) (timestampMicros : Option ℤ) (method : Method)
    (fields : List (List Char)) : Except Halt ParsedLine := do
  let path ← orHalt (invalid lineNumber "request URI must use origin form")
    (fields.head?.filter fun path =>
      ['/'].isPrefixOf path && !path.contains '\r' && !path.contains '\n')
  let _ ← orHalt (invalid lineNumber "HTTP version must be HTTP/1.0 or HTTP/1.1")
    (fields[1]?.filter fun version =>
      version = "HTTP/1.0".toList || version = "HTTP/1.1".toList)
  if 2 < fields.length then .error (invalid lineNumber "request field has unexpected fields")
  else .ok (.request (.new method path [] [] false timestampMicros))

def parseLine (overflowChecks : Bool) (line : List Char) (lineNumber : ℕ) :
    Except Halt ParsedLine := do
  let request ← orHalt (invalid lineNumber "quoted request field is missing")
    (enclosed '"' '"' line)
  let timestampMicros ← lineTimestamp overflowChecks line
  match splitWhitespace request with
  | [] => .error (invalid lineNumber "request field is empty")
  | method :: fields =>
    if method = "GET".toList then parseFields lineNumber timestampMicros .get fields
    else if method = "HEAD".toList then parseFields lineNumber timestampMicros .head fields
    else .ok (.skippedMethod method)

example : parseTimestamp true "10/Oct/2000:13:55:36.250 -0700".toList =
    .ok (some 971211336250000) := by decide +kernel

/-- What a request of a log line is made of. -/
theorem parseLine_request {overflowChecks : Bool} {line : List Char} {lineNumber : ℕ}
    {r : ReplayRequest} (h : parseLine overflowChecks line lineNumber = .ok (.request r)) :
    (r.method = .get ∨ r.method = .head) ∧ r.headers = [] ∧ r.body = [] ∧ r.path ≠ [] ∧
      ∀ c ∈ r.path, isWhitespace c = false := by
  obtain ⟨request, -, h⟩ := ok_of_bind h
  obtain ⟨timestampMicros, -, h⟩ := ok_of_bind h
  have hfields : ∀ method fields,
      parseFields lineNumber timestampMicros method fields = .ok (.request r) →
      r.method = method ∧ r.headers = [] ∧ r.body = [] ∧ r.path ∈ fields := by
    intro method fields h
    obtain ⟨path, hpath, h⟩ := ok_of_bind h
    obtain ⟨version, -, h⟩ := ok_of_bind h
    have hmem : path ∈ fields := by
      have hhead := Option.filter_eq_some_iff.mp (some_of_orHalt hpath)
      exact List.mem_of_mem_head? hhead.1
    split at h
    · cases h
    · cases h
      exact ⟨rfl, rfl, rfl, hmem⟩
  split at h
  · cases h
  · rename_i method fields hwords
    have hpath : r.path ∈ fields → r.path ≠ [] ∧ ∀ c ∈ r.path, isWhitespace c = false := by
      intro hmem
      apply word_of_mem_splitWhitespace
      rw [hwords]
      exact List.mem_cons_of_mem method hmem
    split at h
    · obtain ⟨hmethod, hheaders, hbody, hmem⟩ := hfields _ _ h
      exact ⟨Or.inl hmethod, hheaders, hbody, hpath hmem⟩
    · split at h
      · obtain ⟨hmethod, hheaders, hbody, hmem⟩ := hfields _ _ h
        exact ⟨Or.inr hmethod, hheaders, hbody, hpath hmem⟩
      · cases h

end Rload.AccessLog
