import Rload.TextScanning

/-!
# HTTP/1.1 requests on a stream

A parser of the requests on a connection, by the grammar of the message syntax: a request line
of three words, header fields up to an empty line, and a body as long as the fields say. Lines
end with CRLF, and neither byte of it stands elsewhere in a head. White space around the value
of a field is no part of it.
-/

namespace Rload.HttpRequests
open TextScanning

/-- CR and LF. -/
def lineEnd : List UInt8 := [13, 10]

def isDigit (b : UInt8) : Bool := 48 ≤ b && b ≤ 57

/-- The bytes of a token. -/
def isTokenByte (b : UInt8) : Bool :=
  isDigit b || (65 ≤ b && b ≤ 90) || (97 ≤ b && b ≤ 122) ||
    b ∈ [33, 35, 36, 37, 38, 39, 42, 43, 45, 46, 94, 95, 96, 124, 126]

def isToken (bytes : List UInt8) : Bool := !bytes.isEmpty && bytes.all isTokenByte

/-- Space and tab. -/
def isBlank (b : UInt8) : Bool := b = 32 || b = 9

def trimBlank (bytes : List UInt8) : List UInt8 := (bytes.dropWhile isBlank).rdropWhile isBlank

def lowerByte (b : UInt8) : UInt8 := if 65 ≤ b && b ≤ 90 then b + 32 else b

/-- Names of fields are compared without regard to case. -/
def sameName (a b : List UInt8) : Bool := a.map lowerByte = b.map lowerByte

/-- The number that a non-empty string of decimal digits denotes. -/
def decimalValue (bytes : List UInt8) : Option ℕ :=
  if bytes ≠ [] ∧ bytes.all isDigit then
    some (bytes.foldl (fun n b => 10 * n + (b.toNat - 48)) 0)
  else none

structure Field where
  name : List UInt8
  value : List UInt8
  deriving DecidableEq, Repr

structure Request where
  method : List UInt8
  target : List UInt8
  fields : List Field
  body : List UInt8
  deriving DecidableEq, Repr

def version : List UInt8 := [72, 84, 84, 80, 47, 49, 46, 49]
def hostName : List UInt8 := [104, 111, 115, 116]
def contentLengthName : List UInt8 :=
  [99, 111, 110, 116, 101, 110, 116, 45, 108, 101, 110, 103, 116, 104]
def transferEncodingName : List UInt8 :=
  [116, 114, 97, 110, 115, 102, 101, 114, 45, 101, 110, 99, 111, 100, 105, 110, 103]

/-- A line, without its ending, and what follows. -/
def takeLine (bytes : List UInt8) : Option (List UInt8 × List UInt8) :=
  (firstOccurrence lineEnd bytes).bind fun n =>
    if 13 ∈ bytes.take n ∨ 10 ∈ bytes.take n then none
    else some (bytes.take n, bytes.drop (n + 2))

/-- The method and the target of a request line. -/
def parseRequestLine (line : List UInt8) : Option (List UInt8 × List UInt8) :=
  match line.splitOn 32 with
  | [method, target, last] =>
    if isToken method ∧ target ≠ [] ∧ last = version then some (method, target) else none
  | _ => none

def parseField (line : List UInt8) : Option Field :=
  match line.dropWhile (· ≠ 58) with
  | [] => none
  | _ :: value =>
    let name := line.takeWhile (· ≠ 58)
    if isToken name then some ⟨name, trimBlank value⟩ else none

/-- The fields up to the empty line, and what follows it. Each line takes bytes, so that fuel
above their number is enough. -/
def parseFields : ℕ → List UInt8 → Option (List Field × List UInt8)
  | 0, _ => none
  | fuel + 1, bytes =>
    (takeLine bytes).bind fun (line, rest) =>
      if line = [] then some ([], rest)
      else (parseField line).bind fun field =>
        (parseFields fuel rest).map fun (fields, rest) => (field :: fields, rest)

def values (name : List UInt8) (fields : List Field) : List (List UInt8) :=
  (fields.filter fun field => sameName field.name name).map Field.value

/-- The length of the body: the number that all `Content-Length` fields have, or 0 if there is
none. A transfer coding has no length in advance. -/
def bodyLength (fields : List Field) : Option ℕ :=
  if values transferEncodingName fields ≠ [] then none
  else match values contentLengthName fields with
    | [] => some 0
    | value :: others =>
      (decimalValue value).bind fun n =>
        if others.all (decimalValue · = some n) then some n else none

/-- The first request of a stream, which has one host, and what follows it. -/
def parseRequest (bytes : List UInt8) : Option (Request × List UInt8) :=
  (takeLine bytes).bind fun (line, rest) =>
    (parseRequestLine line).bind fun (method, target) =>
      (parseFields (rest.length + 1) rest).bind fun (fields, rest) =>
        if (values hostName fields).length ≠ 1 then none
        else (bodyLength fields).bind fun length =>
          if rest.length < length then none
          else some (⟨method, target, fields, rest.take length⟩, rest.drop length)

def parseLoop : ℕ → List UInt8 → Option (List Request)
  | _, [] => some []
  | 0, _ => none
  | fuel + 1, bytes =>
    (parseRequest bytes).bind fun (request, rest) =>
      (parseLoop fuel rest).map (request :: ·)

/-- All requests of a stream, if it has nothing else. -/
def parseRequests (bytes : List UInt8) : Option (List Request) := parseLoop bytes.length bytes

/-- A field line with white space or not around its value. -/
structure FieldLine where
  name : List UInt8
  text : List UInt8
  name_token : isToken name
  no_cr : 13 ∉ text
  no_lf : 10 ∉ text

def FieldLine.field (l : FieldLine) : Field := ⟨l.name, trimBlank l.text⟩

def FieldLine.bytes (l : FieldLine) : List UInt8 := l.name ++ 58 :: l.text

/-- A request with the field lines as they are sent. -/
structure Message where
  method : List UInt8
  target : List UInt8
  lines : List FieldLine
  body : List UInt8
  method_token : isToken method
  target_ne_nil : target ≠ []
  target_word : ∀ b ∈ [13, 10, 32], b ∉ target
  one_host : (values hostName (lines.map FieldLine.field)).length = 1
  length_eq : bodyLength (lines.map FieldLine.field) = some body.length

namespace Message

def request (m : Message) : Request := ⟨m.method, m.target, m.lines.map FieldLine.field, m.body⟩

def requestLine (m : Message) : List UInt8 := m.method ++ 32 :: m.target ++ 32 :: version

def head (m : Message) : List UInt8 :=
  m.requestLine ++ lineEnd ++ m.lines.flatMap (fun l => l.bytes ++ lineEnd)

def bytes (m : Message) : List UInt8 := m.head ++ lineEnd ++ m.body

end Message

theorem isTokenByte_ne {b c : UInt8} (h : isTokenByte b) (hc : isTokenByte c = false) : b ≠ c := by
  rintro rfl
  rw [hc] at h
  cases h

theorem not_mem_of_isToken {bytes : List UInt8} (h : isToken bytes) {c : UInt8}
    (hc : isTokenByte c = false) : c ∉ bytes := by
  intro hmem
  rw [isToken, Bool.and_eq_true, List.all_eq_true] at h
  exact isTokenByte_ne (h.2 c hmem) hc rfl

theorem takeLine_append {line : List UInt8} (hcr : 13 ∉ line) (hlf : 10 ∉ line)
    (rest : List UInt8) : takeLine (line ++ lineEnd ++ rest) = some (line, rest) := by
  have hend : firstOccurrence lineEnd (line ++ lineEnd ++ rest) = some line.length := by
    rw [List.append_assoc, lineEnd, firstOccurrence_append_of_not_mem hcr,
      firstOccurrence_zero (by simp) (List.prefix_append _ _)]
    simp
  have htake : (line ++ lineEnd ++ rest).take line.length = line := by
    rw [List.append_assoc, List.take_left]
  have hdrop : (line ++ lineEnd ++ rest).drop (line.length + 2) = rest := by
    have hlength : line.length + 2 = (line ++ lineEnd).length := by
      rw [List.length_append]
      rfl
    rw [hlength, List.drop_left]
  rw [takeLine, hend, Option.bind_some, htake, hdrop, if_neg (by simp [hcr, hlf])]

theorem parseField_bytes (l : FieldLine) : parseField l.bytes = some l.field := by
  have hcolon : ∀ b ∈ l.name, decide (b ≠ 58) = true := by
    intro b hb
    exact decide_eq_true (ne_of_mem_of_not_mem hb (not_mem_of_isToken l.name_token (by decide)))
  have hdrop : l.bytes.dropWhile (· ≠ 58) = 58 :: l.text := by
    rw [FieldLine.bytes, List.dropWhile_append_of_pos hcolon]
    exact List.dropWhile_cons_of_neg (by simp)
  have htake : l.bytes.takeWhile (· ≠ 58) = l.name := by
    rw [FieldLine.bytes, List.takeWhile_append_of_pos hcolon]
    rw [List.takeWhile_cons_of_neg (by simp), List.append_nil]
  rw [parseField, hdrop, htake]
  exact if_pos l.name_token

theorem FieldLine.not_mem_bytes (l : FieldLine) {b : UInt8} (hb : isTokenByte b = false)
    (hcolon : b ≠ 58) (htext : b ∉ l.text) : b ∉ l.bytes := by
  intro hmem
  rw [FieldLine.bytes, List.mem_append, List.mem_cons] at hmem
  rcases hmem with hname | rfl | hmem
  · exact not_mem_of_isToken l.name_token hb hname
  · exact hcolon rfl
  · exact htext hmem

theorem length_le_flatMap {α β : Type*} {f : α → List β} {l : List α} (h : ∀ a ∈ l, f a ≠ []) :
    l.length ≤ (l.flatMap f).length := by
  induction l with
  | nil => exact Nat.zero_le _
  | cons a l ih =>
    have hpos := List.length_pos_of_ne_nil (h a List.mem_cons_self)
    have hrest := ih fun b hb => h b (List.mem_cons_of_mem a hb)
    rw [List.flatMap_cons, List.length_append, List.length_cons]
    omega

theorem parseFields_lines (lines : List FieldLine) (rest : List UInt8) {fuel : ℕ}
    (hfuel : lines.length < fuel) :
    parseFields fuel (lines.flatMap (fun l => l.bytes ++ lineEnd) ++ (lineEnd ++ rest)) =
      some (lines.map FieldLine.field, rest) := by
  induction lines generalizing fuel with
  | nil =>
    cases fuel with
    | zero => cases hfuel
    | succ fuel =>
      have hline : takeLine (lineEnd ++ rest) = some ([], rest) :=
        takeLine_append List.not_mem_nil List.not_mem_nil rest
      rw [List.flatMap_nil, List.nil_append, parseFields, hline]
      rfl
  | cons l lines ih =>
    cases fuel with
    | zero => cases hfuel
    | succ fuel =>
      have hcr := l.not_mem_bytes (by decide) (by decide) l.no_cr
      have hlf := l.not_mem_bytes (by decide) (by decide) l.no_lf
      have hne : l.bytes ≠ [] := by simp [FieldLine.bytes]
      rw [List.flatMap_cons, List.append_assoc, parseFields, takeLine_append hcr hlf,
        Option.bind_some]
      dsimp only
      rw [if_neg hne, parseField_bytes, Option.bind_some, ih (Nat.lt_of_succ_lt_succ hfuel)]
      rfl

theorem Message.splitOn_requestLine (m : Message) :
    m.requestLine.splitOn 32 = [m.method, m.target, version] := by
  have hspace : (32 : UInt8) ∉ m.method := not_mem_of_isToken m.method_token (by decide)
  have hword : (32 : UInt8) ∉ m.target := m.target_word 32 (by decide)
  have hall : ∀ {l : List UInt8}, 32 ∉ l → ∀ b ∈ l, (b == 32) = false := fun hnot b hb => by
    simpa using ne_of_mem_of_not_mem hb hnot
  rw [requestLine, List.append_assoc, List.cons_append, List.splitOn,
    List.splitOnP_append_cons_of_forall_mem (hall hspace) _ (by simp),
    List.splitOnP_append_cons_of_forall_mem (hall hword) _ (by simp)]
  rfl

theorem parseRequestLine_requestLine (m : Message) :
    parseRequestLine m.requestLine = some (m.method, m.target) := by
  rw [parseRequestLine, m.splitOn_requestLine]
  exact if_pos ⟨m.method_token, m.target_ne_nil, rfl⟩

theorem Message.requestLine_no_break (m : Message) : 13 ∉ m.requestLine ∧ 10 ∉ m.requestLine := by
  have hnot : ∀ b ∈ [(13 : UInt8), 10], isTokenByte b = false ∧ b ≠ 32 ∧ b ∉ version ∧
      b ∈ [(13 : UInt8), 10, 32] := by
    rw [List.forall_mem_cons, List.forall_mem_singleton]
    decide
  have hline : ∀ b ∈ [(13 : UInt8), 10], b ∉ m.requestLine := by
    intro b hb hmem
    obtain ⟨htoken, hspace, hversion, hword⟩ := hnot b hb
    rw [requestLine, List.mem_append, List.mem_append, List.mem_cons, List.mem_cons] at hmem
    rcases hmem with (hmem | hmem | hmem) | hmem | hmem
    · exact not_mem_of_isToken m.method_token htoken hmem
    · exact hspace hmem
    · exact m.target_word b hword hmem
    · exact hspace hmem
    · exact hversion hmem
  exact ⟨hline 13 (by decide), hline 10 (by decide)⟩

/-- A message is read as its request, whatever follows it. -/
theorem parseRequest_bytes (m : Message) (rest : List UInt8) :
    parseRequest (m.bytes ++ rest) = some (m.request, rest) := by
  obtain ⟨hcr, hlf⟩ := m.requestLine_no_break
  have hbytes : m.bytes ++ rest = m.requestLine ++ lineEnd ++
      (m.lines.flatMap (fun l => l.bytes ++ lineEnd) ++ (lineEnd ++ (m.body ++ rest))) := by
    simp only [Message.bytes, Message.head, List.append_assoc]
  have hfuel : m.lines.length < (m.lines.flatMap (fun l => l.bytes ++ lineEnd) ++
      (lineEnd ++ (m.body ++ rest))).length + 1 := by
    have hlines : m.lines.length ≤ (m.lines.flatMap (fun l => l.bytes ++ lineEnd)).length :=
      length_le_flatMap fun l _ => by simp [FieldLine.bytes]
    rw [List.length_append]
    omega
  rw [hbytes, parseRequest, takeLine_append hcr hlf, Option.bind_some]
  dsimp only
  rw [parseRequestLine_requestLine, Option.bind_some]
  dsimp only
  rw [parseFields_lines m.lines _ hfuel, Option.bind_some]
  dsimp only
  rw [m.one_host, if_neg (by simp), m.length_eq, Option.bind_some,
    if_neg (by simp), List.take_left, List.drop_left]
  rfl

/-- The messages of a stream are read one after the other, and nothing else is read. -/
theorem parseRequests_bytes (ms : List Message) :
    parseRequests (ms.flatMap Message.bytes) = some (ms.map Message.request) := by
  have hloop : ∀ fuel, ms.length ≤ fuel →
      parseLoop fuel (ms.flatMap Message.bytes) = some (ms.map Message.request) := by
    induction ms with
    | nil =>
      intro fuel _
      cases fuel <;> rfl
    | cons m ms ih =>
      intro fuel hfuel
      cases fuel with
      | zero => cases hfuel
      | succ fuel =>
        have hne : m.bytes ++ ms.flatMap Message.bytes ≠ [] := by
          simp [Message.bytes, lineEnd]
        rw [List.flatMap_cons, parseLoop]
        · rw [parseRequest_bytes, Option.bind_some]
          dsimp only
          rw [ih fuel (Nat.le_of_succ_le_succ hfuel)]
          rfl
        · exact hne
  exact hloop _ (length_le_flatMap fun m _ => by simp [Message.bytes, lineEnd])

/-- The stream is one request and nothing else, and its first line has three words. -/
structure IsOneRequest (r : Request) (bytes : List UInt8) : Prop where
  three_words : ∃ line rest, takeLine bytes = some (line, rest) ∧
    line.splitOn 32 = [r.method, r.target, version]
  read : parseRequests bytes = some [r]

theorem Message.isOneRequest (m : Message) : IsOneRequest m.request m.bytes := by
  constructor
  · obtain ⟨hcr, hlf⟩ := m.requestLine_no_break
    have hbytes : m.bytes = m.requestLine ++ lineEnd ++
        (m.lines.flatMap (fun l => l.bytes ++ lineEnd) ++ (lineEnd ++ m.body)) := by
      simp only [bytes, head, List.append_assoc]
    rw [hbytes]
    exact ⟨_, _, takeLine_append hcr hlf _, m.splitOn_requestLine⟩
  · have hread := parseRequests_bytes [m]
    rwa [List.flatMap_singleton] at hread

/-- The target of a single request is one word. -/
theorem IsOneRequest.target_word {r : Request} {bytes : List UInt8} (h : IsOneRequest r bytes) :
    ∀ b ∈ [13, 10, 32], b ∉ r.target := by
  obtain ⟨line, rest, hline, hwords⟩ := h.three_words
  have htarget : ∀ b ∈ r.target, (b == 32) = false ∧ b ∈ line := by
    intro b hb
    have hpiece : r.target ∈ line.splitOn 32 := by
      rw [hwords]
      exact List.mem_cons_of_mem _ List.mem_cons_self
    exact mem_of_mem_splitOnP hpiece hb
  obtain ⟨n, -, hn⟩ := Option.bind_eq_some_iff.mp hline
  split at hn
  · cases hn
  · rename_i hnot
    cases hn
    rw [not_or] at hnot
    intro b hb hmem
    obtain ⟨hspace, hmem⟩ := htarget b hmem
    simp only [List.mem_cons, List.not_mem_nil, or_false] at hb
    rcases hb with rfl | rfl | rfl
    · exact hnot.1 hmem
    · exact hnot.2 hmem
    · cases hspace

end Rload.HttpRequests
