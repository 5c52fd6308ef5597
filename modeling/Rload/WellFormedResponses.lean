import Rload.ResponseDecoder

/-!
# Well-formed responses

The grammar of a response, written independently of the decoder: a status line, header
lines, and a body framed by a length, by chunks or by the end of the connection. A value of
these types is a response together with its layout on the wire.
-/

namespace Rload.WellFormedResponses
open TextScanning

/-- The longest head, size line or trailer section that the grammar below allows. -/
def controlLimit : ℕ := 65533

structure Line where
  text : List Char
  ne_nil : text ≠ []
  no_cr : '\r' ∉ text
  no_lf : '\n' ∉ text

/-- The line is a `Content-Length` or `Transfer-Encoding` field. -/
def Line.AddsFraming (l : Line) : Prop :=
  ∃ name value, splitOnce ':' l.text = some (name, value) ∧
    (eqIgnoreAsciiCase name "content-length".toList ∨
      eqIgnoreAsciiCase name "transfer-encoding".toList)

structure StatusLine where
  minor : Char
  code : List Char
  status : ℕ
  tail : List Char
  minor_digit : (digitValue 10 minor).isSome
  code_length : code.length = 3
  code_value : numeral 10 code = some status
  tail_reason : tail = [] ∨ ∃ reason, tail = ' ' :: reason
  no_cr : '\r' ∉ tail
  no_lf : '\n' ∉ tail

def versionPrefix : List Char := "HTTP/1.".toList

def StatusLine.text (s : StatusLine) : List Char :=
  versionPrefix ++ [s.minor] ++ ' ' :: s.code ++ s.tail

/-- Optional white space. -/
def IsBlank (cs : List Char) : Prop := ∀ c ∈ cs, c = ' ' ∨ c = '\t'

/-- A `Content-Length` field of value `n`. -/
structure LengthField (n : ℕ) where
  name : List Char
  lead : List Char
  digits : List Char
  trail : List Char
  name_eq : eqIgnoreAsciiCase name "content-length".toList
  lead_blank : IsBlank lead
  trail_blank : IsBlank trail
  value : numeral 10 digits = some n

def LengthField.text {n : ℕ} (f : LengthField n) : List Char :=
  f.name ++ ':' :: (f.lead ++ f.digits ++ f.trail)

/-- A `Transfer-Encoding` field whose list of codings has the coding `chunked`. -/
structure ChunkedField where
  name : List Char
  front : List Char
  lead : List Char
  coding : List Char
  trail : List Char
  back : List Char
  name_eq : eqIgnoreAsciiCase name "transfer-encoding".toList
  front_list : front = [] ∨ ∃ codings, front = codings ++ [',']
  lead_blank : IsBlank lead
  coding_eq : eqIgnoreAsciiCase coding "chunked".toList
  trail_blank : IsBlank trail
  back_list : back = [] ∨ ∃ codings, back = ',' :: codings
  no_cr : '\r' ∉ front ++ back
  no_lf : '\n' ∉ front ++ back

def ChunkedField.text (f : ChunkedField) : List Char :=
  f.name ++ ':' :: (f.front ++ (f.lead ++ f.coding ++ f.trail) ++ f.back)

/-- A size line that announces `size` bytes. -/
structure SizeLine (size : ℕ) where
  digits : List Char
  extension : List Char
  value : numeral 16 digits = some size
  extension_eq : extension = [] ∨ ∃ e, extension = ';' :: e
  no_cr : '\r' ∉ extension
  no_lf : '\n' ∉ extension
  length_le : (encodeUtf8 (digits ++ extension)).length ≤ controlLimit

def SizeLine.bytes {size : ℕ} (l : SizeLine size) : List UInt8 :=
  encodeUtf8 (l.digits ++ l.extension)

structure Chunk where
  data : List UInt8
  data_ne_nil : data ≠ []
  size_lt : data.length < wordLimit
  line : SizeLine data.length

def Chunk.bytes (c : Chunk) : List UInt8 := c.line.bytes ++ crlf ++ c.data ++ crlf

/-- The zero chunk and the trailer lines. -/
structure LastChunk where
  line : SizeLine 0
  trailers : List (List UInt8)
  ne_nil : ∀ t ∈ trailers, t ≠ []
  no_cr : ∀ t ∈ trailers, 13 ∉ t
  no_lf : ∀ t ∈ trailers, 10 ∉ t
  length_le : (crlf.intercalate trailers).length ≤ controlLimit

def LastChunk.trailerBytes (l : LastChunk) : List UInt8 :=
  l.trailers.flatMap (· ++ crlf) ++ crlf

def LastChunk.bytes (l : LastChunk) : List UInt8 := l.line.bytes ++ crlf ++ l.trailerBytes

inductive Body where
  | sized (payload : List UInt8) (size_lt : payload.length < wordLimit)
      (field : LengthField payload.length)
  | chunked (chunks : List Chunk) (last : LastChunk) (field : ChunkedField)
  | untilClose (payload : List UInt8)

namespace Body

/-- The header line that announces the framing. -/
def fieldText : Body → Option (List Char)
  | sized _ _ field => some field.text
  | chunked _ _ field => some field.text
  | untilClose _ => none

def bytes : Body → List UInt8
  | sized payload _ _ => payload
  | chunked chunks last _ => chunks.flatMap Chunk.bytes ++ last.bytes
  | untilClose payload => payload

def payloadLength : Body → ℕ
  | sized payload _ _ => payload.length
  | chunked chunks _ _ => (chunks.map (·.data.length)).sum
  | untilClose payload => payload.length

/-- The body ends with the connection. -/
def endsWithConnection : Body → Bool
  | untilClose _ => true
  | _ => false

end Body

structure Response where
  statusLine : StatusLine
  before : List Line
  after : List Line
  body : Body
  before_plain : ∀ l ∈ before, ¬ l.AddsFraming
  after_plain : ∀ l ∈ after, ¬ l.AddsFraming
  head_le : (encodeUtf8 (['\r', '\n'].intercalate (statusLine.text ::
    (before.map Line.text ++ body.fieldText.toList ++ after.map Line.text)))).length ≤ controlLimit

namespace Response

def headerTexts (r : Response) : List (List Char) :=
  r.before.map Line.text ++ r.body.fieldText.toList ++ r.after.map Line.text

/-- The head up to its blank line. -/
def head (r : Response) : List UInt8 :=
  encodeUtf8 (['\r', '\n'].intercalate (r.statusLine.text :: r.headerTexts))

def bytes (r : Response) : List UInt8 := r.head ++ blankLine ++ r.body.bytes

end Response

end Rload.WellFormedResponses
