import Rload.RequestSequence
import Rload.TextScanning

/-!
# Requests and their encoding

A request of the replay has a method, a path, headers and a body; requests from files and from
the command line are validated. The target of the run puts its host to them and encodes them.
A text is a list of characters here, and its length in the code is that of its UTF-8 encoding.
-/

namespace Rload
open TextScanning

/-- `Method::as_str`. -/
def Method.asStr : Method → List Char
  | .get => "GET".toList
  | .head => "HEAD".toList
  | .post => "POST".toList
  | .put => "PUT".toList
  | .patch => "PATCH".toList
  | .delete => "DELETE".toList
  | .options => "OPTIONS".toList

structure ReplayPayload where
  headers : List (List Char × List Char)
  body : List UInt8
  bodyPresent : Bool
  deriving DecidableEq, Repr

structure ReplayRequest where
  method : Method
  path : List Char
  payload : Option ReplayPayload
  timestampMicros : Option ℤ
  deriving DecidableEq, Repr

namespace ReplayRequest

def new (method : Method) (path : List Char) (headers : List (List Char × List Char))
    (body : List UInt8) (bodyPresent : Bool) (timestampMicros : Option ℤ) : ReplayRequest where
  method := method
  path := path
  payload := if headers ≠ [] ∨ body ≠ [] ∨ bodyPresent then some ⟨headers, body, bodyPresent⟩
    else none
  timestampMicros := timestampMicros

def headers (r : ReplayRequest) : List (List Char × List Char) :=
  match r.payload with
  | some payload => payload.headers
  | none => []

def body (r : ReplayRequest) : List UInt8 :=
  match r.payload with
  | some payload => payload.body
  | none => []

def bodyPresent (r : ReplayRequest) : Bool :=
  match r.payload with
  | some payload => payload.bodyPresent
  | none => false

end ReplayRequest

def maxRequestBodyBytes : ℕ := 512 * 1024

def maxUriBytes : ℕ := 8 * 1024

/-- The limit on all headers of a request. -/
def maxRequestHeaderBytes : ℕ := 64 * 1024

/-- Why a request is not valid. The code has these as messages: "URI must use origin form",
"body exceeds 512 KiB", "GET and HEAD requests must not contain a body", "invalid header name
{name:?}", "header {name} is managed by rload", "invalid value for header {name}" and "headers
exceed 64 KiB". -/
inductive RequestFault where
  | uriForm
  | bodyTooLong
  | bodyNotAllowed
  | headerName (name : List Char)
  | managedHeader (name : List Char)
  | headerValue (name : List Char)
  | headersTooLong
  deriving DecidableEq, Repr

def isAsciiDigit (b : UInt8) : Bool := 48 ≤ b && b ≤ 57

def isAsciiAlphanumeric (b : UInt8) : Bool :=
  isAsciiDigit b || (65 ≤ b && b ≤ 90) || (97 ≤ b && b ≤ 122)

def isAsciiHexdigit (b : UInt8) : Bool :=
  isAsciiDigit b || (65 ≤ b && b ≤ 70) || (97 ≤ b && b ≤ 102)

/-- The bytes `/?-._~!$&'()*+,;=:@`, letters and digits. -/
def isUriByte (b : UInt8) : Bool :=
  isAsciiAlphanumeric b ||
    b ∈ [47, 63, 45, 46, 95, 126, 33, 36, 38, 39, 40, 41, 42, 43, 44, 59, 61, 58, 64]

/-- The loop over the bytes: a percent sign is followed by two hexadecimal digits. -/
def validUriBytes : List UInt8 → Bool
  | [] => true
  | 37 :: first :: second :: bytes =>
    isAsciiHexdigit first && isAsciiHexdigit second && validUriBytes bytes
  | byte :: bytes => byte ≠ 37 && isUriByte byte && validUriBytes bytes

def validOriginForm (uri : List Char) : Bool :=
  (encodeUtf8 uri).head? = some 47 && !uri.contains '#' && validUriBytes (encodeUtf8 uri)

def validHeaderName (name : List Char) : Bool :=
  !name.isEmpty && (encodeUtf8 name).all fun byte =>
    isAsciiAlphanumeric byte ||
      byte ∈ [33, 35, 36, 37, 38, 39, 42, 43, 45, 46, 94, 95, 96, 124, 126]

def validHeaderValue (value : List Char) : Bool :=
  (encodeUtf8 value).all fun byte => byte = 9 || (32 ≤ byte && byte ≤ 126)

/-- The headers that the encoding adds or that would change the framing. -/
def reservedHeaders : List String :=
  ["host", "connection", "content-length", "transfer-encoding", "trailer", "expect"]

/-- The loop over the headers, which adds up their bytes. -/
def checkHeaders : ℕ → List (List Char × List Char) → Except RequestFault ℕ
  | headerBytes, [] => .ok headerBytes
  | headerBytes, (name, value) :: headers =>
    if !validHeaderName name then .error (.headerName name)
    else if reservedHeaders.any fun reserved => eqIgnoreAsciiCase name reserved.toList then
      .error (.managedHeader name)
    else if !validHeaderValue value then .error (.headerValue name)
    else checkHeaders
      (headerBytes + ((encodeUtf8 name).length + (encodeUtf8 value).length + 4)) headers

def validateRequest (request : ReplayRequest) : Except RequestFault Unit :=
  if maxUriBytes < (encodeUtf8 request.path).length ∨ !validOriginForm request.path then
    .error .uriForm
  else if maxRequestBodyBytes < request.body.length then .error .bodyTooLong
  else if (request.method = .get ∨ request.method = .head) ∧ request.bodyPresent then
    .error .bodyNotAllowed
  else do
    let headerBytes ← checkHeaders 0 request.headers
    if maxRequestHeaderBytes < headerBytes then .error .headersTooLong else .ok ()

structure Target where
  authority : List Char
  hostHeader : List Char
  path : List Char
  tlsServerName : Option (List Char)
  deriving DecidableEq, Repr

namespace Target

def requestFor (t : Target) (method : Method) (path : List Char) : List UInt8 :=
  encodeUtf8 (method.asStr ++ " ".toList ++ path ++ " HTTP/1.1\r\nHost: ".toList ++ t.hostHeader ++
    "\r\nConnection: keep-alive\r\n\r\n".toList)

def request (t : Target) (method : Method) : List UInt8 := t.requestFor method t.path

def encodedHeader (header : List Char × List Char) : List UInt8 :=
  encodeUtf8 header.1 ++ encodeUtf8 ": ".toList ++ encodeUtf8 header.2 ++ encodeUtf8 "\r\n".toList

def replayRequest (t : Target) (request : ReplayRequest) : List UInt8 :=
  encodeUtf8 (request.method.asStr ++ " ".toList ++ request.path ++
      " HTTP/1.1\r\nHost: ".toList ++ t.hostHeader ++ "\r\n".toList) ++
    request.headers.flatMap encodedHeader ++
    (if request.method = .get ∨ request.method = .head then []
      else encodeUtf8 ("Content-Length: ".toList ++ request.body.length.repr.toList ++
        "\r\n".toList)) ++
    encodeUtf8 "Connection: keep-alive\r\n\r\n".toList ++ request.body

/-- An entry of the sequence, with the place of the URI in the encoded request. -/
def encodedReplayRequest (t : Target) (request : ReplayRequest) : EncodedRequest :=
  let uriStart := (encodeUtf8 request.method.asStr).length + 1
  { bytes := t.replayRequest request
    methodUriStart := methodUriStart request.method uriStart
    uriEnd := UInt32.ofNat (uriStart + (encodeUtf8 request.path).length)
    timestampMicros := request.timestampMicros }

/-- The one entry where neither a replay nor a single request is given. -/
def encodedDefaultRequest (t : Target) (method : Method) : EncodedRequest :=
  let uriStart := (encodeUtf8 method.asStr).length + 1
  { bytes := t.request method
    methodUriStart := methodUriStart method uriStart
    uriEnd := UInt32.ofNat (uriStart + (encodeUtf8 t.path).length)
    timestampMicros := none }

end Target

end Rload
