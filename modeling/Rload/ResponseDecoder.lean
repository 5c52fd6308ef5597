import Rload.RunErrors
import Rload.TextScanning

/-!
# The incremental response decoder

`feed` takes the next fragment of a response. The head is collected up to its blank line,
then decides how the body is framed: by a length, by chunks, or by the end of the
connection. Chunks are decoded by a machine of four phases over a buffer.
-/

namespace Rload
open TextScanning

def maxHeaderBytes : ℕ := 64 * 1024

/-- `usize` and `u64` hold the numbers below this one. -/
def wordLimit : ℕ := 2 ^ 64

structure ParsedResponse where
  status : ℕ
  bodyLength : ℕ
  connectionClose : Bool
  deriving DecidableEq, Repr

inductive BodyFraming where
  | contentLength (length : ℕ)
  | chunked
  | closeDelimited
  deriving DecidableEq, Repr

structure ResponseHead where
  status : ℕ
  connectionClose : Bool
  framing : BodyFraming
  deriving DecidableEq, Repr

def invalidResponse (message : String) : Halt := .error (.invalidResponse message)

def crlf : List UInt8 := [13, 10]

def blankLine : List UInt8 := [13, 10, 13, 10]

def findBytes (haystack needle : List UInt8) : Option ℕ := firstOccurrence needle haystack

def headerValue (lines : List (List Char)) (expectedName : String) : Option (List Char) :=
  lines.findSome? fun line =>
    (splitOnce ':' line).bind fun (name, value) =>
      if eqIgnoreAsciiCase name expectedName.toList then some (trim value) else none

def headersHaveToken (lines : List (List Char)) (name expectedToken : String) : Bool :=
  (((lines.filterMap (splitOnce ':')).filter
    fun (headerName, _) => eqIgnoreAsciiCase headerName name.toList).flatMap
      fun (_, value) => (value.splitOn ',').map trim).any
        fun token => eqIgnoreAsciiCase token expectedToken.toList

def bodyFraming (headerLines : List (List Char)) : BodyFraming :=
  if headersHaveToken headerLines "transfer-encoding" "chunked" then .chunked
  else match (headerValue headerLines "content-length").bind (parseUnsigned 10 wordLimit) with
    | some length => .contentLength length
    | none => .closeDelimited

def parseResponseHead (header : List UInt8) : Except Halt ResponseHead :=
  match decodeUtf8 header with
  | none => .error (invalidResponse "headers are not valid ASCII")
  | some headers =>
    match splitCrlf headers with
    | [] => .error (invalidResponse "status line is invalid")
    | statusLine :: headerLines =>
      match (splitWhitespace statusLine)[1]?.bind (parseUnsigned 10 (2 ^ 16)) with
      | none => .error (invalidResponse "status line is invalid")
      | some status =>
        let connectionClose := headersHaveToken headerLines "connection" "close" ||
          ("HTTP/1.0".toList.isPrefixOf statusLine &&
            !headersHaveToken headerLines "connection" "keep-alive")
        .ok ⟨status, connectionClose, bodyFraming headerLines⟩

inductive ChunkPhase where
  | size
  | data (remaining : ℕ)
  | dataEnding
  | trailers
  deriving DecidableEq, Repr

structure ChunkedDecoder where
  buffer : List UInt8
  phase : ChunkPhase
  total : ℕ
  deriving DecidableEq, Repr

/-- How one pass of the loop in `ChunkedDecoder::feed` ends. -/
inductive Pass where
  | next (decoder : ChunkedDecoder)
  | wait (decoder : ChunkedDecoder)
  | finished (decoder : ChunkedDecoder)
  | failed (halt : Halt) (decoder : ChunkedDecoder)
  deriving DecidableEq, Repr

namespace ChunkedDecoder

def new : ChunkedDecoder := ⟨[], .size, 0⟩

def controlTooLong : Halt := invalidResponse "chunk control data exceed 64 KiB"

/-- `check_control_size`, after which the loop breaks. -/
def waitForControl (d : ChunkedDecoder) : Pass :=
  if maxHeaderBytes < d.buffer.length then .failed controlTooLong d else .wait d

def chunkSize (line : List UInt8) : Option ℕ :=
  (decodeUtf8 line).bind fun text =>
    (text.splitOn ';').head?.bind (parseUnsigned 16 wordLimit)

/-- The body of the loop in `feed`. -/
def pass (d : ChunkedDecoder) : Pass :=
  match d.phase with
  | .size =>
    match findBytes d.buffer crlf with
    | none => d.waitForControl
    | some lineEnd =>
      if maxHeaderBytes < lineEnd then .failed controlTooLong d
      else match chunkSize (d.buffer.take lineEnd) with
        | none => .failed (invalidResponse "chunk size is invalid") d
        | some size =>
          .next { d with
            buffer := d.buffer.drop (lineEnd + 2)
            phase := if size = 0 then .trailers else .data size }
  | .data remaining =>
    let consumed := min d.buffer.length remaining
    let d' := { d with
      buffer := d.buffer.drop consumed
      total := d.total + consumed
      phase := if consumed = remaining then .dataEnding else .data (remaining - consumed) }
    if consumed = 0 then .wait d' else .next d'
  | .dataEnding =>
    if d.buffer.length < 2 then .wait d
    else if d.buffer.take 2 ≠ crlf then
      .failed (invalidResponse "chunk is not CRLF terminated") d
    else .next { d with buffer := d.buffer.drop 2, phase := .size }
  | .trailers =>
    if crlf.isPrefixOf d.buffer then .finished d
    else match findBytes d.buffer blankLine with
      | some sectionEnd =>
        if maxHeaderBytes < sectionEnd then .failed controlTooLong d else .finished d
      | none => d.waitForControl

/-- The loop. Every pass but the last one shortens the buffer, so that `fuel` above its
length lets the loop end by itself. -/
def loop : ℕ → ChunkedDecoder → Pass
  | 0, d => .wait d
  | fuel + 1, d =>
    match d.pass with
    | .next d' => loop fuel d'
    | p => p

def feed (d : ChunkedDecoder) (data : List UInt8) (eof : Bool) :
    Except Halt (Option ℕ) × ChunkedDecoder :=
  match loop ((d.buffer ++ data).length + 1) { d with buffer := d.buffer ++ data } with
  | .finished d => (.ok (some d.total), d)
  | .failed halt d => (.error halt, d)
  | .next d | .wait d =>
    (if eof then .error (invalidResponse "chunked response body is incomplete") else .ok none, d)

end ChunkedDecoder

inductive BodyDecoder where
  | waiting
  | contentLength (remaining total : ℕ)
  | chunked (decoder : ChunkedDecoder)
  | closeDelimited (total : ℕ)
  deriving DecidableEq, Repr

def BodyDecoder.consume (b : BodyDecoder) (data : List UInt8) (eof : Bool) :
    Except Halt (Option ℕ) × BodyDecoder :=
  match b with
  | .waiting => (.error (.panic "body decoder is configured after headers"), b)
  | .contentLength remaining total =>
    let consumed := min data.length remaining
    let remaining := remaining - consumed
    let total := total + consumed
    (if remaining = 0 then .ok (some total)
      else if eof then .error (invalidResponse "response body is incomplete")
      else .ok none,
      .contentLength remaining total)
  | .chunked decoder =>
    let (result, decoder) := decoder.feed data eof
    (result, .chunked decoder)
  | .closeDelimited total =>
    let total := total + data.length
    (.ok (if eof then some total else none), .closeDelimited total)

structure ResponseDecoder where
  header : List UInt8
  head : Option ResponseHead
  body : BodyDecoder
  noBody : Bool
  deriving DecidableEq, Repr

namespace ResponseDecoder

def new (noBody : Bool) : ResponseDecoder := ⟨[], none, .waiting, noBody⟩

def consumeBody (d : ResponseDecoder) (data : List UInt8) (eof : Bool) :
    Except Halt (Option ParsedResponse) × ResponseDecoder :=
  let (result, body) := d.body.consume data eof
  let d := { d with body := body }
  match result with
  | .error halt => (.error halt, d)
  | .ok none => (.ok none, d)
  | .ok (some bodyLength) =>
    match d.head with
    | none => (.error (.panic "response head is parsed"), d)
    | some head => (.ok (some ⟨head.status, bodyLength, head.connectionClose⟩), d)

def bodyOf (noBody : Bool) (framing : BodyFraming) : BodyDecoder :=
  if noBody then .contentLength 0 0
  else match framing with
    | .contentLength length => .contentLength length 0
    | .chunked => .chunked ChunkedDecoder.new
    | .closeDelimited => .closeDelimited 0

def headersTooLong : Halt := invalidResponse "response headers exceed 64 KiB"

def feed (d : ResponseDecoder) (data : List UInt8) (eof : Bool) :
    Except Halt (Option ParsedResponse) × ResponseDecoder :=
  if d.head.isSome then d.consumeBody data eof
  else
    let d := { d with header := d.header ++ data }
    match findBytes d.header blankLine with
    | none =>
      (if maxHeaderBytes < d.header.length then .error headersTooLong
        else if eof then .error (invalidResponse "headers are incomplete")
        else .ok none, d)
    | some headerEnd =>
      if maxHeaderBytes < headerEnd then (.error headersTooLong, d)
      else
        let body := d.header.drop (headerEnd + 4)
        let d := { d with header := d.header.take headerEnd }
        match parseResponseHead d.header with
        | .error halt => (.error halt, d)
        | .ok head =>
          { d with body := bodyOf d.noBody head.framing, head := some head }.consumeBody body eof

end ResponseDecoder

theorem noIo_invalidResponse {α : Type} (message : String) :
    Avoids Halt.isIo (.error (invalidResponse message) : Except Halt α) := avoids_error rfl

theorem parseResponseHead_noIo (header : List UInt8) :
    Avoids Halt.isIo (parseResponseHead header) := by
  unfold parseResponseHead
  split
  · exact noIo_invalidResponse _
  · split
    · exact noIo_invalidResponse _
    · split
      · exact noIo_invalidResponse _
      · exact avoids_ok _

namespace ChunkedDecoder

/-- What a pass does, with all that it has found. -/
inductive Passes : ChunkedDecoder → Pass → Prop
  | openLine {buffer : List UInt8} {total : ℕ} (hline : findBytes buffer crlf = none)
      (hshort : buffer.length ≤ maxHeaderBytes) :
      Passes ⟨buffer, .size, total⟩ (.wait ⟨buffer, .size, total⟩)
  | endlessLine {buffer : List UInt8} {total : ℕ} (hline : findBytes buffer crlf = none)
      (hlong : maxHeaderBytes < buffer.length) :
      Passes ⟨buffer, .size, total⟩ (.failed controlTooLong ⟨buffer, .size, total⟩)
  | longLine {buffer : List UInt8} {total lineEnd : ℕ}
      (hline : findBytes buffer crlf = some lineEnd) (hlong : maxHeaderBytes < lineEnd) :
      Passes ⟨buffer, .size, total⟩ (.failed controlTooLong ⟨buffer, .size, total⟩)
  | noSize {buffer : List UInt8} {total lineEnd : ℕ}
      (hline : findBytes buffer crlf = some lineEnd) (hlimit : lineEnd ≤ maxHeaderBytes)
      (hsize : chunkSize (buffer.take lineEnd) = none) :
      Passes ⟨buffer, .size, total⟩
        (.failed (invalidResponse "chunk size is invalid") ⟨buffer, .size, total⟩)
  | size {buffer : List UInt8} {total lineEnd size : ℕ}
      (hline : findBytes buffer crlf = some lineEnd) (hlimit : lineEnd ≤ maxHeaderBytes)
      (hsize : chunkSize (buffer.take lineEnd) = some size) :
      Passes ⟨buffer, .size, total⟩
        (.next ⟨buffer.drop (lineEnd + 2), if size = 0 then .trailers else .data size, total⟩)
  | noData {buffer : List UInt8} {total remaining : ℕ}
      (hnone : min buffer.length remaining = 0) :
      Passes ⟨buffer, .data remaining, total⟩
        (.wait ⟨buffer.drop (min buffer.length remaining),
          if min buffer.length remaining = remaining then .dataEnding
            else .data (remaining - min buffer.length remaining),
          total + min buffer.length remaining⟩)
  | data {buffer : List UInt8} {total remaining : ℕ}
      (hsome : min buffer.length remaining ≠ 0) :
      Passes ⟨buffer, .data remaining, total⟩
        (.next ⟨buffer.drop (min buffer.length remaining),
          if min buffer.length remaining = remaining then .dataEnding
            else .data (remaining - min buffer.length remaining),
          total + min buffer.length remaining⟩)
  | shortEnding {buffer : List UInt8} {total : ℕ} (hshort : buffer.length < 2) :
      Passes ⟨buffer, .dataEnding, total⟩ (.wait ⟨buffer, .dataEnding, total⟩)
  | noEnding {buffer : List UInt8} {total : ℕ} (hlong : 2 ≤ buffer.length)
      (hending : ¬ crlf <+: buffer) :
      Passes ⟨buffer, .dataEnding, total⟩
        (.failed (invalidResponse "chunk is not CRLF terminated") ⟨buffer, .dataEnding, total⟩)
  | ending {buffer : List UInt8} {total : ℕ} (hending : crlf <+: buffer) :
      Passes ⟨buffer, .dataEnding, total⟩ (.next ⟨buffer.drop 2, .size, total⟩)
  | noTrailers {buffer : List UInt8} {total : ℕ} (hending : crlf <+: buffer) :
      Passes ⟨buffer, .trailers, total⟩ (.finished ⟨buffer, .trailers, total⟩)
  | longTrailers {buffer : List UInt8} {total sectionEnd : ℕ} (hsome : ¬ crlf <+: buffer)
      (hend : findBytes buffer blankLine = some sectionEnd)
      (hlong : maxHeaderBytes < sectionEnd) :
      Passes ⟨buffer, .trailers, total⟩ (.failed controlTooLong ⟨buffer, .trailers, total⟩)
  | trailers {buffer : List UInt8} {total sectionEnd : ℕ} (hsome : ¬ crlf <+: buffer)
      (hend : findBytes buffer blankLine = some sectionEnd)
      (hlimit : sectionEnd ≤ maxHeaderBytes) :
      Passes ⟨buffer, .trailers, total⟩ (.finished ⟨buffer, .trailers, total⟩)
  | openTrailers {buffer : List UInt8} {total : ℕ} (hsome : ¬ crlf <+: buffer)
      (hend : findBytes buffer blankLine = none) (hshort : buffer.length ≤ maxHeaderBytes) :
      Passes ⟨buffer, .trailers, total⟩ (.wait ⟨buffer, .trailers, total⟩)
  | endlessTrailers {buffer : List UInt8} {total : ℕ} (hsome : ¬ crlf <+: buffer)
      (hend : findBytes buffer blankLine = none) (hlong : maxHeaderBytes < buffer.length) :
      Passes ⟨buffer, .trailers, total⟩ (.failed controlTooLong ⟨buffer, .trailers, total⟩)

theorem take_two_eq_iff {buffer : List UInt8} : buffer.take 2 = crlf ↔ crlf <+: buffer :=
  eq_comm.trans List.prefix_iff_eq_take.symm

theorem Passes.pass_eq {d : ChunkedDecoder} {p : Pass} (h : d.Passes p) : d.pass = p := by
  cases h with
  | openLine hline hshort => simp [pass, waitForControl, hline, Nat.not_lt_of_le hshort]
  | endlessLine hline hlong => simp [pass, waitForControl, hline, hlong]
  | longLine hline hlong => simp [pass, hline, hlong]
  | noSize hline hlimit hsize => simp [pass, hline, Nat.not_lt_of_le hlimit, hsize]
  | size hline hlimit hsize => simp [pass, hline, Nat.not_lt_of_le hlimit, hsize]
  | noData hnone =>
    rw [pass]
    simp only [if_pos hnone]
  | data hsome =>
    rw [pass]
    simp only [if_neg hsome]
  | shortEnding hshort => simp [pass, hshort]
  | noEnding hlong hending =>
    simp [pass, Nat.not_lt_of_le hlong, mt take_two_eq_iff.mp hending]
  | ending hending =>
    have hlong : 2 ≤ _ := hending.length_le
    simp [pass, Nat.not_lt_of_le hlong, take_two_eq_iff.mpr hending]
  | noTrailers hending => simp [pass, hending]
  | longTrailers hsome hend hlong => simp [pass, hsome, hend, hlong]
  | trailers hsome hend hlimit => simp [pass, hsome, hend, Nat.not_lt_of_le hlimit]
  | openTrailers hsome hend hshort =>
    simp [pass, waitForControl, hsome, hend, Nat.not_lt_of_le hshort]
  | endlessTrailers hsome hend hlong => simp [pass, waitForControl, hsome, hend, hlong]

theorem passes_pass (d : ChunkedDecoder) : d.Passes d.pass := by
  obtain ⟨buffer, phase, total⟩ := d
  cases phase with
  | size =>
    simp only [pass, waitForControl]
    split
    · rename_i hline
      split
      · rename_i hlong
        exact .endlessLine hline hlong
      · rename_i hshort
        exact .openLine hline (Nat.le_of_not_lt hshort)
    · rename_i lineEnd hline
      split
      · rename_i hlong
        exact .longLine hline hlong
      · rename_i hlimit
        split
        · rename_i hsize
          exact .noSize hline (Nat.le_of_not_lt hlimit) hsize
        · rename_i size hsize
          exact .size hline (Nat.le_of_not_lt hlimit) hsize
  | data remaining =>
    simp only [pass]
    split
    · rename_i hnone
      exact .noData hnone
    · rename_i hsome
      exact .data hsome
  | dataEnding =>
    simp only [pass]
    split
    · rename_i hshort
      exact .shortEnding hshort
    · rename_i hlong
      split
      · rename_i hending
        exact .noEnding (Nat.le_of_not_lt hlong) (mt take_two_eq_iff.mpr hending)
      · rename_i hending
        exact .ending (take_two_eq_iff.mp (not_not.mp hending))
  | trailers =>
    simp only [pass, waitForControl, List.isPrefixOf_iff_prefix]
    split
    · rename_i hending
      exact .noTrailers hending
    · rename_i hsome
      split
      · rename_i sectionEnd hend
        split
        · rename_i hlong
          exact .longTrailers hsome hend hlong
        · rename_i hlimit
          exact .trailers hsome hend (Nat.le_of_not_lt hlimit)
      · rename_i hend
        split
        · rename_i hlong
          exact .endlessTrailers hsome hend hlong
        · rename_i hshort
          exact .openTrailers hsome hend (Nat.le_of_not_lt hshort)

theorem passes_iff {d : ChunkedDecoder} {p : Pass} : d.Passes p ↔ d.pass = p :=
  ⟨Passes.pass_eq, fun h => h ▸ d.passes_pass⟩

theorem pass_noIo {d d' : ChunkedDecoder} {halt : Halt} (h : d.pass = .failed halt d') :
    halt.isIo = false := by
  cases passes_iff.mpr h with
  | _ => rfl

theorem loop_noIo (fuel : ℕ) {d d' : ChunkedDecoder} {halt : Halt}
    (h : loop fuel d = .failed halt d') : halt.isIo = false := by
  induction fuel generalizing d with
  | zero => cases h
  | succ fuel ih =>
    rw [loop] at h
    cases hp : d.pass with
    | next d₁ =>
      rw [hp] at h
      exact ih h
    | wait d₁ =>
      rw [hp] at h
      cases h
    | finished d₁ =>
      rw [hp] at h
      cases h
    | failed halt₁ d₁ =>
      rw [hp] at h
      cases h
      exact pass_noIo hp

theorem feed_noIo (d : ChunkedDecoder) (data : List UInt8) (eof : Bool) :
    Avoids Halt.isIo (d.feed data eof).1 := by
  unfold feed
  split
  · exact avoids_ok _
  · exact avoids_error (loop_noIo _ ‹_›)
  all_goals
    dsimp only
    split
    · exact noIo_invalidResponse _
    · exact avoids_ok _

end ChunkedDecoder

theorem BodyDecoder.consume_noIo (b : BodyDecoder) (data : List UInt8) (eof : Bool) :
    Avoids Halt.isIo (b.consume data eof).1 := by
  cases b with
  | waiting => exact avoids_error rfl
  | contentLength remaining total =>
    simp only [consume]
    split
    · exact avoids_ok _
    · split
      · exact noIo_invalidResponse _
      · exact avoids_ok _
  | chunked decoder => exact decoder.feed_noIo data eof
  | closeDelimited total => exact avoids_ok _

namespace ResponseDecoder

theorem consumeBody_noIo (d : ResponseDecoder) (data : List UInt8) (eof : Bool) :
    Avoids Halt.isIo (d.consumeBody data eof).1 := by
  have hbody := d.body.consume_noIo data eof
  unfold consumeBody
  dsimp only
  split
  · exact avoids_error (hbody _ ‹_›)
  · exact avoids_ok _
  · split
    · exact avoids_error rfl
    · exact avoids_ok _

theorem feed_noIo (d : ResponseDecoder) (data : List UInt8) (eof : Bool) :
    Avoids Halt.isIo (d.feed data eof).1 := by
  unfold feed
  split
  · exact consumeBody_noIo _ _ _
  · dsimp only
    split
    · dsimp only
      split
      · exact avoids_error rfl
      · split
        · exact noIo_invalidResponse _
        · exact avoids_ok _
    · split
      · exact avoids_error rfl
      · split
        · exact avoids_error (parseResponseHead_noIo _ _ ‹_›)
        · exact consumeBody_noIo _ _ _

end ResponseDecoder

end Rload
