import Rload.ResponseFragments

/-!
# What the chunked decoder accepts

A chunked body is a sequence of chunks with a zero size line and a trailer section after it. The
decoder takes sizes with a plus sign as well. Where there is none, it accepts nothing but such
bodies, and its total is that of the chunks.
-/

namespace Rload.ChunkedGrammar
open TextScanning

/-- The bytes of a line have no line ending. -/
def IsLine (line : List UInt8) : Prop := ¬ crlf <:+: line

/-- Hexadecimal digits, and perhaps an extension after a semicolon. -/
structure IsSizeLine (size : ℕ) (line : List UInt8) : Prop where
  isLine : IsLine line
  parts : ∃ (digits : List Char) (extension : List UInt8),
    line = encodeUtf8 digits ++ extension ∧ numeral 16 digits = some size ∧
      (extension = [] ∨ extension.head? = some 59)

structure Chunk where
  line : List UInt8
  data : List UInt8
  isSizeLine : IsSizeLine data.length line
  data_ne_nil : data ≠ []

def Chunk.bytes (c : Chunk) : List UInt8 := c.line ++ crlf ++ c.data ++ crlf

def bytesOf (chunks : List Chunk) : List UInt8 := chunks.flatMap Chunk.bytes

def totalOf (chunks : List Chunk) : ℕ := (chunks.map (·.data.length)).sum

/-- Lines up to an empty one. -/
inductive Trailers : List UInt8 → Prop
  | done : Trailers crlf
  | field {line rest : List UInt8} (hline : IsLine line) (hne : line ≠ []) (h : Trailers rest) :
      Trailers (line ++ crlf ++ rest)

structure Body where
  chunks : List Chunk
  lastLine : List UInt8
  trailers : List UInt8
  isLast : IsSizeLine 0 lastLine
  trailers_end : Trailers trailers

def Body.bytes (b : Body) : List UInt8 := bytesOf b.chunks ++ (b.lastLine ++ crlf ++ b.trailers)

def Body.total (b : Body) : ℕ := totalOf b.chunks

/-- After some chunks there comes a size with a plus sign. -/
def SignedSize (stream : List UInt8) : Prop :=
  ∃ (chunks : List Chunk) (rest : List UInt8), stream = bytesOf chunks ++ 43 :: rest

theorem crlf_ne_nil : crlf ≠ [] := List.cons_ne_nil _ _

theorem blankLine_ne_nil : blankLine ≠ [] := List.cons_ne_nil _ _

theorem firstOccurrence_line {line : List UInt8} (h : IsLine line) (rest : List UInt8) :
    findBytes (line ++ (crlf ++ rest)) crlf = some line.length := by
  refine (firstOccurrence_eq_some_iff crlf_ne_nil).mpr ⟨?_, ?_⟩
  · rw [List.drop_left]
    exact List.prefix_append _ _
  · intro j hj hprefix
    rw [List.drop_append_of_le_length hj.le] at hprefix
    cases hdrop : line.drop j with
    | nil =>
      have hlength := congrArg List.length hdrop
      rw [List.length_drop, List.length_nil] at hlength
      omega
    | cons a tail =>
      rw [hdrop, List.cons_append] at hprefix
      obtain ⟨ha, htail⟩ := List.cons_prefix_cons.mp hprefix
      cases tail with
      | nil =>
        obtain ⟨hb, -⟩ := List.cons_prefix_cons.mp htail
        exact absurd hb (by decide)
      | cons b tail =>
        obtain ⟨hb, -⟩ := List.cons_prefix_cons.mp htail
        apply h
        refine ⟨line.take j, tail, ?_⟩
        conv_rhs => rw [← List.take_append_drop j line, hdrop]
        rw [List.append_assoc, ← ha, ← hb]
        rfl

/-- What is before the first line ending is a line. -/
theorem isLine_of_findBytes {buffer : List UInt8} {i : ℕ} (h : findBytes buffer crlf = some i) :
    IsLine (buffer.take i) ∧ buffer = buffer.take i ++ (crlf ++ buffer.drop (i + 2)) := by
  obtain ⟨hat, hbefore⟩ := (firstOccurrence_eq_some_iff crlf_ne_nil).mp h
  constructor
  · rintro ⟨front, back, heq⟩
    have hlength := congrArg List.length heq
    rw [List.length_append, List.length_append, List.length_take] at hlength
    have htwo : crlf.length = 2 := rfl
    apply hbefore front.length (by omega)
    have hbuffer := List.take_append_drop i buffer
    rw [← heq, List.append_assoc, List.append_assoc] at hbuffer
    rw [← hbuffer, List.drop_left]
    exact List.prefix_append _ _
  · obtain ⟨rest, hrest⟩ := hat
    have hrest : crlf ++ rest = buffer.drop i := hrest
    have hdrop : buffer.drop (i + 2) = rest := by
      rw [← List.drop_drop, ← hrest]
      rfl
    rw [hdrop, hrest, List.take_append_drop]

theorem line_unique {line line' rest rest' : List UInt8} (h : IsLine line) (h' : IsLine line')
    (heq : line ++ (crlf ++ rest) = line' ++ (crlf ++ rest')) : line = line' ∧ rest = rest' := by
  have hfirst := firstOccurrence_line h rest
  rw [heq, firstOccurrence_line h' rest'] at hfirst
  obtain ⟨hline, hrest⟩ := List.append_inj heq (Option.some.inj hfirst).symm
  exact ⟨hline, List.append_cancel_left hrest⟩

theorem exists_head_splitOn (text : List Char) : ∃ digits extension,
    text = digits ++ extension ∧ (text.splitOn ';').head? = some digits ∧
      (extension = [] ∨ ∃ e, extension = ';' :: e) := by
  by_cases hmem : ';' ∈ text
  · obtain ⟨digits, e, htext, hnot⟩ := List.eq_append_cons_of_mem hmem
    refine ⟨digits, ';' :: e, htext, ?_, .inr ⟨e, rfl⟩⟩
    rw [htext, List.splitOn_append_cons_self_of_not_mem hnot]
    rfl
  · refine ⟨text, [], (List.append_nil text).symm, ?_, .inl rfl⟩
    rw [List.splitOn_eq_singleton hmem]
    rfl

/-- A size that is read without a plus sign is one of the grammar. -/
theorem isSizeLine_of_chunkSize {line : List UInt8} {size : ℕ} (hline : IsLine line)
    (hsize : ChunkedDecoder.chunkSize line = some size) (hplus : line.head? ≠ some 43) :
    IsSizeLine size line := by
  obtain ⟨text, htext, hhead⟩ := Option.bind_eq_some_iff.mp hsize
  obtain ⟨digits, extension, hparts, hsplit, hextension⟩ := exists_head_splitOn text
  rw [hsplit] at hhead
  obtain ⟨hnumeral, -⟩ := Option.filter_eq_some_iff.mp hhead
  have hbytes : line = encodeUtf8 digits ++ encodeUtf8 extension := by
    rw [← encodeUtf8_append, ← hparts, encodeUtf8_of_decodeUtf8 htext]
  have hdigits : stripPlus digits = digits := by
    unfold stripPlus
    split
    · rename_i rest
      apply absurd _ hplus
      rw [hbytes]
      rfl
    · rfl
  rw [hdigits] at hnumeral
  refine ⟨hline, digits, encodeUtf8 extension, hbytes, hnumeral, ?_⟩
  obtain rfl | ⟨e, rfl⟩ := hextension
  · exact .inl rfl
  · exact .inr rfl

theorem takeWhile_sizeLine {digits : List Char} {extension : List UInt8} {size : ℕ}
    (hsize : numeral 16 digits = some size)
    (hextension : extension = [] ∨ extension.head? = some 59) :
    (encodeUtf8 digits ++ extension).takeWhile (· ≠ 59) = encodeUtf8 digits := by
  have hnot : 59 ∉ encodeUtf8 digits :=
    not_mem_encodeUtf8 (by decide) rfl
      (numeral_not_mem hsize (by decide : digitValue 16 ';' = none))
  have hdigits : ∀ b ∈ encodeUtf8 digits, decide (b ≠ 59) = true := by
    intro b hb
    exact decide_eq_true (ne_of_mem_of_not_mem hb hnot)
  rw [List.takeWhile_append_of_pos hdigits]
  cases hextension with
  | inl hnil => rw [hnil, List.takeWhile_nil, List.append_nil]
  | inr hhead =>
    obtain ⟨rest, rfl⟩ := List.head?_eq_some_iff.mp hhead
    rw [List.takeWhile_cons_of_neg (by simp), List.append_nil]

/-- A line announces one size. -/
theorem IsSizeLine.size_unique {line : List UInt8} {size size' : ℕ} (h : IsSizeLine size line)
    (h' : IsSizeLine size' line) : size = size' := by
  obtain ⟨digits, extension, hline, hsize, hextension⟩ := h.parts
  obtain ⟨digits', extension', hline', hsize', hextension'⟩ := h'.parts
  have hbytes : encodeUtf8 digits = encodeUtf8 digits' := by
    rw [← takeWhile_sizeLine hsize hextension, ← takeWhile_sizeLine hsize' hextension', ← hline,
      ← hline']
  rw [encodeUtf8_injective hbytes] at hsize
  exact Option.some.inj (hsize.symm.trans hsize')

theorem IsSizeLine.head_ne {line : List UInt8} {size : ℕ} (h : IsSizeLine size line) :
    ∃ b rest, line = b :: rest ∧ b ≠ 43 := by
  obtain ⟨digits, extension, hline, hsize, -⟩ := h.parts
  have hnot : 43 ∉ encodeUtf8 digits :=
    not_mem_encodeUtf8 (by decide) rfl
      (numeral_not_mem hsize (by decide : digitValue 16 '+' = none))
  cases hbytes : encodeUtf8 digits with
  | nil => exact absurd hbytes (encodeUtf8_ne_nil (numeral_ne_nil hsize))
  | cons b rest =>
    rw [hbytes] at hline hnot
    refine ⟨b, rest ++ extension, hline, ?_⟩
    rintro rfl
    exact hnot List.mem_cons_self

theorem exists_firstOccurrence {needle : List UInt8} (hn : needle ≠ []) {bytes : List UInt8}
    {i : ℕ} (h : needle <+: bytes.drop i) : ∃ k ≤ i, findBytes bytes needle = some k := by
  induction bytes generalizing i with
  | nil =>
    rw [List.drop_nil] at h
    exact absurd (List.prefix_nil.mp h) hn
  | cons b bytes ih =>
    by_cases hhere : needle <+: b :: bytes
    · exact ⟨0, Nat.zero_le i, firstOccurrence_zero hn hhere⟩
    · cases i with
      | zero => exact absurd h hhere
      | succ i =>
        obtain ⟨k, hk, hfind⟩ := ih h
        refine ⟨k + 1, Nat.succ_le_succ hk, ?_⟩
        rw [findBytes, firstOccurrence_cons hhere]
        exact congrArg (Option.map (· + 1)) hfind

/-- What is behind a line and its ending. -/
theorem drop_line (line rest : List UInt8) (j : ℕ) :
    (line ++ (crlf ++ rest)).drop (line.length + 2 + j) = rest.drop j := by
  rw [Nat.add_assoc, List.drop_length_add_append, ← List.drop_drop]
  rfl

theorem take_line (line rest : List UInt8) (j : ℕ) :
    (line ++ (crlf ++ rest)).take (line.length + 2 + j) = line ++ crlf ++ rest.take j := by
  have htwo : crlf.length + j = 2 + j := rfl
  rw [Nat.add_assoc, List.take_length_add_append, ← htwo, List.take_length_add_append,
    List.append_assoc]

/-- A blank line is at the end of the first line or after it. -/
theorem exists_rest {line rest : List UInt8} (hline : IsLine line) {i : ℕ}
    (h : findBytes (line ++ (crlf ++ rest)) blankLine = some i) :
    crlf <+: rest ∧ i = line.length ∨
      ∃ j, i = line.length + 2 + j ∧ ¬ crlf <+: rest ∧ findBytes rest blankLine = some j := by
  obtain ⟨hat, hbefore⟩ := (firstOccurrence_eq_some_iff blankLine_ne_nil).mp h
  have hcrlf : crlf <+: (line ++ (crlf ++ rest)).drop i := (List.prefix_append crlf crlf).trans hat
  have hsome := firstOccurrence_line hline rest
  obtain ⟨k, hle, hk⟩ := exists_firstOccurrence crlf_ne_nil hcrlf
  have hstart : line.length ≤ i := by
    rw [hsome] at hk
    exact Option.some.inj hk ▸ hle
  by_cases hends : crlf <+: rest
  · refine .inl ⟨hends, ?_⟩
    by_contra hne
    apply hbefore line.length (by omega)
    rw [List.drop_left]
    exact (List.prefix_append_right_inj crlf).mpr hends
  · have hafter : line.length + 2 ≤ i := by
      by_contra hlt
      by_cases heq : i = line.length
      · rw [heq, List.drop_left] at hat
        exact hends ((List.prefix_append_right_inj crlf).mp hat)
      · rw [show i = line.length + 1 by omega, List.drop_length_add_append] at hcrlf
        obtain ⟨hten, -⟩ := List.cons_prefix_cons.mp hcrlf
        exact absurd hten (by decide)
    obtain ⟨j, rfl⟩ := Nat.exists_eq_add_of_le hafter
    refine .inr ⟨j, rfl, hends, ?_⟩
    refine (firstOccurrence_eq_some_iff blankLine_ne_nil).mpr ⟨?_, ?_⟩
    · rwa [drop_line] at hat
    · intro j' hj'
      rw [← drop_line line rest j']
      exact hbefore _ (by omega)

/-- The trailers up to the first blank line are lines and an empty one. -/
theorem trailers_of_findBytes {buffer : List UInt8} {i : ℕ} (hnot : ¬ crlf <+: buffer)
    (h : findBytes buffer blankLine = some i) : Trailers (buffer.take (i + 4)) := by
  induction hlength : buffer.length using Nat.strong_induction_on generalizing buffer i with
  | _ n ih =>
    obtain ⟨hat, -⟩ := (firstOccurrence_eq_some_iff blankLine_ne_nil).mp h
    obtain ⟨k, -, hk⟩ := exists_firstOccurrence crlf_ne_nil
      ((List.prefix_append crlf crlf).trans hat)
    obtain ⟨hline, hbuffer⟩ := isLine_of_findBytes hk
    generalize buffer.take k = line at hline hbuffer
    generalize buffer.drop (k + 2) = rest at hbuffer
    subst hbuffer
    have hne : line ≠ [] := by
      rintro rfl
      exact hnot (List.prefix_append _ _)
    cases exists_rest hline h with
    | inl hends =>
      obtain ⟨⟨more, rfl⟩, rfl⟩ := hends
      rw [show line.length + 4 = line.length + 2 + 2 by rfl, take_line]
      exact .field hline hne .done
    | inr hmore =>
      obtain ⟨j, rfl, hends, hfind⟩ := hmore
      have hshort : rest.length < n := by
        rw [← hlength, List.length_append, List.length_append]
        have htwo : crlf.length = 2 := rfl
        omega
      rw [Nat.add_assoc, take_line]
      exact .field hline hne (ih _ hshort hends hfind rfl)

theorem bytesOf_cons (c : Chunk) (chunks : List Chunk) (rest : List UInt8) :
    bytesOf (c :: chunks) ++ rest =
      c.line ++ (crlf ++ (c.data ++ (crlf ++ (bytesOf chunks ++ rest)))) := by
  rw [bytesOf, List.flatMap_cons, Chunk.bytes, ← bytesOf]
  simp only [List.append_assoc]

/-- Up to its last chunk, a body has no size with a plus sign. -/
theorem body_ne_signed {lastLine : List UInt8} (hlast : IsSizeLine 0 lastLine)
    (chunks chunks' : List Chunk) (rest signed : List UInt8) :
    bytesOf chunks' ++ (lastLine ++ (crlf ++ rest)) ≠ bytesOf chunks ++ 43 :: signed := by
  intro heq
  induction chunks generalizing chunks' with
  | nil =>
    have hhead := congrArg List.head? heq
    cases chunks' with
    | nil =>
      obtain ⟨b, tail, hline, hb⟩ := hlast.head_ne
      rw [hline] at hhead
      exact hb (Option.some.inj hhead)
    | cons c' chunks' =>
      obtain ⟨b, tail, hline, hb⟩ := c'.isSizeLine.head_ne
      rw [bytesOf_cons, hline] at hhead
      exact hb (Option.some.inj hhead)
  | cons c chunks ih =>
    rw [bytesOf_cons] at heq
    cases chunks' with
    | nil =>
      obtain ⟨hline, -⟩ := line_unique hlast.isLine c.isSizeLine.isLine heq
      rw [hline] at hlast
      have hzero := hlast.size_unique c.isSizeLine
      exact c.data_ne_nil (List.length_eq_zero_iff.mp hzero.symm)
    | cons c' chunks' =>
      rw [bytesOf_cons] at heq
      obtain ⟨hline, hrest⟩ := line_unique c'.isSizeLine.isLine c.isSizeLine.isLine heq
      have hsize := c'.isSizeLine
      rw [hline] at hsize
      obtain ⟨-, hrest⟩ := List.append_inj hrest (hsize.size_unique c.isSizeLine)
      exact ih chunks' (List.append_cancel_left hrest)

theorem not_signedSize_of_body (b : Body) (rest : List UInt8) :
    ¬ SignedSize (b.bytes ++ rest) := by
  rintro ⟨chunks, signed, heq⟩
  apply body_ne_signed b.isLast chunks b.chunks (b.trailers ++ rest) signed
  rw [← heq, Body.bytes]
  simp only [List.append_assoc]

/-- The bytes that are out of the buffer, by the phase that follows them and the data among
them. -/
inductive After : List UInt8 → ChunkPhase → ℕ → Prop
  | size (chunks : List Chunk) : After (bytesOf chunks) .size (totalOf chunks)
  | data (chunks : List Chunk) {line part : List UInt8} {remaining : ℕ}
      (hline : IsSizeLine (part.length + remaining) line) (hpos : 0 < remaining) :
      After (bytesOf chunks ++ (line ++ crlf ++ part)) (.data remaining)
        (totalOf chunks + part.length)
  | dataEnding (chunks : List Chunk) {line data : List UInt8}
      (hline : IsSizeLine data.length line) (hne : data ≠ []) :
      After (bytesOf chunks ++ (line ++ crlf ++ data)) .dataEnding (totalOf chunks + data.length)
  | trailers (chunks : List Chunk) {line : List UInt8} (hline : IsSizeLine 0 line) :
      After (bytesOf chunks ++ (line ++ crlf)) .trailers (totalOf chunks)

/-- The decoder has received the stream. -/
def Received (stream : List UInt8) (d : ChunkedDecoder) : Prop :=
  ∃ taken, stream = taken ++ d.buffer ∧ After taken d.phase d.total

/-- The stream begins with a body of the grammar. -/
def BeginsWithBody (stream : List UInt8) (total : ℕ) : Prop :=
  ∃ (b : Body) (rest : List UInt8), stream = b.bytes ++ rest ∧ total = b.total

/-- How a pass may end. -/
def Accepts (stream : List UInt8) : Pass → Prop
  | .next d | .wait d => Received stream d
  | .finished d => BeginsWithBody stream d.total
  | .failed _ _ => True

variable {stream : List UInt8} {d : ChunkedDecoder}

theorem pass_size (chunks : List Chunk) {buffer : List UInt8}
    (hstream : stream = bytesOf chunks ++ buffer) (hunsigned : ¬ SignedSize stream) :
    Accepts stream (ChunkedDecoder.pass ⟨buffer, .size, totalOf chunks⟩) := by
  generalize hpass : ChunkedDecoder.pass ⟨buffer, .size, totalOf chunks⟩ = p
  cases ChunkedDecoder.passes_iff.mpr hpass with
  | openLine => exact ⟨_, hstream, .size chunks⟩
  | endlessLine | longLine | noSize => trivial
  | @size _ _ lineEnd size hend hlimit hsize =>
    obtain ⟨hline, hbuffer⟩ := isLine_of_findBytes hend
    have hplus : (buffer.take lineEnd).head? ≠ some 43 := by
      intro hhead
      obtain ⟨rest, hrest⟩ := List.head?_eq_some_iff.mp hhead
      apply hunsigned
      refine ⟨chunks, rest ++ (crlf ++ buffer.drop (lineEnd + 2)), ?_⟩
      rw [hstream]
      conv_lhs => rw [hbuffer, hrest]
      rfl
    have hsizeline := isSizeLine_of_chunkSize hline hsize hplus
    by_cases hzero : size = 0
    · subst hzero
      refine ⟨bytesOf chunks ++ (buffer.take lineEnd ++ crlf), ?_, .trailers chunks hsizeline⟩
      rw [hstream, List.append_assoc, List.append_assoc]
      exact congrArg _ hbuffer
    · rw [if_neg hzero]
      have hparts : IsSizeLine (([] : List UInt8).length + size) (buffer.take lineEnd) := by
        rw [List.length_nil, Nat.zero_add]
        exact hsizeline
      refine ⟨_, ?_, .data chunks hparts (Nat.pos_of_ne_zero hzero)⟩
      rw [hstream, List.append_nil, List.append_assoc, List.append_assoc]
      exact congrArg _ hbuffer

theorem pass_data (chunks : List Chunk) {buffer line part : List UInt8} {remaining : ℕ}
    (hline : IsSizeLine (part.length + remaining) line) (hpos : 0 < remaining)
    (hstream : stream = bytesOf chunks ++ (line ++ crlf ++ part) ++ buffer) :
    Accepts stream
      (ChunkedDecoder.pass ⟨buffer, .data remaining, totalOf chunks + part.length⟩) := by
  have hlength : (part ++ buffer.take (min buffer.length remaining)).length =
      part.length + min buffer.length remaining := by
    rw [List.length_append, List.length_take, Nat.min_eq_left (Nat.min_le_left _ _)]
  have hbytes : stream = bytesOf chunks ++ (line ++ crlf ++
      (part ++ buffer.take (min buffer.length remaining))) ++
        buffer.drop (min buffer.length remaining) := by
    rw [hstream]
    simp only [List.append_assoc, List.take_append_drop]
  have hreceived : Received stream ⟨buffer.drop (min buffer.length remaining),
      if min buffer.length remaining = remaining then .dataEnding
        else .data (remaining - min buffer.length remaining),
      totalOf chunks + part.length + min buffer.length remaining⟩ := by
    refine ⟨_, hbytes, ?_⟩
    rw [Nat.add_assoc, ← hlength]
    by_cases hall : min buffer.length remaining = remaining
    · rw [if_pos hall]
      refine .dataEnding chunks ?_ ?_
      · rw [hlength, hall]
        exact hline
      · intro hnil
        rw [hnil, List.length_nil] at hlength
        omega
    · rw [if_neg hall]
      refine .data chunks ?_ (by omega)
      rw [hlength]
      have hsum : part.length + min buffer.length remaining +
          (remaining - min buffer.length remaining) = part.length + remaining := by omega
      rw [hsum]
      exact hline
  generalize hpass : ChunkedDecoder.pass ⟨buffer, .data remaining, _⟩ = p
  cases ChunkedDecoder.passes_iff.mpr hpass with
  | noData => exact hreceived
  | data => exact hreceived

theorem bytesOf_concat (chunks : List Chunk) (c : Chunk) :
    bytesOf (chunks ++ [c]) = bytesOf chunks ++ (c.line ++ crlf ++ c.data) ++ crlf := by
  rw [bytesOf, List.flatMap_append, List.flatMap_singleton, Chunk.bytes, ← bytesOf]
  simp only [List.append_assoc]

theorem totalOf_concat (chunks : List Chunk) (c : Chunk) :
    totalOf (chunks ++ [c]) = totalOf chunks + c.data.length := by
  rw [totalOf, List.map_append, List.sum_append]
  rfl

theorem pass_dataEnding (chunks : List Chunk) {buffer line data : List UInt8}
    (hline : IsSizeLine data.length line) (hne : data ≠ [])
    (hstream : stream = bytesOf chunks ++ (line ++ crlf ++ data) ++ buffer) :
    Accepts stream
      (ChunkedDecoder.pass ⟨buffer, .dataEnding, totalOf chunks + data.length⟩) := by
  generalize hpass : ChunkedDecoder.pass ⟨buffer, .dataEnding, _⟩ = p
  cases ChunkedDecoder.passes_iff.mpr hpass with
  | shortEnding => exact ⟨_, hstream, .dataEnding chunks hline hne⟩
  | noEnding => trivial
  | ending hending =>
    have hbuffer : crlf ++ buffer.drop 2 = buffer := (List.prefix_append_drop hending).symm
    refine ⟨bytesOf (chunks ++ [⟨line, data, hline, hne⟩]), ?_, ?_⟩
    · rw [hstream, bytesOf_concat]
      conv_lhs => rw [← hbuffer]
      exact (List.append_assoc _ crlf _).symm
    · rw [← totalOf_concat chunks ⟨line, data, hline, hne⟩]
      exact .size _

theorem pass_trailers (chunks : List Chunk) {buffer line : List UInt8}
    (hline : IsSizeLine 0 line)
    (hstream : stream = bytesOf chunks ++ (line ++ crlf) ++ buffer) :
    Accepts stream (ChunkedDecoder.pass ⟨buffer, .trailers, totalOf chunks⟩) := by
  have hbody : ∀ trailers rest, Trailers trailers → buffer = trailers ++ rest →
      BeginsWithBody stream (totalOf chunks) := by
    intro trailers rest htrailers hbuffer
    refine ⟨⟨chunks, line, trailers, hline, htrailers⟩, rest, ?_, rfl⟩
    rw [hstream, hbuffer, Body.bytes]
    simp only [List.append_assoc]
  generalize hpass : ChunkedDecoder.pass ⟨buffer, .trailers, _⟩ = p
  cases ChunkedDecoder.passes_iff.mpr hpass with
  | noTrailers hending =>
    obtain ⟨rest, hrest⟩ := hending
    exact hbody crlf rest .done hrest.symm
  | trailers hsome hend hlimit =>
    exact hbody _ _ (trailers_of_findBytes hsome hend) (List.take_append_drop _ buffer).symm
  | longTrailers | endlessTrailers => trivial
  | openTrailers => exact ⟨_, hstream, .trailers chunks hline⟩

theorem pass_accepts (h : Received stream d) (hunsigned : ¬ SignedSize stream) :
    Accepts stream d.pass := by
  obtain ⟨taken, hstream, hafter⟩ := h
  obtain ⟨buffer, phase, total⟩ := d
  cases hafter with
  | size chunks => exact pass_size chunks hstream hunsigned
  | data chunks hline hpos => exact pass_data chunks hline hpos hstream
  | dataEnding chunks hline hne => exact pass_dataEnding chunks hline hne hstream
  | trailers chunks hline => exact pass_trailers chunks hline hstream

theorem loop_accepts (fuel : ℕ) (h : Received stream d) (hunsigned : ¬ SignedSize stream) :
    Accepts stream (ChunkedDecoder.loop fuel d) := by
  induction fuel generalizing d with
  | zero => exact h
  | succ fuel ih =>
    have hpass := pass_accepts h hunsigned
    rw [ChunkedDecoder.loop]
    cases hd : d.pass with
    | next d' =>
      rw [hd] at hpass
      exact ih hpass
    | wait d' =>
      rw [hd] at hpass
      exact hpass
    | finished d' =>
      rw [hd] at hpass
      exact hpass
    | failed halt d' => trivial

/-- A decoder that has been fed these bytes in fragments and waits for more. -/
inductive Fed : List UInt8 → ChunkedDecoder → Prop
  | new : Fed [] .new
  | feed {bytes data : List UInt8} {eof : Bool} {d d' : ChunkedDecoder} (h : Fed bytes d)
      (hfeed : d.feed data eof = (.ok none, d')) : Fed (bytes ++ data) d'

theorem SignedSize.append (h : SignedSize stream) (data : List UInt8) :
    SignedSize (stream ++ data) := by
  obtain ⟨chunks, rest, rfl⟩ := h
  exact ⟨chunks, rest ++ data, List.append_assoc _ _ _⟩

theorem Received.extend (h : Received stream d) (data : List UInt8) :
    Received (stream ++ data) (d.extend data) := by
  obtain ⟨taken, hstream, hafter⟩ := h
  refine ⟨taken, ?_, hafter⟩
  rw [hstream, List.append_assoc]
  rfl

theorem feed_accepts {data : List UInt8} {eof : Bool} {result : Option ℕ} {d' : ChunkedDecoder}
    (h : Received stream d) (hunsigned : ¬ SignedSize (stream ++ data))
    (hfeed : d.feed data eof = (.ok result, d')) :
    (result = none → Received (stream ++ data) d') ∧
      ∀ total, result = some total → BeginsWithBody (stream ++ data) total := by
  have hsettle : Accepts (stream ++ data) (d.extend data).settle :=
    loop_accepts _ (h.extend data) hunsigned
  rw [ChunkedDecoder.feed_eq] at hfeed
  cases hend : (d.extend data).settle with
  | next d₁ => exact absurd hend (ChunkedDecoder.settle_ne_next _ d₁)
  | wait d₁ =>
    simp only [hend, Prod.mk.injEq] at hfeed
    rw [hend] at hsettle
    obtain ⟨hresult, rfl⟩ := hfeed
    split at hresult
    · cases hresult
    · cases hresult
      constructor
      · intro _
        exact hsettle
      · intro total htotal
        cases htotal
  | finished d₁ =>
    simp only [hend, Prod.mk.injEq, Except.ok.injEq] at hfeed
    rw [hend] at hsettle
    obtain ⟨rfl, rfl⟩ := hfeed
    constructor
    · intro hnone
      cases hnone
    · intro total htotal
      cases htotal
      exact hsettle
  | failed halt d₁ => simp only [hend, Prod.mk.injEq, reduceCtorEq, false_and] at hfeed

theorem Fed.received (h : Fed stream d) (hunsigned : ¬ SignedSize stream) : Received stream d := by
  induction h with
  | new => exact ⟨[], rfl, .size []⟩
  | feed h hfeed ih =>
    have hbefore := ih fun hsigned => hunsigned (hsigned.append _)
    exact (feed_accepts hbefore hunsigned hfeed).1 rfl

/-- What is accepted begins with a body of the grammar, if and only if no size before its end has
a plus sign. -/
theorem accepted_iff {bytes data : List UInt8} {eof : Bool} {total : ℕ} {d' : ChunkedDecoder}
    (h : Fed bytes d) (haccept : d.feed data eof = (.ok (some total), d')) :
    BeginsWithBody (bytes ++ data) total ↔ ¬ SignedSize (bytes ++ data) := by
  constructor
  · rintro ⟨b, rest, hstream, -⟩
    rw [hstream]
    exact not_signedSize_of_body b rest
  · intro hunsigned
    have hreceived := h.received fun hsigned => hunsigned (hsigned.append _)
    exact (feed_accepts hreceived hunsigned haccept).2 total rfl

/-- `5` in two fragments, and an extension. -/
theorem accepted_iff_hello :
    BeginsWithBody ([53, 59] ++ [120, 13, 10, 104, 101, 108, 108, 111, 13, 10, 48, 13, 10, 13, 10])
        5 ↔
      ¬ SignedSize
        ([53, 59] ++ [120, 13, 10, 104, 101, 108, 108, 111, 13, 10, 48, 13, 10, 13, 10]) := by
  have hfirst : ChunkedDecoder.new.feed [53, 59] false = (.ok none, ⟨[53, 59], .size, 0⟩) := by
    decide +kernel
  have hsecond : ChunkedDecoder.feed ⟨[53, 59], .size, 0⟩
      [120, 13, 10, 104, 101, 108, 108, 111, 13, 10, 48, 13, 10, 13, 10] false =
        (.ok (some 5), ⟨[13, 10], .trailers, 5⟩) := by
    decide +kernel
  exact accepted_iff (Fed.new.feed hfirst) hsecond

/-- `+5`. -/
def plusFive : List UInt8 := [43, 53, 13, 10, 104, 101, 108, 108, 111, 13, 10, 48, 13, 10, 13, 10]

theorem plusFive_accepted :
    ChunkedDecoder.new.feed plusFive false = (.ok (some 5), ⟨[13, 10], .trailers, 5⟩) ∧
      ∀ total, ¬ BeginsWithBody plusFive total := by
  refine ⟨by decide +kernel, ?_⟩
  rintro total ⟨b, rest, hstream, -⟩
  apply not_signedSize_of_body b rest
  rw [← hstream]
  exact ⟨[], plusFive.tail, rfl⟩

end Rload.ChunkedGrammar
