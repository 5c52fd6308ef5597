import Rload.ResponseHeads

/-!
# The decoder ends every well-formed response at its last byte

A fragment that does not hold the last byte leaves the decoder waiting for exactly the bytes
still to come, so how a response is cut into fragments makes no difference.
-/

namespace Rload.ResponseFraming
open TextScanning WellFormedResponses

theorem sizeLine_no_cr {size : ℕ} (l : SizeLine size) : 13 ∉ l.bytes := by
  have hdigits := numeral_not_mem l.value (by decide : digitValue 16 '\r' = none)
  apply not_mem_encodeUtf8 (by decide) (rfl : '\r'.val.toNat = 13)
  simpa using ⟨hdigits, l.no_cr⟩

theorem chunkSize_sizeLine {size : ℕ} (hsize : size < wordLimit) (l : SizeLine size) :
    ChunkedDecoder.chunkSize l.bytes = some size := by
  have hdigits : ∀ c ∈ l.digits, (c == ';') = false := by
    intro c hc
    have h := numeral_not_mem l.value (by decide : digitValue 16 ';' = none)
    simpa using ne_of_mem_of_not_mem hc h
  have hhead : ((l.digits ++ l.extension).splitOn ';').head? = some l.digits := by
    rcases l.extension_eq with h | ⟨e, h⟩
    · rw [h, List.append_nil, List.splitOn, List.splitOnP_eq_singleton hdigits]
      rfl
    · rw [h, List.splitOn, List.splitOnP_append_cons_of_forall_mem hdigits _ (by simp)]
      rfl
  rw [ChunkedDecoder.chunkSize, SizeLine.bytes, decodeUtf8_encodeUtf8, Option.bind_some, hhead,
    Option.bind_some, parseUnsigned_of_numeral l.value hsize]

theorem trailerBytes_of_ne_nil {l : LastChunk} (h : l.trailers ≠ []) :
    l.trailerBytes = crlf.intercalate l.trailers ++ blankLine := by
  have hall : ∀ ts : List (List UInt8), ts ≠ [] →
      ts.flatMap (· ++ crlf) ++ crlf = crlf.intercalate ts ++ blankLine := by
    intro ts hts
    induction ts with
    | nil => exact absurd rfl hts
    | cons t ts ih =>
      cases ts with
      | nil => simp [crlf, blankLine]
      | cons t' ts =>
        rw [List.flatMap_cons, List.append_assoc, ih (by simp), List.intercalate_cons_cons]
        simp
  exact hall _ h

/-- What the rest of a chunked body is, in each phase, and how many data bytes it holds. -/
inductive Pending : ChunkPhase → List UInt8 → ℕ → Prop
  | size (chunks : List Chunk) (last : LastChunk) :
      Pending .size (chunks.flatMap Chunk.bytes ++ last.bytes) (chunks.map (·.data.length)).sum
  | data (d : List UInt8) (hd : d ≠ []) (rest : List UInt8) (n : ℕ) (h : Pending .size rest n) :
      Pending (.data d.length) (d ++ (crlf ++ rest)) (d.length + n)
  | dataEnding (rest : List UInt8) (n : ℕ) (h : Pending .size rest n) :
      Pending .dataEnding (crlf ++ rest) n
  | trailers (last : LastChunk) : Pending .trailers last.trailerBytes 0

/-- How a pass over a decoder with `n` data bytes to come may end. -/
def Pass.Follows (d : ChunkedDecoder) (rest : List UInt8) (n : ℕ) : Pass → Prop
  | .finished d' => rest = [] ∧ d'.total = d.total + n
  | .wait d' => rest ≠ [] ∧ ∃ n', Pending d'.phase (d'.buffer ++ rest) n' ∧
      d'.total + n' = d.total + n
  | .next d' => d'.buffer.length < d.buffer.length ∧
      ∃ n', Pending d'.phase (d'.buffer ++ rest) n' ∧ d'.total + n' = d.total + n
  | .failed _ _ => False

/-- The first line of a buffer is there in full, or the buffer is shorter than it. -/
theorem firstLine {buffer rest line more : List UInt8} (hcr : 13 ∉ line)
    (h : buffer ++ rest = line ++ crlf ++ more) :
    (findBytes buffer crlf = some line.length ∧ buffer.take line.length = line ∧
        buffer.drop (line.length + 2) ++ rest = more ∧ line.length + 2 ≤ buffer.length) ∨
      (findBytes buffer crlf = none ∧ rest ≠ [] ∧ buffer.length < line.length + 2) := by
  have hfound : firstOccurrence crlf (buffer ++ rest) = some line.length := by
    rw [h]
    exact firstOccurrence_crlf hcr more
  by_cases hlen : line.length + 2 ≤ buffer.length
  · apply Or.inl
    have htake : buffer.take line.length = line := by
      have := congrArg (List.take line.length) h
      rwa [List.take_append_of_le_length (by omega), List.append_assoc, List.take_left'
        (rfl : line.length = line.length)] at this
    have hdrop : buffer.drop (line.length + 2) ++ rest = more := by
      have := congrArg (List.drop (line.length + 2)) h
      rwa [List.drop_append_of_le_length hlen, List.drop_left' (by simp [crlf])] at this
    refine ⟨?_, htake, hdrop, hlen⟩
    have hpre : line ++ crlf <+: buffer := by
      apply List.prefix_of_prefix_length_le _ (List.prefix_append buffer rest)
      · simpa [crlf] using hlen
      · rw [h]
        exact List.prefix_append _ _
    obtain ⟨t, ht⟩ := hpre
    rw [findBytes, ← ht]
    exact firstOccurrence_crlf hcr t
  · apply Or.inr
    have hshort : buffer.length < line.length + 2 := by omega
    refine ⟨firstOccurrence_eq_none_of_short (by simp [crlf]) hfound hshort, ?_, hshort⟩
    intro hnil
    have := congrArg List.length h
    simp only [hnil, List.append_nil, List.length_append, crlf, List.length_cons,
      List.length_nil] at this
    omega

theorem waitForControl_short {d : ChunkedDecoder} (h : d.buffer.length ≤ maxHeaderBytes) :
    d.waitForControl = .wait d := if_neg (by omega)

theorem pass_line {d : ChunkedDecoder} {rest more : List UInt8} {size n : ℕ}
    (hphase : d.phase = .size) (hsize : size < wordLimit) (l : SizeLine size)
    (h : d.buffer ++ rest = l.bytes ++ crlf ++ more)
    (hpending : Pending .size (d.buffer ++ rest) n)
    (hnext : Pending (if size = 0 then .trailers else .data size) more n) :
    Pass.Follows d rest n d.pass := by
  have hmax : maxHeaderBytes = 65536 := rfl
  have hlimit : l.bytes.length ≤ 65533 := l.length_le
  rcases firstLine (sizeLine_no_cr l) h with ⟨hfound, htake, hdrop, hlen⟩ | ⟨hnone, hne, hlen⟩
  · have hpass : d.pass = .next { d with
        buffer := d.buffer.drop (l.bytes.length + 2)
        phase := if size = 0 then .trailers else .data size } := by
      have hshort : ¬ maxHeaderBytes < l.bytes.length := by omega
      simp only [ChunkedDecoder.pass, hphase, hfound, if_neg hshort, htake,
        chunkSize_sizeLine hsize]
    rw [hpass]
    refine ⟨?_, n, ?_, rfl⟩
    · simp only [List.length_drop]
      omega
    · simpa only [hdrop] using hnext
  · have hpass : d.pass = .wait d := by
      simp only [ChunkedDecoder.pass, hphase, hnone]
      exact waitForControl_short (by omega)
    rw [hpass]
    exact ⟨hne, n, hphase ▸ hpending, rfl⟩

theorem pass_size {d : ChunkedDecoder} {rest : List UInt8} {n : ℕ} (hphase : d.phase = .size)
    (h : Pending .size (d.buffer ++ rest) n) : Pass.Follows d rest n d.pass := by
  have hpending := h
  generalize hs : d.buffer ++ rest = stream at h
  cases h with
  | size chunks last =>
    cases chunks with
    | nil =>
      apply pass_line hphase (by decide) last.line _ hpending _
      · exact last.trailerBytes
      · simpa [LastChunk.bytes] using hs
      · exact .trailers last
    | cons c chunks =>
      have hpos : c.data.length ≠ 0 := by simpa using c.data_ne_nil
      apply pass_line hphase c.size_lt c.line _ hpending _
      · exact c.data ++ (crlf ++ (chunks.flatMap Chunk.bytes ++ last.bytes))
      · simpa [Chunk.bytes] using hs
      · rw [if_neg hpos]
        exact .data c.data c.data_ne_nil _ _ (.size chunks last)

theorem pass_data {d : ChunkedDecoder} {data rest more : List UInt8} {n : ℕ}
    (hphase : d.phase = .data data.length) (hdata : data ≠ [])
    (h : d.buffer ++ rest = data ++ (crlf ++ more)) (hmore : Pending .size more n) :
    Pass.Follows d rest (data.length + n) d.pass := by
  have hpos := List.length_pos_of_ne_nil hdata
  by_cases hempty : d.buffer = []
  · have hpass : d.pass = .wait d := by
      have hmin : min d.buffer.length data.length = 0 := by simp [hempty]
      have hzero : (0 : ℕ) ≠ data.length := by omega
      simp only [ChunkedDecoder.pass, hphase, hmin, if_true, if_neg hzero, List.drop_zero,
        Nat.add_zero, Nat.sub_zero]
      rw [← hphase]
    rw [hpass]
    refine ⟨?_, data.length + n, ?_, rfl⟩
    · intro hnil
      simp [hempty, hnil, hdata] at h
    · rw [hphase, h]
      exact .data data hdata more n hmore
  · have hbuf := List.length_pos_of_ne_nil hempty
    have hpass : d.pass = .next { d with
        buffer := d.buffer.drop (min d.buffer.length data.length)
        total := d.total + min d.buffer.length data.length
        phase := if min d.buffer.length data.length = data.length then .dataEnding
          else .data (data.length - min d.buffer.length data.length) } := by
      have hzero : min d.buffer.length data.length ≠ 0 := by omega
      simp only [ChunkedDecoder.pass, hphase, if_neg hzero]
    rw [hpass]
    refine ⟨?_, ?_⟩
    · simp only [List.length_drop]
      omega
    · by_cases hle : data.length ≤ d.buffer.length
      · have hmin : min d.buffer.length data.length = data.length := by omega
        have hdrop : d.buffer.drop data.length ++ rest = crlf ++ more := by
          have := congrArg (List.drop data.length) h
          rwa [List.drop_append_of_le_length hle, List.drop_left'
            (rfl : data.length = data.length)] at this
        refine ⟨n, ?_, ?_⟩
        · simp only [hmin, if_true, hdrop]
          exact .dataEnding more n hmore
        · simp only [hmin]
          omega
      · have hmin : min d.buffer.length data.length = d.buffer.length := by omega
        have hne : d.buffer.length ≠ data.length := by omega
        have hrest : rest = data.drop d.buffer.length ++ (crlf ++ more) := by
          have := congrArg (List.drop d.buffer.length) h
          rwa [List.drop_left' (rfl : d.buffer.length = d.buffer.length),
            List.drop_append_of_le_length (by omega)] at this
        refine ⟨(data.drop d.buffer.length).length + n, ?_, ?_⟩
        · simp only [hmin, if_neg hne, List.drop_length, List.nil_append, hrest]
          rw [← List.length_drop]
          exact .data _ (by simp; omega) more n hmore
        · simp only [hmin, List.length_drop]
          omega

theorem pass_dataEnding {d : ChunkedDecoder} {rest more : List UInt8} {n : ℕ}
    (hphase : d.phase = .dataEnding) (h : d.buffer ++ rest = crlf ++ more)
    (hmore : Pending .size more n) : Pass.Follows d rest n d.pass := by
  by_cases hshort : d.buffer.length < 2
  · have hpass : d.pass = .wait d := by
      simp only [ChunkedDecoder.pass, hphase, if_pos hshort]
    rw [hpass]
    refine ⟨?_, n, ?_, rfl⟩
    · intro hnil
      have := congrArg List.length h
      simp only [hnil, List.append_nil, List.length_append, crlf, List.length_cons,
        List.length_nil] at this
      omega
    · rw [hphase, h]
      exact .dataEnding more n hmore
  · have htake : d.buffer.take 2 = crlf := by
      have := congrArg (List.take 2) h
      rwa [List.take_append_of_le_length (by omega), List.take_left' (by rfl)] at this
    have hdrop : d.buffer.drop 2 ++ rest = more := by
      have := congrArg (List.drop 2) h
      rwa [List.drop_append_of_le_length (by omega), List.drop_left' (by rfl)] at this
    have hpass : d.pass = .next { d with buffer := d.buffer.drop 2, phase := .size } := by
      simp only [ChunkedDecoder.pass, hphase, if_neg hshort, htake, ne_eq, not_true, if_false]
    rw [hpass]
    refine ⟨?_, n, ?_, rfl⟩
    · simp only [List.length_drop]
      omega
    · simpa only [hdrop] using hmore

/-- What has a trailer does not begin with the end of a line. -/
theorem not_crlf_prefix {last : LastChunk} (htrailers : last.trailers ≠ [])
    (more : List UInt8) : ¬ crlf <+: crlf.intercalate last.trailers ++ more := by
  intro hinitial
  cases ht : last.trailers with
  | nil => exact htrailers ht
  | cons t ts =>
    have hmem : t ∈ last.trailers := by simp [ht]
    obtain ⟨b, bs, hb⟩ := List.exists_cons_of_ne_nil (last.ne_nil t hmem)
    have hcr : (13 : UInt8) ≠ b := by
      intro hcr
      exact last.no_cr t hmem (by simp [hb, hcr])
    have hstart : ∃ rest, crlf.intercalate last.trailers ++ more = b :: rest := by
      rw [ht, hb]
      cases ts <;> simp
    obtain ⟨rest, hrest⟩ := hstart
    rw [hrest, crlf] at hinitial
    exact hcr (List.cons_prefix_cons.mp hinitial).1

/-- Without trailers the end of a line ends the body. -/
theorem pass_noTrailers {buffer rest : List UInt8} {total : ℕ} (h : buffer ++ rest = crlf) :
    (rest = [] ∧ ChunkedDecoder.pass ⟨buffer, .trailers, total⟩ =
        .finished ⟨buffer, .trailers, total⟩) ∨
      (rest ≠ [] ∧ ChunkedDecoder.pass ⟨buffer, .trailers, total⟩ =
        .wait ⟨buffer, .trailers, total⟩) := by
  have hmax : maxHeaderBytes = 65536 := rfl
  have hlength : buffer.length + rest.length = 2 := by
    rw [← List.length_append, h]
    rfl
  by_cases hrest : rest = []
  · rw [hrest, List.append_nil] at h
    exact Or.inl ⟨hrest, ChunkedDecoder.passes_iff.mp (.noTrailers (h ▸ List.prefix_rfl))⟩
  · have hpos := List.length_pos_of_ne_nil hrest
    have hsome : ¬ crlf <+: buffer := by
      intro hinitial
      have hle : 2 ≤ buffer.length := hinitial.length_le
      omega
    have hnone : findBytes buffer blankLine = none := by
      cases hfind : findBytes buffer blankLine with
      | none => rfl
      | some i =>
        have hle := ((firstOccurrence_eq_some_iff (by simp [blankLine])).mp hfind).1.length_le
        simp only [blankLine, List.length_cons, List.length_nil, List.length_drop] at hle
        omega
    exact Or.inr ⟨hrest, ChunkedDecoder.passes_iff.mp (.openTrailers hsome hnone (by omega))⟩

/-- Trailers end with an empty line. -/
theorem pass_someTrailers {last : LastChunk} (htrailers : last.trailers ≠ [])
    {buffer rest : List UInt8} {total : ℕ}
    (h : buffer ++ rest = crlf.intercalate last.trailers ++ blankLine) :
    (rest = [] ∧ ChunkedDecoder.pass ⟨buffer, .trailers, total⟩ =
        .finished ⟨buffer, .trailers, total⟩) ∨
      (rest ≠ [] ∧ ChunkedDecoder.pass ⟨buffer, .trailers, total⟩ =
        .wait ⟨buffer, .trailers, total⟩) := by
  have hmax : maxHeaderBytes = 65536 := rfl
  have hlimit : (crlf.intercalate last.trailers).length ≤ 65533 := last.length_le
  have hfound : firstOccurrence blankLine (buffer ++ rest) =
      some (crlf.intercalate last.trailers).length := by
    have hfirst := firstOccurrence_blankLine htrailers last.ne_nil last.no_cr []
    rwa [List.append_nil, ← h] at hfirst
  have hsome : ¬ crlf <+: buffer := by
    intro hinitial
    have hwhole := hinitial.trans (List.prefix_append buffer rest)
    rw [h] at hwhole
    exact not_crlf_prefix htrailers _ hwhole
  have hlength : buffer.length + rest.length = (crlf.intercalate last.trailers).length + 4 := by
    rw [← List.length_append, h, List.length_append]
    rfl
  by_cases hrest : rest = []
  · rw [hrest, List.append_nil] at hfound
    exact Or.inl ⟨hrest,
      ChunkedDecoder.passes_iff.mp (.trailers hsome hfound (by omega))⟩
  · have hpos := List.length_pos_of_ne_nil hrest
    have hnone : findBytes buffer blankLine = none := by
      apply firstOccurrence_eq_none_of_short (by simp [blankLine]) hfound
      simp only [blankLine, List.length_cons, List.length_nil]
      omega
    exact Or.inr ⟨hrest, ChunkedDecoder.passes_iff.mp (.openTrailers hsome hnone (by omega))⟩

theorem pass_trailers {d : ChunkedDecoder} {rest : List UInt8} (last : LastChunk)
    (hphase : d.phase = .trailers) (h : d.buffer ++ rest = last.trailerBytes) :
    Pass.Follows d rest 0 d.pass := by
  have hpending : Pending d.phase (d.buffer ++ rest) 0 := by
    rw [hphase, h]
    exact .trailers last
  obtain ⟨buffer, phase, total⟩ := d
  obtain rfl : phase = .trailers := hphase
  have hpass : (rest = [] ∧ ChunkedDecoder.pass ⟨buffer, .trailers, total⟩ =
        .finished ⟨buffer, .trailers, total⟩) ∨
      (rest ≠ [] ∧ ChunkedDecoder.pass ⟨buffer, .trailers, total⟩ =
        .wait ⟨buffer, .trailers, total⟩) := by
    by_cases htrailers : last.trailers = []
    · exact pass_noTrailers (by simpa [LastChunk.trailerBytes, htrailers] using h)
    · rw [trailerBytes_of_ne_nil htrailers] at h
      exact pass_someTrailers htrailers h
  obtain ⟨hrest, hpass⟩ | ⟨hrest, hpass⟩ := hpass
  · rw [hpass]
    exact ⟨hrest, rfl⟩
  · rw [hpass]
    exact ⟨hrest, 0, hpending, rfl⟩

theorem pass_follows {d : ChunkedDecoder} {rest : List UInt8} {n : ℕ}
    (h : Pending d.phase (d.buffer ++ rest) n) : Pass.Follows d rest n d.pass := by
  cases hphase : d.phase with
  | size =>
    rw [hphase] at h
    exact pass_size hphase h
  | data remaining =>
    rw [hphase] at h
    generalize hs : d.buffer ++ rest = stream at h
    cases h with
    | data data hdata more n hmore => exact pass_data hphase hdata hs hmore
  | dataEnding =>
    rw [hphase] at h
    generalize hs : d.buffer ++ rest = stream at h
    cases h with
    | dataEnding more n hmore => exact pass_dataEnding hphase hs hmore
  | trailers =>
    rw [hphase] at h
    generalize hs : d.buffer ++ rest = stream at h
    cases h with
    | trailers last => exact pass_trailers last hphase hs

theorem loop_follows (fuel : ℕ) (d : ChunkedDecoder) (rest : List UInt8) {n : ℕ}
    (hfuel : d.buffer.length < fuel) (h : Pending d.phase (d.buffer ++ rest) n) :
    (∃ d', ChunkedDecoder.loop fuel d = .finished d' ∧ rest = [] ∧ d'.total = d.total + n) ∨
      ∃ d', ChunkedDecoder.loop fuel d = .wait d' ∧ rest ≠ [] ∧
        ∃ n', Pending d'.phase (d'.buffer ++ rest) n' ∧ d'.total + n' = d.total + n := by
  induction fuel generalizing d n with
  | zero => omega
  | succ fuel ih =>
    have hfollows := pass_follows h
    rw [ChunkedDecoder.loop]
    cases hpass : d.pass with
    | finished d' =>
      rw [hpass] at hfollows
      exact Or.inl ⟨d', rfl, hfollows.1, hfollows.2⟩
    | wait d' =>
      rw [hpass] at hfollows
      exact Or.inr ⟨d', rfl, hfollows.1, hfollows.2⟩
    | next d' =>
      rw [hpass] at hfollows
      obtain ⟨hshorter, n', hpending, htotal⟩ := hfollows
      rw [← htotal]
      exact ih d' (by omega) hpending
    | failed halt d' =>
      rw [hpass] at hfollows
      exact hfollows.elim

/-- What the rest of a body is, the payload length that it leads to, and whether the end of
the connection ends it. -/
inductive Awaits : Bool → BodyDecoder → List UInt8 → ℕ → Prop
  | sized (rest : List UInt8) (total : ℕ) :
      Awaits false (.contentLength rest.length total) rest (total + rest.length)
  | chunked (d : ChunkedDecoder) (rest : List UInt8) (n : ℕ)
      (h : Pending d.phase (d.buffer ++ rest) n) : Awaits false (.chunked d) rest (d.total + n)
  | untilClose (rest : List UInt8) (total : ℕ) :
      Awaits true (.closeDelimited total) rest (total + rest.length)

theorem consume_sized (data rest : List UInt8) (total : ℕ) (eof : Bool) :
    BodyDecoder.consume (.contentLength (data ++ rest).length total) data eof =
      (if rest.length = 0 then .ok (some (total + data.length))
        else if eof then .error (invalidResponse "response body is incomplete") else .ok none,
        .contentLength rest.length (total + data.length)) := by
  have hmin : min data.length (data ++ rest).length = data.length := by simp
  have hsub : (data ++ rest).length - data.length = rest.length := by simp
  simp only [BodyDecoder.consume, hmin, hsub]

theorem consume_last {closing : Bool} {b : BodyDecoder} {data : List UInt8} {n : ℕ}
    (h : Awaits closing b data n) {eof : Bool} (heof : closing → eof) :
    (b.consume data eof).1 = .ok (some n) := by
  cases h with
  | sized rest total =>
    have := consume_sized data [] total eof
    rw [List.append_nil] at this
    rw [this]
    rfl
  | chunked d rest n h =>
    rw [← List.append_nil (d.buffer ++ data)] at h
    have hloop := loop_follows ((d.buffer ++ data).length + 1)
      { d with buffer := d.buffer ++ data } [] (Nat.lt_succ_self _) h
    simp only [BodyDecoder.consume, ChunkedDecoder.feed]
    rcases hloop with ⟨d', hd, -, htotal⟩ | ⟨d', -, hne, -⟩
    · rw [hd]
      simp only [htotal]
    · exact absurd rfl hne
  | untilClose rest total => simp only [BodyDecoder.consume, heof rfl, if_true]

theorem consume_part {closing : Bool} {b : BodyDecoder} {data rest : List UInt8} {n : ℕ}
    (h : Awaits closing b (data ++ rest) n) (hrest : closing = false → rest ≠ []) :
    ∃ b', b.consume data false = (.ok none, b') ∧ Awaits closing b' rest n := by
  generalize hs : data ++ rest = stream at h
  cases h with
  | sized rest' total =>
    have hpos := List.length_pos_of_ne_nil (hrest rfl)
    have hsum : total + (data ++ rest).length = total + data.length + rest.length := by
      rw [List.length_append, Nat.add_assoc]
    refine ⟨.contentLength rest.length (total + data.length), ?_, ?_⟩
    · rw [← hs, consume_sized, if_neg (by omega)]
      rfl
    · rw [← hs, hsum]
      exact .sized rest _
  | chunked d rest' n h =>
    rw [← hs, ← List.append_assoc] at h
    have hloop := loop_follows ((d.buffer ++ data).length + 1)
      { d with buffer := d.buffer ++ data } rest (Nat.lt_succ_self _) h
    simp only [BodyDecoder.consume, ChunkedDecoder.feed]
    rcases hloop with ⟨d', -, hnil, -⟩ | ⟨d', hd, -, n', hpending, htotal⟩
    · exact absurd hnil (hrest rfl)
    · rw [hd]
      refine ⟨.chunked d', rfl, ?_⟩
      have hawaits := Awaits.chunked d' rest n' hpending
      rwa [htotal] at hawaits
  | untilClose rest' total =>
    have hsum : total + (data ++ rest).length = total + data.length + rest.length := by
      rw [List.length_append, Nat.add_assoc]
    refine ⟨.closeDelimited (total + data.length), rfl, ?_⟩
    rw [← hs, hsum]
    exact .untilClose rest _

theorem awaits_bodyOf (b : Body) :
    Awaits b.endsWithConnection (ResponseDecoder.bodyOf false (framing b)) b.bytes
      b.payloadLength := by
  cases b with
  | sized payload hlt field =>
    have := Awaits.sized payload 0
    rwa [Nat.zero_add] at this
  | chunked chunks last field =>
    have := Awaits.chunked ChunkedDecoder.new _ _ (.size chunks last)
    rwa [show ChunkedDecoder.new.total = 0 from rfl, Nat.zero_add] at this
  | untilClose payload =>
    have := Awaits.untilClose payload 0
    rwa [Nat.zero_add] at this

/-- What each of the feeds returns. -/
def answers (d : ResponseDecoder) :
    List (List UInt8 × Bool) → List (Except Halt (Option ParsedResponse))
  | [] => []
  | (data, eof) :: fragments =>
    (d.feed data eof).1 :: answers (d.feed data eof).2 fragments

/-- The decoder that has read the head of `r` and nothing of its body. -/
def afterHead (r : Response) (noBody close : Bool) : ResponseDecoder where
  header := r.head
  head := some ⟨r.statusLine.status, close, framing r.body⟩
  body := ResponseDecoder.bodyOf noBody (framing r.body)
  noBody := noBody

/-- The decoder before its response has a complete head. -/
def withinHead (header : List UInt8) (noBody : Bool) : ResponseDecoder :=
  { ResponseDecoder.new noBody with header := header }

theorem feed_short {r : Response} {header data : List UInt8} (rest : List UInt8) (noBody : Bool)
    (hbytes : header ++ data ++ rest = r.bytes)
    (hshort : (header ++ data).length < r.head.length + 4) :
    (withinHead header noBody).feed data false =
      (.ok none, withinHead (header ++ data) noBody) := by
  have hmax : maxHeaderBytes = 65536 := rfl
  have hlimit : r.head.length ≤ 65533 := r.head_le
  have hnone : findBytes (header ++ data) blankLine = none := by
    apply firstOccurrence_eq_none_of_short (by simp [blankLine]) _ hshort
    · exact rest
    · rw [hbytes]
      exact findBytes_head r r.body.bytes
  have hlength : ¬ maxHeaderBytes < (header ++ data).length := by omega
  simp only [ResponseDecoder.feed, withinHead, ResponseDecoder.new, Option.isSome_none,
    Bool.false_eq_true, if_false, hnone, if_neg hlength]

theorem feed_head {r : Response} {close : Bool}
    (hhead : parseResponseHead r.head = .ok ⟨r.statusLine.status, close, framing r.body⟩)
    {header data rest : List UInt8} (noBody eof : Bool)
    (hbytes : header ++ data ++ rest = r.bytes)
    (hlong : r.head.length + 4 ≤ (header ++ data).length) :
    ∃ body, body ++ rest = r.body.bytes ∧
      (withinHead header noBody).feed data eof =
        (afterHead r noBody close).consumeBody body eof := by
  have hmax : maxHeaderBytes = 65536 := rfl
  have hlimit : r.head.length ≤ 65533 := r.head_le
  have hinitial : r.head ++ blankLine <+: header ++ data := by
    apply List.prefix_of_prefix_length_le _ (List.prefix_append (header ++ data) rest)
    · simpa [blankLine] using hlong
    · rw [hbytes]
      exact List.prefix_append _ _
  obtain ⟨body, hbody⟩ := hinitial
  have hdrop : (r.head ++ blankLine ++ body).drop (r.head.length + 4) = body :=
    List.drop_left' (by simp [blankLine])
  have htake : (r.head ++ blankLine ++ body).take r.head.length = r.head := by
    rw [List.append_assoc, List.take_left' rfl]
  have hshort : ¬ maxHeaderBytes < r.head.length := by omega
  refine ⟨body, ?_, ?_⟩
  · rw [← hbody, Response.bytes, List.append_assoc] at hbytes
    exact List.append_cancel_left hbytes
  · simp only [ResponseDecoder.feed, withinHead, ResponseDecoder.new, Option.isSome_none,
      Bool.false_eq_true, if_false, ← hbody, findBytes_head, hdrop, htake, if_neg hshort, hhead]
    rfl

/-- The fragments that end before the head does are swallowed. -/
theorem answers_head {r : Response} (noBody : Bool) (front : List (List UInt8))
    (header rest : List UInt8) (more : List (List UInt8 × Bool))
    (hbytes : header ++ front.flatten ++ rest = r.bytes)
    (hshort : (header ++ front.flatten).length < r.head.length + 4) :
    answers (withinHead header noBody) (front.map (·, false) ++ more) =
      List.replicate front.length (.ok none) ++
        answers (withinHead (header ++ front.flatten) noBody) more := by
  induction front generalizing header with
  | nil => simp
  | cons data front ih =>
    rw [List.flatten_cons, ← List.append_assoc] at hbytes hshort ⊢
    have hstep : (withinHead header noBody).feed data false =
        (.ok none, withinHead (header ++ data) noBody) := by
      apply feed_short (front.flatten ++ rest)
      · rw [← List.append_assoc, hbytes]
      · rw [List.length_append] at hshort
        omega
    rw [List.map_cons, List.cons_append, answers, hstep, ih _ hbytes hshort]
    rfl

/-- A decoder after the head of `r`, with `rest` of its body to come. -/
structure InBody (r : Response) (close : Bool) (rest : List UInt8) (d : ResponseDecoder) :
    Prop where
  head : d.head = some ⟨r.statusLine.status, close, framing r.body⟩
  awaits : Awaits r.body.endsWithConnection d.body rest r.body.payloadLength

theorem consumeBody_last {r : Response} {close : Bool} {data : List UInt8} {d : ResponseDecoder}
    (h : InBody r close data d) {eof : Bool} (heof : r.body.endsWithConnection → eof) :
    (d.consumeBody data eof).1 =
      .ok (some ⟨r.statusLine.status, r.body.payloadLength, close⟩) := by
  have hconsume := consume_last h.awaits heof
  simp only [ResponseDecoder.consumeBody, hconsume, h.head]

theorem consumeBody_part {r : Response} {close : Bool} {data rest : List UInt8}
    {d : ResponseDecoder} (h : InBody r close (data ++ rest) d)
    (hrest : r.body.endsWithConnection = false → rest ≠ []) :
    ∃ d', d.consumeBody data false = (.ok none, d') ∧ InBody r close rest d' := by
  obtain ⟨b', hconsume, hawaits⟩ := consume_part h.awaits hrest
  refine ⟨{ d with body := b' }, ?_, h.head, hawaits⟩
  simp only [ResponseDecoder.consumeBody, hconsume]

theorem feed_inBody {r : Response} {close : Bool} {rest : List UInt8} {d : ResponseDecoder}
    (h : InBody r close rest d) (data : List UInt8) (eof : Bool) :
    d.feed data eof = d.consumeBody data eof := by
  rw [ResponseDecoder.feed, h.head]
  rfl

theorem inBody_afterHead (r : Response) (close : Bool) :
    InBody r close r.body.bytes (afterHead r false close) :=
  ⟨rfl, awaits_bodyOf r.body⟩

section Fragments

variable {r : Response} {close : Bool} {last : List UInt8} {eof : Bool}

theorem answers_body (hlast : r.body.endsWithConnection = false → last ≠ [])
    (heof : r.body.endsWithConnection → eof) (front : List (List UInt8)) {d : ResponseDecoder}
    (h : InBody r close (front.flatten ++ last) d) :
    answers d (front.map (·, false) ++ [(last, eof)]) =
      List.replicate front.length (.ok none) ++
        [.ok (some ⟨r.statusLine.status, r.body.payloadLength, close⟩)] := by
  induction front generalizing d with
  | nil =>
    rw [List.flatten_nil, List.nil_append] at h
    rw [List.map_nil, List.nil_append, answers, feed_inBody h, consumeBody_last h heof]
    rfl
  | cons data front ih =>
    rw [List.flatten_cons, List.append_assoc] at h
    have hne : r.body.endsWithConnection = false → front.flatten ++ last ≠ [] := by
      intro hopen
      simp [hlast hopen]
    obtain ⟨d', hstep, h'⟩ := consumeBody_part h hne
    rw [List.map_cons, List.cons_append, answers, feed_inBody h, hstep, ih h']
    rfl

theorem answers_response
    (hhead : parseResponseHead r.head = .ok ⟨r.statusLine.status, close, framing r.body⟩)
    (hlast : r.body.endsWithConnection = false → last ≠ [])
    (heof : r.body.endsWithConnection → eof) (front : List (List UInt8)) (header : List UInt8)
    (hbytes : header ++ (front.flatten ++ last) = r.bytes)  :
    answers (withinHead header false) (front.map (·, false) ++ [(last, eof)]) =
      List.replicate front.length (.ok none) ++
        [.ok (some ⟨r.statusLine.status, r.body.payloadLength, close⟩)] := by
  induction front generalizing header with
  | nil =>
    rw [List.flatten_nil, List.nil_append] at hbytes
    have hlong : r.head.length + 4 ≤ (header ++ last).length := by
      rw [hbytes]
      simp [Response.bytes, blankLine]
    obtain ⟨body, hbody, hfeed⟩ := feed_head hhead false eof
      ((List.append_nil _).trans hbytes) hlong
    rw [List.append_nil] at hbody
    have hin := hbody ▸ inBody_afterHead r close
    rw [List.map_nil, List.nil_append, answers, hfeed, consumeBody_last hin heof]
    rfl
  | cons data front ih =>
    rw [List.flatten_cons, List.append_assoc, ← List.append_assoc] at hbytes
    rw [List.map_cons, List.cons_append, answers]
    by_cases hshort : (header ++ data).length < r.head.length + 4
    · rw [feed_short _ false hbytes hshort, ih _ hbytes]
      rfl
    · obtain ⟨body, hbody, hfeed⟩ := feed_head hhead false false hbytes (by omega)
      have hin := hbody ▸ inBody_afterHead r close
      have hne : r.body.endsWithConnection = false → front.flatten ++ last ≠ [] := by
        intro hopen
        simp [hlast hopen]
      obtain ⟨d', hstep, hin'⟩ := consumeBody_part hin hne
      rw [hfeed, hstep, answers_body hlast heof front hin']
      rfl

/-- A response to a request that allows no body ends with its head. -/
theorem answers_noBody
    (hhead : parseResponseHead r.head = .ok ⟨r.statusLine.status, close, framing r.body⟩)
    (front : List (List UInt8)) (rest : List UInt8)
    (hbytes : front.flatten ++ last ++ rest = r.bytes)
    (hshort : front.flatten.length < r.head.length + 4)
    (hlong : r.head.length + 4 ≤ (front.flatten ++ last).length) :
    answers (.new true) (front.map (·, false) ++ [(last, eof)]) =
      List.replicate front.length (.ok none) ++
        [.ok (some ⟨r.statusLine.status, 0, close⟩)] := by
  have hfront : answers (.new true) (front.map (·, false) ++ [(last, eof)]) =
      List.replicate front.length (.ok none) ++
        answers (withinHead front.flatten true) [(last, eof)] := by
    apply answers_head true front [] (last ++ rest)
    · rwa [List.nil_append, ← List.append_assoc]
    · rwa [List.nil_append]
  obtain ⟨body, hbody, hfeed⟩ := feed_head hhead true eof hbytes hlong
  have hend : ((afterHead r true close).consumeBody body eof).1 =
      .ok (some ⟨r.statusLine.status, 0, close⟩) := by
    simp [ResponseDecoder.consumeBody, afterHead, ResponseDecoder.bodyOf, BodyDecoder.consume]
  rw [hfront, answers, hfeed, hend]
  rfl

end Fragments

/-- Each fragment before the one with the last byte of the response is answered by nothing,
that one by the status and the length of the payload. A body that the end of the connection
delimits ends with the feed that reports it, a body that the request does not allow ends with
the head. -/
theorem fragments_answered (r : Response) :
    ∃ close,
      (r.body.endsWithConnection = false →
        ∀ (front : List (List UInt8)) (last : List UInt8) (eof : Bool), last ≠ [] →
        front.flatten ++ last = r.bytes →
        answers (.new false) (front.map (·, false) ++ [(last, eof)]) =
          List.replicate front.length (.ok none) ++
            [.ok (some ⟨r.statusLine.status, r.body.payloadLength, close⟩)]) ∧
      (r.body.endsWithConnection = true →
        ∀ (front : List (List UInt8)) (last : List UInt8), front.flatten ++ last = r.bytes →
        answers (.new false) (front.map (·, false) ++ [(last, true)]) =
          List.replicate front.length (.ok none) ++
            [.ok (some ⟨r.statusLine.status, r.body.payloadLength, close⟩)]) ∧
      ∀ (front : List (List UInt8)) (last rest : List UInt8) (eof : Bool),
        front.flatten ++ last ++ rest = r.bytes →
        front.flatten.length < r.head.length + 4 →
        r.head.length + 4 ≤ (front.flatten ++ last).length →
        answers (.new true) (front.map (·, false) ++ [(last, eof)]) =
          List.replicate front.length (.ok none) ++
            [.ok (some ⟨r.statusLine.status, 0, close⟩)] := by
  obtain ⟨close, hhead⟩ := parseResponseHead_head r
  refine ⟨close, ?_, ?_, ?_⟩
  · intro hopen front last eof hlast hbytes
    have heof : r.body.endsWithConnection → eof := by simp [hopen]
    exact answers_response hhead (fun _ => hlast) heof front [] hbytes
  · intro hclose front last hbytes
    have hlast : r.body.endsWithConnection = false → last ≠ [] := by simp [hclose]
    exact answers_response hhead hlast (fun _ => rfl) front [] hbytes
  · intro front last rest eof hbytes hshort hlong
    exact answers_noBody hhead front rest hbytes hshort hlong

def sampleResponse : Response where
  statusLine :=
    { minor := '1', code := ['2', '0', '0'], status := 200, tail := [' ', 'O', 'K']
      minor_digit := by decide, code_length := rfl, code_value := by decide
      tail_reason := Or.inr ⟨['O', 'K'], rfl⟩, no_cr := by decide, no_lf := by decide }
  before := []
  after := []
  body := .chunked
    [{ data := [97, 98], data_ne_nil := by decide, size_lt := by decide
       line := { digits := ['2'], extension := [';', 'x'], value := by decide
                 extension_eq := Or.inr ⟨['x'], rfl⟩, no_cr := by decide, no_lf := by decide
                 length_le := by decide } }]
    { line := { digits := ['0'], extension := [], value := by decide, extension_eq := Or.inl rfl
                no_cr := by decide, no_lf := by decide, length_le := by decide }
      trailers := [[65, 58, 66]], ne_nil := by decide, no_cr := by decide, no_lf := by decide
      length_le := by decide }
    { name := "Transfer-Encoding".toList, front := [], lead := [' '], coding := "chunked".toList
      trail := [], back := [], name_eq := by decide, front_list := Or.inl rfl
      lead_blank := by simp [IsBlank], coding_eq := by decide, trail_blank := by simp [IsBlank]
      back_list := Or.inl rfl, no_cr := by decide, no_lf := by decide }
  before_plain := by simp
  after_plain := by simp
  head_le := by decide +kernel

/-- The head with the first size digit, an empty fragment, then the rest but one byte. -/
theorem fragments_answered_sample :
    ∃ close, answers (.new false)
        ([sampleResponse.bytes.take 48, [], (sampleResponse.bytes.drop 48).dropLast].map
          (·, false) ++ [([10], false)]) =
      List.replicate 3 (.ok none) ++ [.ok (some ⟨200, 2, close⟩)] := by
  obtain ⟨close, hsized, -, -⟩ := fragments_answered sampleResponse
  exact ⟨close, hsized rfl _ [10] false (by decide) (by decide +kernel)⟩

end Rload.ResponseFraming
