import Rload.ResponseDecoder

/-!
# A response may come in fragments

Where a first fragment leaves the response incomplete, the decoder goes on as if the fragments
had come in one.
-/

namespace Rload

namespace ChunkedDecoder

/-- The bytes of a fragment join the buffer. -/
def extend (data : List UInt8) (d : ChunkedDecoder) : ChunkedDecoder :=
  { d with buffer := d.buffer ++ data }

/-- The loop, with fuel enough to end by itself. -/
def settle (d : ChunkedDecoder) : Pass := loop (d.buffer.length + 1) d

/-- A chunk has data: the chunk of size 0 is the last one. -/
def Sane (d : ChunkedDecoder) : Prop := d.phase ≠ .data 0

theorem findBytes_le {buffer needle : List UInt8} (hneedle : needle ≠ []) {i : ℕ}
    (h : findBytes buffer needle = some i) : i + needle.length ≤ buffer.length := by
  have hlen := ((TextScanning.firstOccurrence_eq_some_iff hneedle).mp h).1.length_le
  have hpos := List.length_pos_of_ne_nil hneedle
  rw [List.length_drop] at hlen
  omega

theorem findBytes_append {buffer needle : List UInt8} (hneedle : needle ≠ []) {i : ℕ}
    (h : findBytes buffer needle = some i) (data : List UInt8) :
    findBytes (buffer ++ data) needle = some i :=
  TextScanning.firstOccurrence_append hneedle h data

variable {d d' : ChunkedDecoder}

@[simp] theorem extend_nil (d : ChunkedDecoder) : d.extend [] = d := by
  rw [extend, List.append_nil]

/-- A pass that goes on has taken bytes from the buffer. -/
theorem length_of_next (h : d.pass = .next d') : d'.buffer.length < d.buffer.length := by
  cases passes_iff.mpr h with
  | size hline hlimit hsize =>
    have hle := findBytes_le (by simp [crlf]) hline
    simp only [crlf, List.length_cons, List.length_nil, List.length_drop] at hle ⊢
    omega
  | data hsome =>
    simp only [List.length_drop]
    omega
  | ending hending =>
    have hle : 2 ≤ _ := hending.length_le
    simp only [List.length_drop]
    omega

theorem loop_eq (n : ℕ) {m : ℕ} {d : ChunkedDecoder} (hn : d.buffer.length < n)
    (hm : d.buffer.length < m) : loop n d = loop m d := by
  induction n generalizing m d with
  | zero => omega
  | succ n ih =>
    cases m with
    | zero => omega
    | succ m =>
      rw [loop, loop]
      cases hpass : d.pass with
      | next d' =>
        have hlt := length_of_next hpass
        exact ih (by omega) (by omega)
      | wait d' => rfl
      | finished d' => rfl
      | failed halt d' => rfl

theorem settle_of_next (h : d.pass = .next d') : d.settle = d'.settle := by
  have hlt := length_of_next h
  have hloop : d.settle = loop d.buffer.length d' := by rw [settle, loop, h]
  rw [hloop]
  exact loop_eq _ hlt (Nat.lt_succ_self _)

theorem settle_of_stop (h : ∀ d', d.pass ≠ .next d') : d.settle = d.pass := by
  rw [settle, loop]
  cases hpass : d.pass with
  | next d' => exact absurd hpass (h d')
  | wait d' => rfl
  | finished d' => rfl
  | failed halt d' => rfl

theorem settle_congr {e : ChunkedDecoder} (h : d.pass = e.pass) : d.settle = e.settle := by
  cases hpass : d.pass with
  | next d' => rw [settle_of_next hpass, settle_of_next (h.symm.trans hpass)]
  | wait d' => rw [settle_of_stop (by simp [hpass]), settle_of_stop (by simp [← h, hpass]), h]
  | finished d' => rw [settle_of_stop (by simp [hpass]), settle_of_stop (by simp [← h, hpass]), h]
  | failed halt d' =>
    rw [settle_of_stop (by simp [hpass]), settle_of_stop (by simp [← h, hpass]), h]

theorem feed_eq (d : ChunkedDecoder) (data : List UInt8) (eof : Bool) :
    d.feed data eof = match (d.extend data).settle with
      | .finished d => (.ok (some d.total), d)
      | .failed halt d => (.error halt, d)
      | .next d | .wait d =>
        (if eof then .error (invalidResponse "chunked response body is incomplete") else .ok none,
          d) := rfl

theorem settle_ne_next (d : ChunkedDecoder) : ∀ d', d.settle ≠ .next d' := by
  induction hlen : d.buffer.length using Nat.strong_induction_on generalizing d with
  | _ n ih =>
    intro d'
    cases hpass : d.pass with
    | next d₁ =>
      rw [settle_of_next hpass]
      exact ih _ (hlen ▸ length_of_next hpass) d₁ rfl d'
    | wait d₁ => simp [settle_of_stop, hpass]
    | finished d₁ => simp [settle_of_stop, hpass]
    | failed halt d₁ => simp [settle_of_stop, hpass]

theorem Sane.pass (hsane : d.Sane) (h : d.pass = .next d' ∨ d.pass = .wait d') : d'.Sane := by
  cases h with
  | inl h =>
    cases passes_iff.mpr h with
    | size hline hlimit hsize =>
      rw [Sane]
      dsimp only
      split
      · simp
      · rename_i hpos
        simpa using hpos
    | data hsome =>
      rw [Sane]
      dsimp only
      split
      · simp
      · simp only [ne_eq, ChunkPhase.data.injEq]
        omega
    | ending hending => simp [Sane]
  | inr h =>
    cases passes_iff.mpr h with
    | noData hnone =>
      rw [Sane]
      dsimp only
      split
      · simp
      · simp only [ne_eq, ChunkPhase.data.injEq]
        omega
    | _ => exact hsane

/-- A pass that waits leaves the decoder as it is. -/
theorem wait_eq (hsane : d.Sane) (h : d.pass = .wait d') : d' = d := by
  cases passes_iff.mpr h with
  | @noData buffer total remaining hnone =>
    have hpos : remaining ≠ 0 := fun hzero => hsane (congrArg ChunkPhase.data hzero)
    rw [hnone, if_neg (Ne.symm hpos), Nat.sub_zero, List.drop_zero, Nat.add_zero]
  | _ => rfl

theorem pass_data (buffer : List UInt8) (remaining total : ℕ) :
    pass ⟨buffer, .data remaining, total⟩ =
      if min buffer.length remaining = 0 then
        .wait ⟨buffer.drop (min buffer.length remaining),
          if min buffer.length remaining = remaining then .dataEnding
            else .data (remaining - min buffer.length remaining),
          total + min buffer.length remaining⟩
      else
        .next ⟨buffer.drop (min buffer.length remaining),
          if min buffer.length remaining = remaining then .dataEnding
            else .data (remaining - min buffer.length remaining),
          total + min buffer.length remaining⟩ := rfl

/-- The data of a chunk that are not all there yet may be taken in one pass or in two. -/
theorem pass_data_append {buffer data : List UInt8} {remaining total : ℕ} (hbuffer : buffer ≠ [])
    (hdata : data ≠ []) (hshort : buffer.length < remaining) :
    pass ⟨buffer ++ data, .data remaining, total⟩ =
      pass ⟨data, .data (remaining - buffer.length), total + buffer.length⟩ := by
  have hpos := List.length_pos_of_ne_nil hdata
  have hpos' := List.length_pos_of_ne_nil hbuffer
  have hall : min (buffer ++ data).length remaining =
      buffer.length + min data.length (remaining - buffer.length) := by
    rw [List.length_append]
    omega
  have hsome : buffer.length + min data.length (remaining - buffer.length) ≠ 0 := by omega
  have hsome' : min data.length (remaining - buffer.length) ≠ 0 := by omega
  have hleft : remaining - (buffer.length + min data.length (remaining - buffer.length)) =
      remaining - buffer.length - min data.length (remaining - buffer.length) := by omega
  rw [pass_data, pass_data, hall, if_neg hsome, if_neg hsome', List.drop_length_add_append, hleft,
    Nat.add_assoc]
  by_cases hfull : min data.length (remaining - buffer.length) = remaining - buffer.length
  · rw [if_pos hfull, if_pos (by omega)]
  · rw [if_neg hfull, if_neg (by omega)]

/-- More bytes do not change a pass that goes on, but where they are data they may all be taken
at once. -/
theorem pass_extend (h : d.pass = .next d') (data : List UInt8) :
    (d.extend data).pass = .next (d'.extend data) ∨
      (d.extend data).pass = (d'.extend data).pass := by
  cases passes_iff.mpr h with
  | @size buffer total lineEnd size hline hlimit hsize =>
    apply Or.inl
    have hle := findBytes_le (by simp [crlf]) hline
    simp only [crlf, List.length_cons, List.length_nil] at hle
    have htake : (buffer ++ data).take lineEnd = buffer.take lineEnd :=
      List.take_append_of_le_length (by omega)
    have hdrop : (buffer ++ data).drop (lineEnd + 2) = buffer.drop (lineEnd + 2) ++ data :=
      List.drop_append_of_le_length (by omega)
    rw [extend, extend, ← hdrop]
    exact passes_iff.mp (.size (findBytes_append (by simp [crlf]) hline data) hlimit
      (htake.symm ▸ hsize))
  | @data buffer total remaining hsome =>
    by_cases hall : remaining ≤ buffer.length
    · -- all data of the chunk are there already
      apply Or.inl
      have hbefore : min buffer.length remaining = remaining := min_eq_right hall
      have hafter : min (buffer ++ data).length remaining = remaining := by
        rw [List.length_append]
        omega
      have hdrop : (buffer ++ data).drop remaining = buffer.drop remaining ++ data :=
        List.drop_append_of_le_length hall
      rw [hbefore] at hsome
      simp only [extend]
      rw [pass_data, hafter, if_neg hsome, hdrop, hbefore]
    · have hbefore : min buffer.length remaining = buffer.length :=
        min_eq_left (Nat.le_of_not_le hall)
      rw [hbefore] at hsome
      rw [hbefore, List.drop_length, if_neg (show buffer.length ≠ remaining by omega)]
      by_cases hdata : data = []
      · subst hdata
        apply Or.inl
        rw [extend_nil, extend_nil, pass_data, hbefore, if_neg hsome, List.drop_length,
          if_neg (show buffer.length ≠ remaining by omega)]
      · -- the rest of the data is taken in one pass instead of two
        apply Or.inr
        have hbuffer : buffer ≠ [] := fun hnil => hsome (by rw [hnil]; rfl)
        exact pass_data_append hbuffer hdata (Nat.lt_of_not_le hall)
  | @ending buffer total hending =>
    apply Or.inl
    have hdrop : (buffer ++ data).drop 2 = buffer.drop 2 ++ data :=
      List.drop_append_of_le_length hending.length_le
    rw [extend, extend, ← hdrop]
    exact passes_iff.mp (.ending (hending.trans (List.prefix_append buffer data)))

/-- Where the loop waits for more, it goes on as if it had not stopped. -/
theorem settle_extend (hsane : d.Sane) (h : d.settle = .wait d') (data : List UInt8) :
    (d'.extend data).settle = (d.extend data).settle ∧ d'.Sane := by
  induction hlen : d.buffer.length using Nat.strong_induction_on generalizing d with
  | _ n ih =>
    cases hpass : d.pass with
    | next d₁ =>
      rw [settle_of_next hpass] at h
      have hnext := ih _ (hlen ▸ length_of_next hpass) (hsane.pass (Or.inl hpass)) h rfl
      refine ⟨hnext.1.trans ?_, hnext.2⟩
      cases pass_extend hpass data with
      | inl hstep => exact (settle_of_next hstep).symm
      | inr hsame => exact (settle_congr hsame).symm
    | wait d₁ =>
      rw [settle_of_stop (by simp [hpass]), hpass] at h
      cases h
      obtain rfl := wait_eq hsane hpass
      exact ⟨rfl, hsane⟩
    | finished d₁ =>
      rw [settle_of_stop (by simp [hpass]), hpass] at h
      cases h
    | failed halt d₁ =>
      rw [settle_of_stop (by simp [hpass]), hpass] at h
      cases h

theorem feed_append (hsane : d.Sane) {data : List UInt8} (h : (d.feed data false).1 = .ok none)
    (more : List UInt8) (eof : Bool) :
    d.feed (data ++ more) eof = (d.feed data false).2.feed more eof ∧
      (d.feed data false).2.Sane := by
  rw [feed_eq] at h ⊢
  have hextend : d.extend (data ++ more) = (d.extend data).extend more := by
    simp only [extend, List.append_assoc]
  cases hsettle : (d.extend data).settle with
  | next d₁ => exact absurd hsettle (settle_ne_next _ d₁)
  | wait d₁ =>
    have hsane' : (d.extend data).Sane := hsane
    obtain ⟨hsame, hsane₁⟩ := settle_extend hsane' hsettle more
    have hstate : (d.feed data false).2 = d₁ := by rw [feed_eq, hsettle]
    rw [hstate, hextend, ← hsame, feed_eq d₁]
    exact ⟨rfl, hsane₁⟩
  | finished d₁ =>
    rw [hsettle] at h
    cases h
  | failed halt d₁ =>
    rw [hsettle] at h
    cases h

end ChunkedDecoder

def BodyDecoder.Sane : BodyDecoder → Prop
  | .chunked decoder => decoder.Sane
  | _ => True

theorem BodyDecoder.consume_append {b : BodyDecoder} (hsane : b.Sane) {data : List UInt8}
    (h : (b.consume data false).1 = .ok none) (more : List UInt8) (eof : Bool) :
    b.consume (data ++ more) eof = (b.consume data false).2.consume more eof ∧
      (b.consume data false).2.Sane := by
  cases b with
  | waiting => cases h
  | contentLength remaining total =>
    simp only [consume] at h ⊢
    have hleft : remaining - min data.length remaining ≠ 0 := by
      intro hzero
      rw [if_pos hzero] at h
      cases h
    have hall : min (data ++ more).length remaining = min data.length remaining +
        min more.length (remaining - min data.length remaining) := by
      rw [List.length_append]
      omega
    rw [hall, ← Nat.sub_sub, Nat.add_assoc]
    exact ⟨rfl, trivial⟩
  | chunked decoder =>
    have hfeed := ChunkedDecoder.feed_append hsane h more eof
    simp only [consume, hfeed.1]
    exact ⟨trivial, hfeed.2⟩
  | closeDelimited total =>
    simp only [consume, List.length_append, Nat.add_assoc]
    exact ⟨trivial, trivial⟩

namespace ResponseDecoder

variable {d : ResponseDecoder}

theorem consumeBody_append (hsane : d.body.Sane) {data : List UInt8}
    (h : (d.consumeBody data false).1 = .ok none) (more : List UInt8) (eof : Bool) :
    d.consumeBody (data ++ more) eof = (d.consumeBody data false).2.consumeBody more eof ∧
      (d.consumeBody data false).2.body.Sane ∧ (d.consumeBody data false).2.head = d.head := by
  cases hresult : (d.body.consume data false).1 with
  | error halt =>
    simp only [consumeBody, hresult] at h
    cases h
  | ok length =>
    cases length with
    | none =>
      have hconsume := BodyDecoder.consume_append hsane hresult more eof
      simp only [consumeBody, hresult, hconsume.1]
      exact ⟨trivial, hconsume.2, trivial⟩
    | some length =>
      simp only [consumeBody, hresult] at h
      split at h <;> cases h

/-- The decoder with the head that ends at `headerEnd`, and the bytes after it. -/
def parsed (header : List UInt8) (headerEnd : ℕ) (head : ResponseHead) (d : ResponseDecoder) :
    ResponseDecoder :=
  { header := header.take headerEnd
    head := some head
    body := bodyOf d.noBody head.framing
    noBody := d.noBody }

theorem feed_of_head {head : ResponseHead} (hhead : d.head = some head) (data : List UInt8)
    (eof : Bool) : d.feed data eof = d.consumeBody data eof := by
  rw [feed, hhead]
  rfl

theorem feed_of_short (hhead : d.head = none) {data : List UInt8}
    (hend : findBytes (d.header ++ data) blankLine = none) (eof : Bool) :
    d.feed data eof = (if maxHeaderBytes < (d.header ++ data).length then .error headersTooLong
      else if eof then .error (invalidResponse "headers are incomplete")
      else .ok none, { d with header := d.header ++ data }) := by
  simp only [feed, hhead, Option.isSome_none, Bool.false_eq_true, if_false, hend]

theorem feed_of_long (hhead : d.head = none) {data : List UInt8} {headerEnd : ℕ}
    (hend : findBytes (d.header ++ data) blankLine = some headerEnd)
    (hlong : maxHeaderBytes < headerEnd) (eof : Bool) :
    d.feed data eof = (.error headersTooLong, { d with header := d.header ++ data }) := by
  simp only [feed, hhead, Option.isSome_none, Bool.false_eq_true, if_false, hend, if_pos hlong]

theorem feed_of_invalid (hhead : d.head = none) {data : List UInt8} {headerEnd : ℕ} {halt : Halt}
    (hend : findBytes (d.header ++ data) blankLine = some headerEnd)
    (hlong : ¬ maxHeaderBytes < headerEnd)
    (hparse : parseResponseHead ((d.header ++ data).take headerEnd) = .error halt) (eof : Bool) :
    d.feed data eof = (.error halt, { d with header := (d.header ++ data).take headerEnd }) := by
  simp only [feed, hhead, Option.isSome_none, Bool.false_eq_true, if_false, hend, if_neg hlong,
    hparse]

theorem feed_of_parsed (hhead : d.head = none) {data : List UInt8} {headerEnd : ℕ}
    {head : ResponseHead} (hend : findBytes (d.header ++ data) blankLine = some headerEnd)
    (hlong : ¬ maxHeaderBytes < headerEnd)
    (hparse : parseResponseHead ((d.header ++ data).take headerEnd) = .ok head) (eof : Bool) :
    d.feed data eof =
      (d.parsed (d.header ++ data) headerEnd head).consumeBody
        ((d.header ++ data).drop (headerEnd + 4)) eof := by
  simp only [feed, hhead, Option.isSome_none, Bool.false_eq_true, if_false, hend, if_neg hlong,
    hparse, parsed]

theorem sane_bodyOf (noBody : Bool) (framing : BodyFraming) : (bodyOf noBody framing).Sane := by
  cases noBody with
  | true => trivial
  | false =>
    cases framing with
    | contentLength length => trivial
    | chunked => exact ChunkPhase.noConfusion
    | closeDelimited => trivial

/-- A fragment that leaves the response incomplete makes no difference to what comes next. -/
theorem feed_append (hsane : d.body.Sane) {data : List UInt8} (h : (d.feed data false).1 = .ok none)
    (more : List UInt8) (eof : Bool) :
    d.feed (data ++ more) eof = (d.feed data false).2.feed more eof ∧
      (d.feed data false).2.body.Sane := by
  cases hhead : d.head with
  | some head =>
    rw [feed_of_head hhead] at h
    obtain ⟨happend, hsane', hhead'⟩ := consumeBody_append hsane h more eof
    rw [feed_of_head hhead, feed_of_head hhead, happend, feed_of_head (hhead'.trans hhead)]
    exact ⟨rfl, hsane'⟩
  | none =>
    have happend : d.header ++ (data ++ more) = d.header ++ data ++ more :=
      (List.append_assoc _ _ _).symm
    cases hend : findBytes (d.header ++ data) blankLine with
    | none =>
      have hstate := feed_of_short hhead hend false
      rw [hstate]
      refine ⟨?_, hsane⟩
      simp only [feed, hhead, Option.isSome_none, Bool.false_eq_true, if_false, happend]
    | some headerEnd =>
      have hle := ChunkedDecoder.findBytes_le (by simp [blankLine]) hend
      simp only [blankLine, List.length_cons, List.length_nil] at hle
      have hend' : findBytes (d.header ++ (data ++ more)) blankLine = some headerEnd := by
        rw [happend]
        exact ChunkedDecoder.findBytes_append (by simp [blankLine]) hend more
      have htake : (d.header ++ (data ++ more)).take headerEnd =
          (d.header ++ data).take headerEnd := by
        rw [happend]
        exact List.take_append_of_le_length (by omega)
      have hdrop : (d.header ++ (data ++ more)).drop (headerEnd + 4) =
          (d.header ++ data).drop (headerEnd + 4) ++ more := by
        rw [happend]
        exact List.drop_append_of_le_length (by omega)
      by_cases hlong : maxHeaderBytes < headerEnd
      · rw [feed_of_long hhead hend hlong] at h
        cases h
      · cases hparse : parseResponseHead ((d.header ++ data).take headerEnd) with
        | error halt =>
          rw [feed_of_invalid hhead hend hlong hparse] at h
          cases h
        | ok head =>
          have hparse' : parseResponseHead ((d.header ++ (data ++ more)).take headerEnd) =
              .ok head := by rw [htake, hparse]
          have hsame : d.parsed (d.header ++ (data ++ more)) headerEnd head =
              d.parsed (d.header ++ data) headerEnd head := by
            rw [parsed, parsed, htake]
          rw [feed_of_parsed hhead hend hlong hparse] at h
          have hsane' : (d.parsed (d.header ++ data) headerEnd head).body.Sane :=
            sane_bodyOf d.noBody head.framing
          obtain ⟨hconsume, hsane'', hhead'⟩ := consumeBody_append hsane' h more eof
          rw [feed_of_parsed hhead hend' hlong hparse', hsame, hdrop, hconsume,
            feed_of_parsed hhead hend hlong hparse, feed_of_head (hhead'.trans rfl)]
          exact ⟨rfl, hsane''⟩

/-- The end of the stream changes the answer, and not the decoder. -/
theorem feed_eof (d : ResponseDecoder) (data : List UInt8) (eof : Bool) :
    (d.feed data eof).2 = (d.feed data false).2 := by
  have hconsume : ∀ (d : ResponseDecoder) (data : List UInt8),
      (d.consumeBody data eof).2 = (d.consumeBody data false).2 := by
    intro d data
    have hbody : ∀ eof, (d.consumeBody data eof).2 =
        { d with body := (d.body.consume data eof).2 } := by
      intro eof
      simp only [consumeBody]
      split
      · rfl
      · rfl
      · split <;> rfl
    rw [hbody, hbody]
    cases d.body with
    | waiting => rfl
    | contentLength remaining total => rfl
    | chunked decoder =>
      simp only [BodyDecoder.consume, ChunkedDecoder.feed_eq]
      cases (decoder.extend data).settle <;> rfl
    | closeDelimited total => rfl
  cases hhead : d.head with
  | some head => rw [feed_of_head hhead, feed_of_head hhead, hconsume]
  | none =>
    cases hend : findBytes (d.header ++ data) blankLine with
    | none => rw [feed_of_short hhead hend, feed_of_short hhead hend]
    | some headerEnd =>
      by_cases hlong : maxHeaderBytes < headerEnd
      · rw [feed_of_long hhead hend hlong, feed_of_long hhead hend hlong]
      · cases hparse : parseResponseHead ((d.header ++ data).take headerEnd) with
        | error halt =>
          rw [feed_of_invalid hhead hend hlong hparse, feed_of_invalid hhead hend hlong hparse]
        | ok head =>
          rw [feed_of_parsed hhead hend hlong hparse, feed_of_parsed hhead hend hlong hparse,
            hconsume]

end ResponseDecoder

end Rload
