import Rload.ResponseFragments

/-!
# The limit on control data

The head of a response, the size line of a chunk and the trailer section may have 64 KiB each.
Where their terminator has arrived the decoder compares its place with the limit, and where it
has not, the bytes that are there. A fragment that ends inside a terminator makes the difference
between the two.
-/

namespace Rload
open TextScanning

/-- A head, a size line or a trailer section of a stream: the place of its first byte, the
number of bytes before its terminator, and the place behind the terminator. One without a
terminator goes to the end of the stream. -/
structure ControlPart where
  start : ℕ
  length : ℕ
  stop : ℕ
  deriving DecidableEq, Repr

namespace ControlPart

def IsOversized (p : ControlPart) : Prop := maxHeaderBytes < p.length

/-- A fragment ends inside the part or its terminator, when more bytes than the limit allows
are there. -/
def IsCutAt (p : ControlPart) (place : ℕ) : Prop :=
  p.start + maxHeaderBytes < place ∧ place < p.stop

/-- The part is within the limit, and complete before this place. -/
structure IsPassed (p : ControlPart) (place : ℕ) : Prop where
  length_le : p.length ≤ maxHeaderBytes
  stop_le : p.stop ≤ place

end ControlPart

/-- The control data of the rest of a chunked body, from this place of the stream on. -/
inductive ChunkControl : ℕ → ChunkPhase → List UInt8 → ControlPart → Prop
  | sizeLine {place : ℕ} {bytes : List UInt8} {lineEnd : ℕ}
      (hline : findBytes bytes crlf = some lineEnd) :
      ChunkControl place .size bytes ⟨place, lineEnd, place + lineEnd + 2⟩
  | openLine {place : ℕ} {bytes : List UInt8} (hline : findBytes bytes crlf = none) :
      ChunkControl place .size bytes ⟨place, bytes.length, place + bytes.length⟩
  | afterLine {place : ℕ} {bytes : List UInt8} {lineEnd size : ℕ} {part : ControlPart}
      (hline : findBytes bytes crlf = some lineEnd)
      (hsize : ChunkedDecoder.chunkSize (bytes.take lineEnd) = some size)
      (hpart : ChunkControl (place + lineEnd + 2) (if size = 0 then .trailers else .data size)
        (bytes.drop (lineEnd + 2)) part) :
      ChunkControl place .size bytes part
  | afterData {place : ℕ} {bytes : List UInt8} {remaining : ℕ} {part : ControlPart}
      (hdata : remaining ≤ bytes.length)
      (hpart : ChunkControl (place + remaining) .dataEnding (bytes.drop remaining) part) :
      ChunkControl place (.data remaining) bytes part
  | afterEnding {place : ℕ} {bytes : List UInt8} {part : ControlPart} (hending : crlf <+: bytes)
      (hpart : ChunkControl (place + 2) .size (bytes.drop 2) part) :
      ChunkControl place .dataEnding bytes part
  | noTrailers {place : ℕ} {bytes : List UInt8} (hending : crlf <+: bytes) :
      ChunkControl place .trailers bytes ⟨place, 0, place + 2⟩
  | trailers {place : ℕ} {bytes : List UInt8} {sectionEnd : ℕ} (hsome : ¬ crlf <+: bytes)
      (hend : findBytes bytes blankLine = some sectionEnd) :
      ChunkControl place .trailers bytes ⟨place, sectionEnd, place + sectionEnd + 4⟩
  | openTrailers {place : ℕ} {bytes : List UInt8} (hsome : ¬ crlf <+: bytes)
      (hend : findBytes bytes blankLine = none) :
      ChunkControl place .trailers bytes ⟨place, bytes.length, place + bytes.length⟩

/-- The control data of the rest of a response, from this place of the stream on. -/
inductive ResponseControl : ℕ → Bool → List UInt8 → ControlPart → Prop
  | head {place : ℕ} {noBody : Bool} {bytes : List UInt8} {headerEnd : ℕ}
      (hend : findBytes bytes blankLine = some headerEnd) :
      ResponseControl place noBody bytes ⟨place, headerEnd, place + headerEnd + 4⟩
  | openHead {place : ℕ} {noBody : Bool} {bytes : List UInt8}
      (hend : findBytes bytes blankLine = none) :
      ResponseControl place noBody bytes ⟨place, bytes.length, place + bytes.length⟩
  | body {place : ℕ} {bytes : List UInt8} {headerEnd : ℕ} {head : ResponseHead}
      {part : ControlPart} (hend : findBytes bytes blankLine = some headerEnd)
      (hparse : parseResponseHead (bytes.take headerEnd) = .ok head)
      (hchunked : head.framing = .chunked)
      (hpart : ChunkControl (place + headerEnd + 4) .size (bytes.drop (headerEnd + 4)) part) :
      ResponseControl place false bytes part

/-- What is not found in the first bytes does not end within them. -/
theorem findBytes_split {bytes needle : List UInt8} (hneedle : needle ≠ []) {more : List UInt8}
    {i : ℕ} (hnone : findBytes bytes needle = none)
    (h : findBytes (bytes ++ more) needle = some i) : bytes.length < i + needle.length := by
  by_contra hle
  have hpos := List.length_pos_of_ne_nil hneedle
  obtain ⟨hat, hbefore⟩ := (firstOccurrence_eq_some_iff hneedle).mp h
  have hfound : findBytes bytes needle = some i := by
    apply (firstOccurrence_eq_some_iff hneedle).mpr
    refine ⟨?_, fun j hj hp => hbefore j hj ?_⟩
    · rw [List.drop_append_of_le_length (by omega)] at hat
      exact List.prefix_of_prefix_length_le hat (List.prefix_append _ _)
        (by rw [List.length_drop]; omega)
    · rw [List.drop_append_of_le_length (by omega)]
      exact hp.trans (List.prefix_append _ _)
  rw [hnone] at hfound
  cases hfound

theorem crlf_prefix_append {bytes : List UInt8} (hlong : 2 ≤ bytes.length) (more : List UInt8) :
    crlf <+: bytes ++ more ↔ crlf <+: bytes := by
  constructor
  · intro h
    exact List.prefix_of_prefix_length_le h (List.prefix_append _ _) hlong
  · intro h
    exact h.trans (List.prefix_append _ _)

theorem findBytes_crlf_le {bytes : List UInt8} {i : ℕ} (h : findBytes bytes crlf = some i) :
    i + 2 ≤ bytes.length := ChunkedDecoder.findBytes_le (by simp [crlf]) h

theorem findBytes_blankLine_le {bytes : List UInt8} {i : ℕ}
    (h : findBytes bytes blankLine = some i) : i + 4 ≤ bytes.length :=
  ChunkedDecoder.findBytes_le (by simp [blankLine]) h

/-- Control data lie within the stream. -/
theorem ChunkControl.within {place : ℕ} {phase : ChunkPhase} {bytes : List UInt8}
    {part : ControlPart} (h : ChunkControl place phase bytes part) :
    place ≤ part.start ∧ part.start + part.length ≤ part.stop ∧
      part.stop ≤ place + bytes.length := by
  induction h with
  | sizeLine hline =>
    have hle := findBytes_crlf_le hline
    dsimp only
    omega
  | openLine hline => dsimp only; omega
  | afterLine hline hsize hpart ih =>
    have hle := findBytes_crlf_le hline
    rw [List.length_drop] at ih
    omega
  | afterData hdata hpart ih =>
    rw [List.length_drop] at ih
    omega
  | afterEnding hending hpart ih =>
    have hle : 2 ≤ _ := hending.length_le
    rw [List.length_drop] at ih
    omega
  | noTrailers hending =>
    have hle : 2 ≤ _ := hending.length_le
    dsimp only
    omega
  | trailers hsome hend =>
    have hle := findBytes_blankLine_le hend
    dsimp only
    omega
  | openTrailers hsome hend => dsimp only; omega

theorem ResponseControl.within {place : ℕ} {noBody : Bool} {bytes : List UInt8}
    {part : ControlPart} (h : ResponseControl place noBody bytes part) :
    place ≤ part.start ∧ part.start + part.length ≤ part.stop ∧
      part.stop ≤ place + bytes.length := by
  cases h with
  | head hend =>
    have hle := findBytes_blankLine_le hend
    dsimp only
    omega
  | openHead hend => dsimp only; omega
  | body hend hparse hchunked hpart =>
    have hle := findBytes_blankLine_le hend
    have hwithin := hpart.within
    rw [List.length_drop] at hwithin
    omega

section Arrived

variable {place lineEnd remaining consumed sectionEnd : ℕ} {buffer bytes : List UInt8}
  {part : ControlPart}

/-- The control data before which a size line has arrived. -/
theorem chunkControl_line (hline : findBytes buffer crlf = some lineEnd) (more : List UInt8) :
    ChunkControl place .size (buffer ++ more) part ↔
      part = ⟨place, lineEnd, place + lineEnd + 2⟩ ∨
        ∃ size, ChunkedDecoder.chunkSize (buffer.take lineEnd) = some size ∧
          ChunkControl (place + lineEnd + 2) (if size = 0 then .trailers else .data size)
            (buffer.drop (lineEnd + 2) ++ more) part := by
  have hle := findBytes_crlf_le hline
  have hline' := ChunkedDecoder.findBytes_append (by simp [crlf]) hline more
  have htake : (buffer ++ more).take lineEnd = buffer.take lineEnd :=
    List.take_append_of_le_length (by omega)
  have hdrop : (buffer ++ more).drop (lineEnd + 2) = buffer.drop (lineEnd + 2) ++ more :=
    List.drop_append_of_le_length (by omega)
  constructor
  · intro h
    cases h with
    | sizeLine hother =>
      obtain rfl := Option.some.inj (hline'.symm.trans hother)
      exact Or.inl rfl
    | openLine hother =>
      rw [hline'] at hother
      cases hother
    | afterLine hother hsize hpart =>
      obtain rfl := Option.some.inj (hline'.symm.trans hother)
      rw [htake] at hsize
      rw [hdrop] at hpart
      exact Or.inr ⟨_, hsize, hpart⟩
  · rintro (rfl | ⟨size, hsize, hpart⟩)
    · exact .sizeLine hline'
    · exact .afterLine hline' (htake.symm ▸ hsize) (hdrop.symm ▸ hpart)

theorem chunkControl_data_iff : ChunkControl place (.data remaining) bytes part ↔
    remaining ≤ bytes.length ∧
      ChunkControl (place + remaining) .dataEnding (bytes.drop remaining) part := by
  constructor
  · intro h
    cases h with
    | afterData hdata hpart => exact ⟨hdata, hpart⟩
  · exact fun h => .afterData h.1 h.2

/-- Control data lie behind the data that have arrived. -/
theorem chunkControl_data (hconsumed : consumed ≤ buffer.length) (hle : consumed ≤ remaining)
    (more : List UInt8) : ChunkControl place (.data remaining) (buffer ++ more) part ↔
      ChunkControl (place + consumed)
        (if consumed = remaining then .dataEnding else .data (remaining - consumed))
        (buffer.drop consumed ++ more) part := by
  have hdrop : buffer.drop consumed ++ more = (buffer ++ more).drop consumed :=
    (List.drop_append_of_le_length hconsumed).symm
  have hlength : consumed ≤ (buffer ++ more).length :=
    hconsumed.trans (List.prefix_append _ _).length_le
  rw [chunkControl_data_iff, hdrop]
  split
  · rename_i heq
    subst heq
    exact and_iff_right hlength
  · have hplace : place + consumed + (remaining - consumed) = place + remaining := by omega
    rw [chunkControl_data_iff, hplace, List.drop_drop, Nat.add_sub_cancel' hle, List.length_drop]
    exact and_congr_left' (by omega)

theorem chunkControl_ending (hending : crlf <+: buffer) (more : List UInt8) :
    ChunkControl place .dataEnding (buffer ++ more) part ↔
      ChunkControl (place + 2) .size (buffer.drop 2 ++ more) part := by
  have hle : 2 ≤ buffer.length := hending.length_le
  rw [← List.drop_append_of_le_length hle]
  constructor
  · intro h
    cases h with
    | afterEnding _ hpart => exact hpart
  · exact fun hpart => .afterEnding (hending.trans (List.prefix_append _ _)) hpart

theorem chunkControl_noTrailers (hending : crlf <+: buffer) {more : List UInt8}
    (h : ChunkControl place .trailers (buffer ++ more) part) : part = ⟨place, 0, place + 2⟩ := by
  have hending' : crlf <+: buffer ++ more := hending.trans (List.prefix_append _ _)
  cases h with
  | noTrailers _ => rfl
  | trailers hsome _ => exact absurd hending' hsome
  | openTrailers hsome _ => exact absurd hending' hsome

theorem chunkControl_trailers (hsome : ¬ crlf <+: buffer)
    (hend : findBytes buffer blankLine = some sectionEnd) {more : List UInt8}
    (h : ChunkControl place .trailers (buffer ++ more) part) :
    part = ⟨place, sectionEnd, place + sectionEnd + 4⟩ := by
  have hle := findBytes_blankLine_le hend
  have hend' := ChunkedDecoder.findBytes_append (by simp [blankLine]) hend more
  cases h with
  | noTrailers hending => exact absurd ((crlf_prefix_append (by omega) more).mp hending) hsome
  | trailers _ hother =>
    obtain rfl := Option.some.inj (hend'.symm.trans hother)
    rfl
  | openTrailers _ hother =>
    rw [hend'] at hother
    cases hother

/-- The control data of a response whose head has arrived. -/
theorem responseControl_head {noBody : Bool} {headerEnd : ℕ}
    (hend : findBytes bytes blankLine = some headerEnd) (more : List UInt8) :
    ResponseControl place noBody (bytes ++ more) part ↔
      part = ⟨place, headerEnd, place + headerEnd + 4⟩ ∨
        noBody = false ∧ ∃ head, parseResponseHead (bytes.take headerEnd) = .ok head ∧
          head.framing = .chunked ∧
          ChunkControl (place + headerEnd + 4) .size (bytes.drop (headerEnd + 4) ++ more) part := by
  have hle := findBytes_blankLine_le hend
  have hend' := ChunkedDecoder.findBytes_append (by simp [blankLine]) hend more
  have htake : (bytes ++ more).take headerEnd = bytes.take headerEnd :=
    List.take_append_of_le_length (by omega)
  have hdrop : (bytes ++ more).drop (headerEnd + 4) = bytes.drop (headerEnd + 4) ++ more :=
    List.drop_append_of_le_length (by omega)
  constructor
  · intro h
    cases h with
    | head hother =>
      obtain rfl := Option.some.inj (hend'.symm.trans hother)
      exact Or.inl rfl
    | openHead hother =>
      rw [hend'] at hother
      cases hother
    | body hother hparse hchunked hpart =>
      obtain rfl := Option.some.inj (hend'.symm.trans hother)
      rw [htake] at hparse
      rw [hdrop] at hpart
      exact Or.inr ⟨rfl, _, hparse, hchunked, hpart⟩
  · rintro (rfl | ⟨rfl, head, hparse, hchunked, hpart⟩)
    · exact .head hend'
    · exact .body hend' (htake.symm ▸ hparse) hchunked (hdrop.symm ▸ hpart)

end Arrived

namespace ChunkedDecoder

variable {d d' : ChunkedDecoder} {place : ℕ} {part : ControlPart}

/-- The control data that lie before the decoder once `more` has arrived. -/
def Control (place : ℕ) (d : ChunkedDecoder) (more : List UInt8) (part : ControlPart) : Prop :=
  ChunkControl place d.phase (d.buffer ++ more) part

/-- From one decoder to another one further on: the parts between them are passed. -/
structure Leads (place : ℕ) (d : ChunkedDecoder) (place' : ℕ) (d' : ChunkedDecoder) : Prop where
  place_eq : place' + d'.buffer.length = place + d.buffer.length
  ahead : ∀ more part, Control place' d' more part → Control place d more part
  passed : ∀ more part, Control place d more part →
    part.IsPassed (place + d.buffer.length) ∨ Control place' d' more part

theorem Leads.refl (place : ℕ) (d : ChunkedDecoder) : Leads place d place d where
  place_eq := rfl
  ahead _ _ h := h
  passed _ _ h := Or.inr h

theorem Leads.trans {place' place'' : ℕ} {d'' : ChunkedDecoder} (h : Leads place d place' d')
    (h' : Leads place' d' place'' d'') : Leads place d place'' d'' where
  place_eq := h'.place_eq.trans h.place_eq
  ahead more part hpart := h.ahead more part (h'.ahead more part hpart)
  passed more part hpart := by
    cases h.passed more part hpart with
    | inl hpassed => exact Or.inl hpassed
    | inr hpart =>
      rw [← h.place_eq]
      exact h'.passed more part hpart

theorem Leads.of_iff {place' : ℕ}
    (hplace : place' + d'.buffer.length = place + d.buffer.length)
    (h : ∀ more part, Control place d more part ↔ Control place' d' more part) :
    Leads place d place' d' where
  place_eq := hplace
  ahead more part hpart := (h more part).mpr hpart
  passed more part hpart := Or.inr ((h more part).mp hpart)

section Phases

variable {buffer : List UInt8} {total : ℕ}

theorem line_leads (place : ℕ) {lineEnd size : ℕ} (hline : findBytes buffer crlf = some lineEnd)
    (hlimit : lineEnd ≤ maxHeaderBytes) (hsize : chunkSize (buffer.take lineEnd) = some size) :
    Leads place ⟨buffer, .size, total⟩ (place + lineEnd + 2)
      ⟨buffer.drop (lineEnd + 2), if size = 0 then .trailers else .data size, total⟩ := by
  have hle := findBytes_crlf_le hline
  refine ⟨?_, fun more part hpart => ?_, fun more part hpart => ?_⟩
  · dsimp only
    rw [List.length_drop]
    omega
  · exact (chunkControl_line hline more).mpr (Or.inr ⟨size, hsize, hpart⟩)
  · obtain rfl | ⟨size', hsize', hpart⟩ := (chunkControl_line hline more).mp hpart
    · exact Or.inl ⟨hlimit, by dsimp only; omega⟩
    · cases hsize.symm.trans hsize'
      exact Or.inr hpart

theorem data_leads (place remaining : ℕ) :
    Leads place ⟨buffer, .data remaining, total⟩ (place + min buffer.length remaining)
      ⟨buffer.drop (min buffer.length remaining),
        if min buffer.length remaining = remaining then .dataEnding
          else .data (remaining - min buffer.length remaining),
        total + min buffer.length remaining⟩ := by
  refine .of_iff ?_ fun more part =>
    chunkControl_data (min_le_left buffer.length remaining) (min_le_right _ _) more
  dsimp only
  rw [List.length_drop]
  omega

theorem ending_leads (place : ℕ) (hending : crlf <+: buffer) :
    Leads place ⟨buffer, .dataEnding, total⟩ (place + 2) ⟨buffer.drop 2, .size, total⟩ := by
  have hle : 2 ≤ buffer.length := hending.length_le
  refine .of_iff ?_ fun more part => chunkControl_ending hending more
  dsimp only
  rw [List.length_drop]
  omega

end Phases

theorem pass_leads (place : ℕ) (h : d.pass = .next d') : ∃ place', Leads place d place' d' := by
  cases passes_iff.mpr h with
  | size hline hlimit hsize => exact ⟨_, line_leads place hline hlimit hsize⟩
  | data hsome => exact ⟨_, data_leads place _⟩
  | ending hending => exact ⟨_, ending_leads place hending⟩

/-- The last pass of a loop comes after passes that go on. -/
theorem settle_leads (place : ℕ) (hsane : d.Sane) :
    ∃ place' d', Leads place d place' d' ∧ d'.Sane ∧ d.settle = d'.pass := by
  induction hlen : d.buffer.length using Nat.strong_induction_on generalizing d place with
  | _ n ih =>
    cases hpass : d.pass with
    | next d₁ =>
      obtain ⟨place₁, hleads⟩ := pass_leads place hpass
      obtain ⟨place', d', hleads', hsane', hsettle⟩ :=
        ih _ (hlen ▸ length_of_next hpass) place₁ (hsane.pass (Or.inl hpass)) rfl
      exact ⟨place', d', hleads.trans hleads', hsane', (settle_of_next hpass).trans hsettle⟩
    | wait d₁ => exact ⟨place, d, Leads.refl place d, hsane, settle_of_stop (by simp [hpass])⟩
    | finished d₁ => exact ⟨place, d, Leads.refl place d, hsane, settle_of_stop (by simp [hpass])⟩
    | failed halt d₁ =>
      exact ⟨place, d, Leads.refl place d, hsane, settle_of_stop (by simp [hpass])⟩

/-- The errors of chunks. -/
theorem failed_cases {halt : Halt} (h : d.pass = .failed halt d') :
    halt = controlTooLong ∨ halt = invalidResponse "chunk size is invalid" ∨
      halt = invalidResponse "chunk is not CRLF terminated" := by
  cases passes_iff.mpr h with
  | noSize => exact Or.inr (Or.inl rfl)
  | noEnding => exact Or.inr (Or.inr rfl)
  | _ => exact Or.inl rfl

/-- A decoder that waits holds no more bytes than the limit. -/
theorem wait_le (hsane : d.Sane) (h : d.pass = .wait d') : d.buffer.length ≤ maxHeaderBytes := by
  have hmax : maxHeaderBytes = 65536 := rfl
  cases passes_iff.mpr h with
  | openLine hline hshort => exact hshort
  | @noData buffer total remaining hnone =>
    have hpos : remaining ≠ 0 := fun hzero => hsane (congrArg ChunkPhase.data hzero)
    dsimp only
    omega
  | shortEnding hshort =>
    dsimp only
    omega
  | openTrailers hsome hend hshort => exact hshort

/-- Where the decoder ends without the verdict that control data are too long, all of them are
passed. -/
theorem passed_of_pass (h : d.pass = .finished d' ∨
    ∃ halt, halt ≠ controlTooLong ∧ d.pass = .failed halt d') {more : List UInt8}
    (hpart : Control place d more part) : part.IsPassed (place + d.buffer.length) := by
  obtain h | ⟨halt, hne, h⟩ := h
  · cases passes_iff.mpr h with
    | noTrailers hending =>
      obtain rfl := chunkControl_noTrailers hending hpart
      exact ⟨Nat.zero_le _, Nat.add_le_add_left hending.length_le _⟩
    | trailers hsome hend hlimit =>
      have hle := findBytes_blankLine_le hend
      obtain rfl := chunkControl_trailers hsome hend hpart
      exact ⟨hlimit, by dsimp only; omega⟩
  · cases passes_iff.mpr h with
    | noSize hline hlimit hsize =>
      have hle := findBytes_crlf_le hline
      obtain rfl | ⟨size, hsize', -⟩ := (chunkControl_line hline more).mp hpart
      · exact ⟨hlimit, by dsimp only; omega⟩
      · cases hsize.symm.trans hsize'
    | noEnding hlong hending =>
      cases hpart with
      | afterEnding hother _ => exact absurd ((crlf_prefix_append hlong more).mp hother) hending
    | _ => exact absurd rfl hne

/-- A mark that too many bytes do not have is not in what they begin either, or it ends behind
them. -/
theorem open_or_cut {buffer mark : List UInt8} (hmark : mark ≠ [])
    (hnone : findBytes buffer mark = none) (hlong : maxHeaderBytes < buffer.length)
    (more : List UInt8) :
    (findBytes (buffer ++ more) mark = none ∧ maxHeaderBytes < (buffer ++ more).length) ∨
      ∃ found, findBytes (buffer ++ more) mark = some found ∧
        buffer.length < found + mark.length := by
  cases hfound : findBytes (buffer ++ more) mark with
  | none => exact Or.inl ⟨rfl, hlong.trans_le (List.prefix_append _ _).length_le⟩
  | some found => exact Or.inr ⟨found, rfl, findBytes_split hmark hnone hfound⟩

/-- Control data that are too long are oversized, or a fragment ends inside their terminator. -/
theorem exists_of_tooLong (h : d.pass = .failed controlTooLong d') (place : ℕ)
    (more : List UInt8) :
    ∃ part, Control place d more part ∧
      (part.IsOversized ∨ part.IsCutAt (place + d.buffer.length)) := by
  have hmax : maxHeaderBytes = 65536 := rfl
  generalize hhalt : controlTooLong = halt at h
  cases passes_iff.mpr h with
  | endlessLine hline hlong =>
    obtain ⟨hline, hopen⟩ | ⟨lineEnd, hline, hcut⟩ :=
      open_or_cut (by simp [crlf]) hline hlong more
    · exact ⟨_, .openLine hline, Or.inl hopen⟩
    · refine ⟨_, .sizeLine hline, Or.inr ⟨Nat.add_lt_add_left hlong _, ?_⟩⟩
      dsimp only [crlf, List.length_cons, List.length_nil] at hcut ⊢
      omega
  | longLine hline hlong =>
    exact ⟨_, .sizeLine (findBytes_append (by simp [crlf]) hline more), Or.inl hlong⟩
  | noSize => simp [invalidResponse, controlTooLong] at hhalt
  | noEnding => simp [invalidResponse, controlTooLong] at hhalt
  | @longTrailers buffer total sectionEnd hsome hend hlong =>
    have hle := findBytes_blankLine_le hend
    have hmore : ¬ crlf <+: buffer ++ more := mt (crlf_prefix_append (by omega) more).mp hsome
    exact ⟨_, .trailers hmore (findBytes_append (by simp [blankLine]) hend more), Or.inl hlong⟩
  | @endlessTrailers buffer total hsome hend hlong =>
    have hmore : ¬ crlf <+: buffer ++ more := mt (crlf_prefix_append (by omega) more).mp hsome
    obtain ⟨hend, hopen⟩ | ⟨sectionEnd, hend, hcut⟩ :=
      open_or_cut (by simp [blankLine]) hend hlong more
    · exact ⟨_, .openTrailers hmore hend, Or.inl hopen⟩
    · refine ⟨_, .trailers hmore hend, Or.inr ⟨Nat.add_lt_add_left hlong _, ?_⟩⟩
      dsimp only [blankLine, List.length_cons, List.length_nil] at hcut ⊢
      omega

end ChunkedDecoder

/-- The verdict of an answer about the limits. -/
def isTooLong : Except Halt (Option ParsedResponse) → Bool
  | .error halt => halt = ResponseDecoder.headersTooLong ∨ halt = ChunkedDecoder.controlTooLong
  | .ok _ => false

namespace ResponseDecoder

variable {d d' : ResponseDecoder} {place : ℕ} {part : ControlPart}

/-- The first answer that is not that more has to come. The end of the stream, where `eof`
is set, is reported with the last fragment. -/
def firstAnswer (feed : ResponseDecoder → List UInt8 → Bool →
      Except Halt (Option ParsedResponse) × ResponseDecoder) (eof : Bool) :
    ResponseDecoder → List (List UInt8) → Except Halt (Option ParsedResponse)
  | _, [] => .ok none
  | d, data :: fragments =>
    match (feed d data (eof && fragments.isEmpty)).1 with
    | .ok none => firstAnswer feed eof (feed d data false).2 fragments
    | answer => answer

theorem firstAnswer_singleton (feed : ResponseDecoder → List UInt8 → Bool →
      Except Halt (Option ParsedResponse) × ResponseDecoder) (eof : Bool) (d : ResponseDecoder)
    (data : List UInt8) : firstAnswer feed eof d [data] = (feed d data eof).1 := by
  rw [firstAnswer, List.isEmpty_nil, Bool.and_true]
  split
  · rename_i hnone
    rw [hnone]
    rfl
  · rfl

/-- What the decoder makes of a stream in fragments. -/
def verdict (d : ResponseDecoder) (eof : Bool) (fragments : List (List UInt8)) :
    Except Halt (Option ParsedResponse) := firstAnswer feed eof d fragments

/-- The bytes that wait for more. -/
def held (d : ResponseDecoder) : List UInt8 :=
  match d.head, d.body with
  | none, _ => d.header
  | some _, .chunked decoder => decoder.buffer
  | some _, _ => []

/-- The control data that lie before the decoder once `more` has arrived. -/
def Control (place : ℕ) (d : ResponseDecoder) (more : List UInt8) (part : ControlPart) : Prop :=
  match d.head, d.body with
  | none, _ => ResponseControl place d.noBody (d.header ++ more) part
  | some _, .chunked decoder => decoder.Control place more part
  | some _, _ => False

/-- What the answer to a fragment says about the control data. -/
inductive Judges (place : ℕ) (d : ResponseDecoder) (data : List UInt8) :
    Except Halt (Option ParsedResponse) × ResponseDecoder → Prop
  | goesOn {place' : ℕ} {d' : ResponseDecoder}
      (hplace : place' + d'.held.length = place + d.held.length + data.length)
      (hheld : d'.held.length ≤ maxHeaderBytes) (hsane : d'.body.Sane)
      (ahead : ∀ more part, Control place' d' more part → Control place d (data ++ more) part)
      (passed : ∀ more part, Control place d (data ++ more) part →
        part.IsPassed (place + d.held.length + data.length) ∨ Control place' d' more part) :
      Judges place d data (.ok none, d')
  | ends {answer : Except Halt (Option ParsedResponse)} {d' : ResponseDecoder}
      (hne : answer ≠ .ok none) (hanswer : isTooLong answer = false)
      (passed : ∀ more part, Control place d (data ++ more) part →
        part.IsPassed (place + d.held.length + data.length)) :
      Judges place d data (answer, d')
  | rejects {answer : Except Halt (Option ParsedResponse)} {d' : ResponseDecoder}
      (hanswer : isTooLong answer = true)
      (found : ∀ more, ∃ part, Control place d (data ++ more) part ∧
        (part.IsOversized ∨ part.IsCutAt (place + d.held.length + data.length))) :
      Judges place d data (answer, d')

/-- The judgement of what is left of a fragment is the judgement of the whole of it, where the
parts before are passed. -/
theorem Judges.of_rest {place₁ : ℕ} {d₁ : ResponseDecoder} {data data₁ : List UInt8}
    {result : Except Halt (Option ParsedResponse) × ResponseDecoder}
    (h : Judges place₁ d₁ data₁ result)
    (hplace : place₁ + d₁.held.length + data₁.length = place + d.held.length + data.length)
    (hahead : ∀ more part, Control place₁ d₁ (data₁ ++ more) part →
      Control place d (data ++ more) part)
    (hpassed : ∀ more part, Control place d (data ++ more) part →
      part.IsPassed (place + d.held.length + data.length) ∨
        Control place₁ d₁ (data₁ ++ more) part) : Judges place d data result := by
  cases h with
  | goesOn hplace' hheld hsane ahead passed =>
    rw [hplace] at hplace' passed
    refine .goesOn hplace' hheld hsane ?_ fun more part hpart => ?_
    · exact fun more part hpart => hahead more part (ahead more part hpart)
    · cases hpassed more part hpart with
      | inl hpassed => exact Or.inl hpassed
      | inr hpart => exact passed more part hpart
  | ends hne hanswer passed =>
    rw [hplace] at passed
    refine .ends hne hanswer fun more part hpart => ?_
    cases hpassed more part hpart with
    | inl hpassed => exact hpassed
    | inr hpart => exact passed more part hpart
  | rejects hanswer found =>
    rw [hplace] at found
    refine .rejects hanswer fun more => ?_
    obtain ⟨part, hpart, hverdict⟩ := found more
    exact ⟨part, hahead more part hpart, hverdict⟩

theorem judges_chunked {head : ResponseHead} {decoder : ChunkedDecoder} (hhead : d.head = some head)
    (hbody : d.body = .chunked decoder) (hsane : decoder.Sane) (place : ℕ) (data : List UInt8) :
    Judges place d data (d.consumeBody data false) := by
  obtain ⟨header, _, _, noBody⟩ := d
  subst hhead hbody
  have hsane' : (decoder.extend data).Sane := hsane
  obtain ⟨place', e, hleads, hsane'', hsettle⟩ :=
    ChunkedDecoder.settle_leads place hsane'
  have hlength : place' + e.buffer.length = place + decoder.buffer.length + data.length := by
    rw [hleads.place_eq, ChunkedDecoder.extend, List.length_append, Nat.add_assoc]
  have hcontrol : ∀ more part,
      Control place ⟨header, some head, .chunked decoder, noBody⟩ (data ++ more) part ↔
        ChunkedDecoder.Control place (decoder.extend data) more part := by
    intro more part
    have happend : decoder.buffer ++ (data ++ more) = (decoder.extend data).buffer ++ more :=
      (List.append_assoc _ _ _).symm
    exact iff_of_eq (congrArg (ChunkControl place decoder.phase · part) happend)
  have hplaces : place + (decoder.extend data).buffer.length =
      place + decoder.buffer.length + data.length := hleads.place_eq.symm.trans hlength
  have hpassed : ∀ {e' : ChunkedDecoder}, (e.pass = .finished e' ∨ ∃ halt,
      halt ≠ ChunkedDecoder.controlTooLong ∧ e.pass = .failed halt e') → ∀ more part,
      Control place ⟨header, some head, .chunked decoder, noBody⟩ (data ++ more) part →
        part.IsPassed (place + decoder.buffer.length + data.length) := by
    intro e' hstop more part hpart
    cases hleads.passed more part ((hcontrol more part).mp hpart) with
    | inl hpassed => exact hplaces ▸ hpassed
    | inr hpart => exact hlength ▸ ChunkedDecoder.passed_of_pass hstop hpart
  simp only [consumeBody, BodyDecoder.consume, ChunkedDecoder.feed_eq, hsettle]
  cases hstop : e.pass with
  | next e' => exact absurd (hsettle.trans hstop) (ChunkedDecoder.settle_ne_next _ e')
  | wait e' =>
    obtain rfl := ChunkedDecoder.wait_eq hsane'' hstop
    refine .goesOn hlength (ChunkedDecoder.wait_le hsane'' hstop) hsane''
      (fun more part hpart => ?_) (fun more part hpart => ?_)
    · exact (hcontrol more part).mpr (hleads.ahead more part hpart)
    · exact hplaces ▸ hleads.passed more part ((hcontrol more part).mp hpart)
  | finished e' => exact .ends (by simp) rfl (hpassed (Or.inl hstop))
  | failed halt e' =>
    have hother : halt ≠ ChunkedDecoder.controlTooLong → isTooLong (.error halt) = false →
        Judges place ⟨header, some head, .chunked decoder, noBody⟩ data
          (.error halt, ⟨header, some head, .chunked e', noBody⟩) :=
      fun hne hanswer => .ends (by simp) hanswer (hpassed (Or.inr ⟨halt, hne, hstop⟩))
    rcases ChunkedDecoder.failed_cases hstop with rfl | rfl | rfl
    · refine .rejects (by simp [isTooLong]) fun more => ?_
      obtain ⟨part, hpart, hverdict⟩ := ChunkedDecoder.exists_of_tooLong hstop place' more
      refine ⟨part, (hcontrol more part).mpr (hleads.ahead more part hpart), ?_⟩
      rw [hlength] at hverdict
      exact hverdict
    · exact hother (by decide) (by decide)
    · exact hother (by decide) (by decide)

theorem judges_body {head : ResponseHead} (hhead : d.head = some head) (hsane : d.body.Sane)
    (place : ℕ) (data : List UInt8) : Judges place d data (d.consumeBody data false) := by
  cases hbody : d.body with
  | chunked decoder =>
    rw [hbody] at hsane
    exact judges_chunked hhead hbody hsane place data
  | waiting =>
    obtain ⟨header, _, _, noBody⟩ := d
    subst hhead hbody
    exact .ends (by simp) (by decide) fun more part hpart => hpart.elim
  | contentLength remaining total =>
    obtain ⟨header, _, _, noBody⟩ := d
    subst hhead hbody
    simp only [consumeBody, BodyDecoder.consume]
    split
    · rename_i hresult
      split at hresult <;> cases hresult
    · have hplace : place + data.length + 0 = place + 0 + data.length := rfl
      refine .goesOn hplace (Nat.zero_le _) trivial ?_ ?_
      · exact fun more part hpart => hpart.elim
      · exact fun more part hpart => hpart.elim
    · exact .ends (by simp) rfl fun more part hpart => hpart.elim
  | closeDelimited total =>
    obtain ⟨header, _, _, noBody⟩ := d
    subst hhead hbody
    have hplace : place + data.length + 0 = place + 0 + data.length := rfl
    refine .goesOn hplace (Nat.zero_le _) trivial ?_ ?_
    · exact fun more part hpart => hpart.elim
    · exact fun more part hpart => hpart.elim

theorem isTooLong_parseResponseHead {header : List UInt8} {halt : Halt}
    (h : parseResponseHead header = .error halt) : isTooLong (.error halt) = false := by
  unfold parseResponseHead at h
  split at h
  · cases h
    decide
  · split at h
    · cases h
      decide
    · split at h
      · cases h
        decide
      · cases h

theorem held_parsed (header : List UInt8) (headerEnd : ℕ) (head : ResponseHead) :
    (d.parsed header headerEnd head).held = [] := by
  obtain ⟨_, _, _, noBody⟩ := d
  obtain ⟨_, _, framing⟩ := head
  cases noBody with
  | true => rfl
  | false => cases framing <;> rfl

theorem control_parsed (header : List UInt8) (headerEnd : ℕ) (head : ResponseHead)
    (more : List UInt8) : Control place (d.parsed header headerEnd head) more part ↔
      d.noBody = false ∧ head.framing = .chunked ∧ ChunkControl place .size more part := by
  obtain ⟨_, _, _, noBody⟩ := d
  obtain ⟨_, _, framing⟩ := head
  cases noBody with
  | true => simp [Control, parsed, bodyOf]
  | false =>
    cases framing with
    | contentLength length => simp [Control, parsed, bodyOf]
    | chunked =>
      simp [Control, parsed, bodyOf, ChunkedDecoder.Control, ChunkedDecoder.new]
    | closeDelimited => simp [Control, parsed, bodyOf]

section Heads

variable {header data : List UInt8} {body : BodyDecoder} {noBody : Bool}

theorem control_head (place : ℕ) (header : List UInt8) (body : BodyDecoder) (noBody : Bool)
    (data more : List UInt8) (part : ControlPart) :
    Control place ⟨header, none, body, noBody⟩ (data ++ more) part ↔
      ResponseControl place noBody (header ++ data ++ more) part := by
  rw [List.append_assoc]
  rfl

/-- The judgement of a fragment that leaves the head open. -/
theorem judges_openHead (hsane : body.Sane) (place : ℕ)
    (hend : findBytes (header ++ data) blankLine = none) :
    Judges place ⟨header, none, body, noBody⟩ data
      (feed ⟨header, none, body, noBody⟩ data false) := by
  have hlength : place + (header ++ data).length = place + header.length + data.length := by
    rw [List.length_append, Nat.add_assoc]
  have hcontrol := control_head place header body noBody data
  rw [feed_of_short rfl hend]
  by_cases hlong : maxHeaderBytes < (header ++ data).length
  · rw [if_pos hlong]
    refine .rejects (by decide) fun more => ?_
    cases hend' : findBytes (header ++ data ++ more) blankLine with
    | none =>
      refine ⟨_, (hcontrol more _).mpr (.openHead hend'), Or.inl ?_⟩
      exact lt_of_lt_of_le hlong (List.prefix_append _ _).length_le
    | some headerEnd =>
      have hsplit := findBytes_split (by simp [blankLine]) hend hend'
      simp only [blankLine, List.length_cons, List.length_nil] at hsplit
      refine ⟨_, (hcontrol more _).mpr (.head hend'), Or.inr ⟨?_, ?_⟩⟩
      · exact lt_of_lt_of_eq (Nat.add_lt_add_left hlong _) hlength
      · refine lt_of_eq_of_lt hlength.symm ?_
        dsimp only
        omega
  · rw [if_neg hlong]
    refine .goesOn hlength (Nat.le_of_not_lt hlong) hsane ?_ ?_
    · exact fun more part hpart => (hcontrol more part).mpr hpart
    · exact fun more part hpart => Or.inr ((hcontrol more part).mp hpart)

/-- The judgement of a fragment that completes the head is that of the rest of the fragment,
where the head is within the limit and valid. -/
theorem judges_completeHead {headerEnd : ℕ} (place : ℕ)
    (hend : findBytes (header ++ data) blankLine = some headerEnd) :
    Judges place ⟨header, none, body, noBody⟩ data
      (feed ⟨header, none, body, noBody⟩ data false) := by
  have hlength : place + (header ++ data).length = place + header.length + data.length := by
    rw [List.length_append, Nat.add_assoc]
  have hle := findBytes_blankLine_le hend
  have hcontrol := fun more part => (control_head place header body noBody data more part).trans
    (responseControl_head hend more)
  by_cases hlong : maxHeaderBytes < headerEnd
  · rw [feed_of_long rfl hend hlong]
    refine .rejects (by decide) fun more => ?_
    exact ⟨_, (hcontrol more _).mpr (Or.inl rfl), Or.inl hlong⟩
  have hhead : (⟨place, headerEnd, place + headerEnd + 4⟩ : ControlPart).IsPassed
      (place + header.length + data.length) := by
    refine ⟨Nat.le_of_not_lt hlong, ?_⟩
    rw [← hlength]
    dsimp only
    omega
  cases hparse : parseResponseHead ((header ++ data).take headerEnd) with
  | error halt =>
    rw [feed_of_invalid (d := ⟨header, none, body, noBody⟩) rfl hend hlong hparse]
    refine .ends (by simp) (isTooLong_parseResponseHead hparse) fun more part hpart => ?_
    obtain rfl | ⟨-, head, hparse', -⟩ := (hcontrol more part).mp hpart
    · exact hhead
    · cases hparse.symm.trans hparse'
  | ok head =>
    rw [feed_of_parsed (d := ⟨header, none, body, noBody⟩) rfl hend hlong hparse]
    have hbody := judges_body (d := parsed (header ++ data) headerEnd head
      ⟨header, none, body, noBody⟩) rfl (sane_bodyOf noBody head.framing)
      (place + headerEnd + 4) ((header ++ data).drop (headerEnd + 4))
    refine hbody.of_rest ?_ (fun more part hpart => ?_) fun more part hpart => ?_
    · rw [held_parsed, List.length_nil, List.length_drop]
      refine Eq.trans ?_ hlength
      omega
    · obtain ⟨hno, hchunked, hrest⟩ := (control_parsed _ _ _ _).mp hpart
      exact (hcontrol more part).mpr (Or.inr ⟨hno, head, hparse, hchunked, hrest⟩)
    · obtain rfl | ⟨hno, head', hparse', hchunked, hrest⟩ := (hcontrol more part).mp hpart
      · exact Or.inl hhead
      · cases hparse.symm.trans hparse'
        exact Or.inr ((control_parsed _ _ _ _).mpr ⟨hno, hchunked, hrest⟩)

end Heads

/-- Every fragment is judged by the control data that it completes or leaves open. -/
theorem judges_feed (hsane : d.body.Sane) (place : ℕ) (data : List UInt8) :
    Judges place d data (d.feed data false) := by
  cases hhead : d.head with
  | some head =>
    rw [feed_of_head hhead]
    exact judges_body hhead hsane place data
  | none =>
    obtain ⟨header, _, body, noBody⟩ := d
    subst hhead
    cases hend : findBytes (header ++ data) blankLine with
    | none => exact judges_openHead hsane place hend
    | some headerEnd => exact judges_completeHead place hend

/-- The end of the stream is no verdict about the limits. -/
theorem consume_end (b : BodyDecoder) (data : List UInt8) :
    (b.consume data true).1 = (b.consume data false).1 ∨
      (b.consume data false).1 = .ok none ∧
        ∀ halt, (b.consume data true).1 = .error halt → isTooLong (.error halt) = false := by
  cases b with
  | waiting => exact Or.inl rfl
  | contentLength remaining total =>
    simp only [BodyDecoder.consume]
    by_cases hall : remaining - min data.length remaining = 0
    · rw [if_pos hall, if_pos hall]
      exact Or.inl rfl
    · refine Or.inr ⟨if_neg hall, fun halt hhalt => ?_⟩
      rw [if_neg hall] at hhalt
      cases hhalt
      decide
  | chunked decoder =>
    simp only [BodyDecoder.consume, ChunkedDecoder.feed_eq]
    have hend : ∀ halt, (Except.error (invalidResponse "chunked response body is incomplete") :
        Except Halt (Option ℕ)) = .error halt → isTooLong (.error halt) = false := by
      intro halt hhalt
      cases hhalt
      decide
    cases (decoder.extend data).settle with
    | next e => exact Or.inr ⟨rfl, hend⟩
    | wait e => exact Or.inr ⟨rfl, hend⟩
    | finished e => exact Or.inl rfl
    | failed halt e => exact Or.inl rfl
  | closeDelimited total =>
    refine Or.inr ⟨rfl, fun halt hhalt => ?_⟩
    cases hhalt

theorem isTooLong_consumeBody (d : ResponseDecoder) (data : List UInt8) :
    isTooLong (d.consumeBody data true).1 = isTooLong (d.consumeBody data false).1 := by
  cases consume_end d.body data with
  | inl hsame =>
    simp only [consumeBody, hsame]
    cases (d.body.consume data false).1 with
    | error halt => rfl
    | ok length =>
      cases length with
      | none => rfl
      | some length => cases d.head <;> rfl
  | inr hmore =>
    obtain ⟨hnone, hend⟩ := hmore
    simp only [consumeBody, hnone]
    cases hresult : (d.body.consume data true).1 with
    | error halt => exact hend halt hresult
    | ok length =>
      cases length with
      | none => rfl
      | some length =>
        cases d.head with
        | none => exact of_decide_eq_true rfl
        | some head => rfl

theorem isTooLong_incomplete :
    isTooLong (.error (invalidResponse "headers are incomplete")) = false := by decide

theorem isTooLong_feed (d : ResponseDecoder) (data : List UInt8) (eof : Bool) :
    isTooLong (d.feed data eof).1 = isTooLong (d.feed data false).1 := by
  cases eof with
  | false => rfl
  | true =>
    cases hhead : d.head with
    | some head => rw [feed_of_head hhead, feed_of_head hhead, isTooLong_consumeBody]
    | none =>
      cases hend : findBytes (d.header ++ data) blankLine with
      | none =>
        rw [feed_of_short hhead hend, feed_of_short hhead hend]
        by_cases hlong : maxHeaderBytes < (d.header ++ data).length
        · rw [if_pos hlong, if_pos hlong]
        · rw [if_neg hlong, if_neg hlong]
          exact isTooLong_incomplete
      | some headerEnd =>
        by_cases hlong : maxHeaderBytes < headerEnd
        · rw [feed_of_long hhead hend hlong, feed_of_long hhead hend hlong]
        · cases hparse : parseResponseHead ((d.header ++ data).take headerEnd) with
          | error halt =>
            rw [feed_of_invalid hhead hend hlong hparse, feed_of_invalid hhead hend hlong hparse]
          | ok head =>
            rw [feed_of_parsed hhead hend hlong hparse, feed_of_parsed hhead hend hlong hparse,
              isTooLong_consumeBody]

theorem isTooLong_verdict_nil (d : ResponseDecoder) (eof : Bool) :
    isTooLong (d.verdict eof []) = false := rfl

/-- The first fragment decides, or it leaves the verdict to the others. -/
theorem isTooLong_verdict_cons (d : ResponseDecoder) (eof : Bool) (data : List UInt8)
    (fragments : List (List UInt8)) :
    isTooLong (d.verdict eof (data :: fragments)) =
      if (d.feed data false).1 = .ok none then
        isTooLong ((d.feed data false).2.verdict eof fragments)
      else isTooLong (d.feed data false).1 := by
  cases fragments with
  | nil =>
    rw [verdict, firstAnswer_singleton, isTooLong_feed]
    split
    · rename_i hnone
      rw [hnone]
      rfl
    · rfl
  | cons next fragments =>
    rw [verdict, firstAnswer, List.isEmpty_cons, Bool.and_false]
    split
    · rename_i hnone
      rw [if_pos hnone, verdict]
    · rename_i hne
      rw [if_neg hne]

/-- One of the control parts is oversized or cut inside its terminator. -/
def Exceeds (place : ℕ) (d : ResponseDecoder) (fragments : List (List UInt8)) : Prop :=
  ∃ part, Control place d fragments.flatten part ∧ (part.IsOversized ∨
    ∃ front back, fragments = front ++ back ∧
      part.IsCutAt (place + d.held.length + front.flatten.length))

theorem Control.within {more : List UInt8} (h : Control place d more part) :
    place ≤ part.start ∧ part.start + part.length ≤ part.stop ∧
      part.stop ≤ place + d.held.length + more.length := by
  obtain ⟨header, head, body, noBody⟩ := d
  cases head with
  | none =>
    have hwithin := ResponseControl.within h
    rw [List.length_append, ← Nat.add_assoc] at hwithin
    exact hwithin
  | some head =>
    cases body with
    | chunked decoder =>
      have hwithin := ChunkControl.within h
      rw [List.length_append, ← Nat.add_assoc] at hwithin
      exact hwithin
    | _ => exact h.elim

/-- A decoder that waits has seen no part that exceeds the limit. -/
theorem not_exceeds_nil (hheld : d.held.length ≤ maxHeaderBytes) (place : ℕ) :
    ¬ Exceeds place d [] := by
  rintro ⟨part, hpart, hverdict⟩
  have hwithin := hpart.within
  rw [List.flatten_nil, List.length_nil] at hwithin
  rcases hverdict with hlong | ⟨front, back, hfront, hcut, -⟩
  · rw [ControlPart.IsOversized] at hlong
    omega
  · have hnil : front = [] := (List.append_eq_nil_iff.mp hfront.symm).1
    rw [hnil, List.flatten_nil, List.length_nil] at hcut
    omega

/-- The fragments behind a part that is passed do not cut it. -/
theorem not_cut_of_passed {data : List UInt8} {fragments : List (List UInt8)}
    (hheld : d.held.length ≤ maxHeaderBytes) (hstart : place ≤ part.start)
    (hpassed : part.IsPassed (place + d.held.length + data.length)) :
    ¬ (part.IsOversized ∨ ∃ front back, data :: fragments = front ++ back ∧
      part.IsCutAt (place + d.held.length + front.flatten.length)) := by
  obtain ⟨hlength, hstop⟩ := hpassed
  rintro (hlong | ⟨front, back, hfront, hcut, hinside⟩)
  · rw [ControlPart.IsOversized] at hlong
    omega
  · cases front with
    | nil =>
      rw [List.flatten_nil, List.length_nil] at hcut
      omega
    | cons first front =>
      obtain ⟨rfl, -⟩ := List.cons.inj hfront
      rw [List.flatten_cons, List.length_append] at hinside
      omega

/-- The verdict on a stream in fragments, from what the decoder holds of it. -/
theorem isTooLong_verdict_iff (hsane : d.body.Sane) (hheld : d.held.length ≤ maxHeaderBytes)
    (place : ℕ) (eof : Bool) (fragments : List (List UInt8)) :
    isTooLong (d.verdict eof fragments) = true ↔ Exceeds place d fragments := by
  induction fragments generalizing d place with
  | nil =>
    rw [isTooLong_verdict_nil]
    simpa using not_exceeds_nil hheld place
  | cons data fragments ih =>
    rw [isTooLong_verdict_cons]
    have hjudges := judges_feed hsane place data
    generalize d.feed data false = result at hjudges ⊢
    cases hjudges with
    | @goesOn place' d' hplace hheld' hsane' ahead passed =>
      rw [if_pos rfl, ih hsane' hheld' place']
      have hplaces : ∀ front : List (List UInt8), place' + d'.held.length + front.flatten.length =
          place + d.held.length + (data :: front).flatten.length := by
        intro front
        rw [List.flatten_cons, List.length_append, hplace, Nat.add_assoc _ data.length]
      constructor
      · rintro ⟨part, hpart, hverdict⟩
        refine ⟨part, ahead _ part hpart, hverdict.imp id ?_⟩
        rintro ⟨front, back, rfl, hcut⟩
        exact ⟨data :: front, back, rfl, hplaces front ▸ hcut⟩
      · rintro ⟨part, hpart, hverdict⟩
        have hstart := hpart.within.1
        cases passed _ part hpart with
        | inl hpassed => exact absurd hverdict (not_cut_of_passed hheld hstart hpassed)
        | inr hpart =>
          refine ⟨part, hpart, hverdict.imp id ?_⟩
          rintro ⟨front, back, hfront, hcut⟩
          cases front with
          | nil =>
            have hlow := hcut.1
            rw [List.flatten_nil, List.length_nil] at hlow
            omega
          | cons first front =>
            obtain ⟨rfl, rfl⟩ := List.cons.inj hfront
            exact ⟨front, back, rfl, (hplaces front).symm ▸ hcut⟩
    | ends hne hanswer passed =>
      rw [if_neg hne, hanswer]
      refine iff_of_false Bool.false_ne_true ?_
      rintro ⟨part, hpart, hverdict⟩
      exact not_cut_of_passed hheld hpart.within.1 (passed _ part hpart) hverdict
    | rejects hanswer found =>
      rename_i answer d'
      have hne : answer ≠ .ok none := by
        intro hnone
        rw [hnone] at hanswer
        cases hanswer
      rw [if_neg hne, hanswer]
      refine iff_of_true rfl ?_
      obtain ⟨part, hpart, hverdict⟩ := found fragments.flatten
      refine ⟨part, hpart, hverdict.imp id fun hcut => ⟨[data], fragments, rfl, ?_⟩⟩
      rw [List.flatten_singleton]
      exact hcut

end ResponseDecoder

theorem isTooLong_new (noBody eof : Bool) (fragments : List (List UInt8)) :
    isTooLong ((ResponseDecoder.new noBody).verdict eof fragments) = true ↔
      ∃ part, ResponseControl 0 noBody fragments.flatten part ∧ (part.IsOversized ∨
        ∃ front back, fragments = front ++ back ∧ part.IsCutAt front.flatten.length) := by
  have hsane : (ResponseDecoder.new noBody).body.Sane := trivial
  have hiff := ResponseDecoder.isTooLong_verdict_iff hsane (Nat.zero_le _) 0 eof fragments
  simp only [ResponseDecoder.Exceeds, ResponseDecoder.held, ResponseDecoder.new,
    List.length_nil, Nat.zero_add] at hiff
  exact hiff

/-- The verdict about the limits goes by the size of the control data alone, however the stream
is cut, if and only if no fragment ends inside a terminator behind more bytes of its part than
the limit allows, or some part is oversized anyway. -/
theorem limits_judged (noBody eof : Bool) (fragments : List (List UInt8)) :
    (isTooLong ((ResponseDecoder.new noBody).verdict eof fragments) = true ↔
      ∃ part, ResponseControl 0 noBody fragments.flatten part ∧ part.IsOversized) ↔
    ((∃ part, ResponseControl 0 noBody fragments.flatten part ∧ part.IsOversized) ∨
      ∀ part, ResponseControl 0 noBody fragments.flatten part → ∀ front back,
        fragments = front ++ back → ¬ part.IsCutAt front.flatten.length) := by
  rw [isTooLong_new]
  constructor
  · intro hsize
    by_cases hlong : ∃ part, ResponseControl 0 noBody fragments.flatten part ∧ part.IsOversized
    · exact Or.inl hlong
    · refine Or.inr fun part hpart front back hfront hcut => hlong (hsize.mp ?_)
      exact ⟨part, hpart, Or.inr ⟨front, back, hfront, hcut⟩⟩
  · intro hcondition
    constructor
    · rintro ⟨part, hpart, hverdict⟩
      cases hcondition with
      | inl hlong => exact hlong
      | inr huncut =>
        rcases hverdict with hlong | ⟨front, back, hfront, hcut⟩
        · exact ⟨part, hpart, hlong⟩
        · exact absurd hcut (huncut part hpart front back hfront)
    · rintro ⟨part, hpart, hlong⟩
      exact ⟨part, hpart, Or.inl hlong⟩

/-- `HTTP/1.1 200` with a reason of so many letters that the head has 64 KiB. -/
def longestHead : List UInt8 :=
  [72, 84, 84, 80, 47, 49, 46, 49, 32, 50, 48, 48, 32] ++ List.replicate 65523 97

/-- The longest head is rejected where a fragment ends after the first byte of its blank line. -/
theorem longest_head_rejected :
    ¬ ∀ (noBody eof : Bool) (fragments : List (List UInt8)),
      isTooLong ((ResponseDecoder.new noBody).verdict eof fragments) = true ↔
        ∃ part, ResponseControl 0 noBody fragments.flatten part ∧ part.IsOversized := by
  intro h
  have hlength : longestHead.length = maxHeaderBytes := by
    rw [longestHead, List.length_append, List.length_replicate]
    rfl
  have hcr : 13 ∉ longestHead := by
    rw [longestHead, List.mem_append, List.mem_replicate]
    decide
  have hend : findBytes [longestHead ++ [13], [10, 13, 10]].flatten blankLine =
      some maxHeaderBytes := by
    have hflatten : [longestHead ++ [13], [10, 13, 10]].flatten = longestHead ++ blankLine := by
      rw [List.flatten_cons, List.flatten_singleton, List.append_assoc]
      rfl
    rw [hflatten, findBytes, blankLine, firstOccurrence_append_of_not_mem hcr, hlength]
    rfl
  have hrejected : isTooLong ((ResponseDecoder.new true).verdict false
      [longestHead ++ [13], [10, 13, 10]]) = true := by
    refine (isTooLong_new true false _).mpr ⟨_, .head hend, Or.inr ⟨[longestHead ++ [13]],
      [[10, 13, 10]], rfl, ?_⟩⟩
    rw [List.flatten_singleton, List.length_append, hlength]
    exact ⟨by decide, by decide⟩
  obtain ⟨part, hpart, hlong⟩ := (h true false _).mp hrejected
  cases hpart with
  | head hother =>
    obtain rfl := Option.some.inj (hend.symm.trans hother)
    exact absurd hlong (lt_irrefl _)
  | openHead hother =>
    rw [hend] at hother
    cases hother

end Rload
