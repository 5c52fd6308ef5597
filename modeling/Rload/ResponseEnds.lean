import Rload.ControlLimits
import Rload.ResponseHeads
import Rload.RunSummary

/-!
# Where a response ends

The rules of HTTP/1.1 for the end of a message go by the method of the request, the class of the
status and the header fields. The decoder knows the method and the fields, but not the statuses
that allow no body or are not final, and it reads the length from the first of its fields only.
-/

namespace Rload
open TextScanning ResponseFraming

/-- The values of all `Content-Length` fields, the members of a list one by one. -/
def lengthMembers (headerLines : List (List Char)) : List (List Char) :=
  ((headerLines.filterMap (splitOnce ':')).filter
    fun (name, _) => eqIgnoreAsciiCase name "content-length".toList).flatMap
      fun (_, value) => (value.splitOn ',').map trim

/-- A valid length is one number, which may be repeated. -/
def validLength (headerLines : List (List Char)) : Option ℕ :=
  match lengthMembers headerLines with
  | [] => none
  | member :: members =>
    (numeral 10 member).bind fun n =>
      if members.all (numeral 10 · = some n) then some n else none

/-- How the body of a response is framed, or that the response is an interim one, which the
final one follows. -/
def messageFraming (method : Method) (status : ℕ) (headerLines : List (List Char)) :
    Option BodyFraming :=
  if 100 ≤ status ∧ status < 200 then none
  else if method = .head ∨ status = 204 ∨ status = 304 then some (.contentLength 0)
  else if headersHaveToken headerLines "transfer-encoding" "chunked" then some .chunked
  else match validLength headerLines with
    | some length => some (.contentLength length)
    | none => some .closeDelimited

def headerLines (header : List UInt8) : List (List Char) :=
  match decodeUtf8 header with
  | none => []
  | some headers => (splitCrlf headers).tail

namespace ResponseDecoder

/-- A decoder that goes by the rules. After an interim response, each of which takes bytes from
the stream, it starts again with the bytes that are left. -/
def finalFeedLoop (method : Method) : ℕ → ResponseDecoder → List UInt8 → Bool →
    Except Halt (Option ParsedResponse) × ResponseDecoder
  | 0, d, _, _ => (.ok none, d)
  | fuel + 1, d, data, eof =>
    if d.head.isSome then d.consumeBody data eof
    else
      let d := { d with header := d.header ++ data }
      match findBytes d.header blankLine with
      | none =>
        (if maxHeaderBytes < d.header.length then .error headersTooLong
          else if eof then .error (invalidResponse "headers are incomplete")
          else .ok none, d)
      | some headerEnd =>
        if maxHeaderBytes < headerEnd then (.error headersTooLong, d)
        else
          let body := d.header.drop (headerEnd + 4)
          let d := { d with header := d.header.take headerEnd }
          match parseResponseHead d.header with
          | .error halt => (.error halt, d)
          | .ok head =>
            match messageFraming method head.status (headerLines d.header) with
            | none => finalFeedLoop method fuel (new d.noBody) body eof
            | some framing =>
              { d with body := bodyOf false framing, head := some head }.consumeBody body eof

def finalFeed (method : Method) (d : ResponseDecoder) (data : List UInt8) (eof : Bool) :
    Except Halt (Option ParsedResponse) × ResponseDecoder :=
  finalFeedLoop method ((d.header ++ data).length + 1) d data eof

end ResponseDecoder

/-- The first of the `Content-Length` fields is read as what all of them say: none is there,
or it is a number that a word holds and all have this value, or neither of the two is a length. -/
def ReadsLength (headerLines : List (List Char)) : Prop :=
  match headerValue headerLines "content-length" with
  | none => True
  | some value =>
    (∃ n < wordLimit, numeral 10 value = some n ∧
      ∀ member ∈ lengthMembers headerLines, numeral 10 member = some n) ∨
    (parseUnsigned 10 wordLimit value = none ∧ validLength headerLines = none)

/-- The fields announce a body of no bytes. -/
def AnnouncesNoBody (headerLines : List (List Char)) : Prop :=
  headersHaveToken headerLines "transfer-encoding" "chunked" = false ∧
    ∃ value, headerValue headerLines "content-length" = some value ∧
      numeral 10 (stripPlus value) = some 0

/-- The heads of which the code knows the end: final ones of a response to a HEAD request, or
without a body by their status and also by their fields, or with chunks or a length that the
code reads. -/
def KnowsEnd (method : Method) (status : ℕ) (headerLines : List (List Char)) : Prop :=
  ¬ (100 ≤ status ∧ status < 200) ∧
    (method = .head ∨
      (if status = 204 ∨ status = 304 then AnnouncesNoBody headerLines
        else headersHaveToken headerLines "transfer-encoding" "chunked" = true ∨
          ReadsLength headerLines))

theorem lengthMembers_cons (line : List Char) (lines : List (List Char)) :
    lengthMembers (line :: lines) = lengthMembers [line] ++ lengthMembers lines := by
  simp only [lengthMembers, List.filterMap_cons, List.filterMap_nil]
  cases splitOnce ':' line with
  | none => rfl
  | some field =>
    rw [List.filter_cons, List.filter_cons]
    split <;> simp

theorem lengthMembers_none {line : List Char} (hs : splitOnce ':' line = none) :
    lengthMembers [line] = [] := by
  simp only [lengthMembers, List.filterMap_cons, hs, List.filterMap_nil, List.filter_nil,
    List.flatMap_nil]

theorem lengthMembers_of_ne {line name text : List Char}
    (hs : splitOnce ':' line = some (name, text))
    (hname : eqIgnoreAsciiCase name "content-length".toList = false) :
    lengthMembers [line] = [] := by
  simp only [lengthMembers, List.filterMap_cons, hs, List.filterMap_nil, List.filter_cons, hname,
    Bool.false_eq_true, if_false, List.filter_nil, List.flatMap_nil]

theorem lengthMembers_of_eq {line name text : List Char}
    (hs : splitOnce ':' line = some (name, text))
    (hname : eqIgnoreAsciiCase name "content-length".toList) :
    lengthMembers [line] = (text.splitOn ',').map trim := by
  simp only [lengthMembers, List.filterMap_cons, hs, List.filterMap_nil, List.filter_cons, hname,
    if_true, List.filter_nil, List.flatMap_cons, List.flatMap_nil, List.append_nil]

/-- The first field comes first among the members. -/
theorem lengthMembers_of_headerValue {lines : List (List Char)} {value : List Char}
    (h : headerValue lines "content-length" = some value) :
    ∃ text rest, value = trim text ∧
      lengthMembers lines = (text.splitOn ',').map trim ++ rest := by
  induction lines with
  | nil => cases h
  | cons line lines ih =>
    rw [← List.singleton_append, headerValue_append] at h
    rw [lengthMembers_cons]
    cases hs : splitOnce ':' line with
    | none =>
      rw [headerValue_none _ hs, Option.none_or] at h
      rw [lengthMembers_none hs]
      exact ih h
    | some field =>
      obtain ⟨name, text⟩ := field
      cases hname : eqIgnoreAsciiCase name "content-length".toList with
      | false =>
        rw [headerValue_of_ne hs hname, Option.none_or] at h
        rw [lengthMembers_of_ne hs hname]
        exact ih h
      | true =>
        rw [headerValue_of_eq hs hname, Option.some_or] at h
        rw [lengthMembers_of_eq hs hname]
        exact ⟨text, _, (Option.some.inj h).symm, rfl⟩

theorem lengthMembers_nil {lines : List (List Char)}
    (h : headerValue lines "content-length" = none) : lengthMembers lines = [] := by
  induction lines with
  | nil => rfl
  | cons line lines ih =>
    rw [← List.singleton_append, headerValue_append] at h
    obtain ⟨hline, hlines⟩ := Option.or_eq_none_iff.mp h
    rw [lengthMembers_cons, ih hlines, List.append_nil]
    cases hs : splitOnce ':' line with
    | none => exact lengthMembers_none hs
    | some field =>
      cases hname : eqIgnoreAsciiCase field.1 "content-length".toList with
      | false => exact lengthMembers_of_ne hs hname
      | true =>
        rw [headerValue_of_eq hs hname] at hline
        cases hline

theorem mem_trim {c : Char} {text : List Char} (hc : c ∈ text) (hblank : isWhitespace c = false) :
    c ∈ trim text := by
  have hdrop : ∀ {text : List Char}, c ∈ text → c ∈ text.dropWhile isWhitespace := by
    intro text hc
    rw [← List.takeWhile_append_dropWhile (p := isWhitespace) (l := text), List.mem_append] at hc
    cases hc with
    | inl htake =>
      have := List.mem_takeWhile_imp htake
      rw [hblank] at this
      cases this
    | inr hdrop => exact hdrop
  rw [trim, List.rdropWhile, List.mem_reverse]
  exact hdrop (List.mem_reverse.mpr (hdrop hc))

/-- A field whose value is a number, with or without a plus sign, has one member. -/
theorem splitOn_number {text : List Char} {n : ℕ}
    (h : numeral 10 (stripPlus (trim text)) = some n) : text.splitOn ',' = [text] := by
  have hcomma : ',' ∉ text := by
    intro hmem
    have htrim := mem_trim hmem (by decide)
    have hstrip : ',' ∈ stripPlus (trim text) := by
      unfold stripPlus
      split
      · rename_i digits hplus
        rw [hplus] at htrim
        exact (List.mem_cons.mp htrim).resolve_left (by decide)
      · exact htrim
    exact numeral_not_mem h (by decide) hstrip
  exact List.splitOnP_eq_singleton fun c hc => by simpa using ne_of_mem_of_not_mem hc hcomma

/-- What the code reads from the first field is the valid length, or there is none and the code
reads none. -/
theorem readsLength_iff (lines : List (List Char)) :
    ReadsLength lines ↔ (headerValue lines "content-length").bind (parseUnsigned 10 wordLimit) =
      validLength lines := by
  unfold ReadsLength
  cases hvalue : headerValue lines "content-length" with
  | none =>
    refine iff_of_true trivial ?_
    rw [validLength, lengthMembers_nil hvalue]
    rfl
  | some value =>
    obtain ⟨text, rest, rfl, hmembers⟩ := lengthMembers_of_headerValue hvalue
    rw [Option.bind_some]
    cases hread : parseUnsigned 10 wordLimit (trim text) with
    | none =>
      constructor
      · rintro (⟨n, hn, hnumeral, -⟩ | ⟨-, hnone⟩)
        · rw [parseUnsigned_of_numeral hnumeral hn] at hread
          cases hread
        · exact hnone.symm
      · intro hnone
        exact Or.inr ⟨hread, hnone.symm⟩
    | some n =>
      obtain ⟨hnumeral, hlt⟩ := Option.filter_eq_some_iff.mp hread
      have hn : n < wordLimit := of_decide_eq_true hlt
      rw [splitOn_number hnumeral] at hmembers
      have hvalid : validLength lines = (numeral 10 (trim text)).bind fun n =>
          if rest.all (numeral 10 · = some n) then some n else none := by
        rw [validLength, hmembers]
        rfl
      constructor
      · rintro (⟨m, hm, hnumeral', hall⟩ | ⟨hnone, -⟩)
        · rw [parseUnsigned_of_numeral hnumeral' hm] at hread
          cases hread
          rw [hmembers] at hall
          have hrest : rest.all (numeral 10 · = some n) = true := by
            rw [List.all_eq_true]
            intro member hmember
            exact decide_eq_true (hall member (List.mem_append_right _ hmember))
          rw [hvalid, hnumeral', Option.bind_some, if_pos hrest]
        · rw [hread] at hnone
          cases hnone
      · intro hsome
        refine Or.inl ⟨n, hn, ?_⟩
        rw [hvalid] at hsome
        obtain ⟨m, hnumeral', hrest⟩ := Option.bind_eq_some_iff.mp hsome.symm
        split at hrest
        · rename_i hall
          cases hrest
          refine ⟨hnumeral', ?_⟩
          rw [hmembers]
          refine List.forall_mem_cons.mpr ⟨hnumeral', fun member hmember => ?_⟩
          exact of_decide_eq_true (List.all_eq_true.mp hall member hmember)
        · cases hrest

theorem announcesNoBody_iff (lines : List (List Char)) :
    AnnouncesNoBody lines ↔ bodyFraming lines = .contentLength 0 := by
  have hzero : ∀ value, numeral 10 (stripPlus value) = some 0 ↔
      parseUnsigned 10 wordLimit value = some 0 := by
    intro value
    rw [parseUnsigned, Option.filter_eq_some_iff]
    simp [wordLimit]
  unfold AnnouncesNoBody bodyFraming
  cases hchunked : headersHaveToken lines "transfer-encoding" "chunked" with
  | true => simp
  | false =>
    cases hvalue : headerValue lines "content-length" with
    | none => simp
    | some value =>
      simp only [true_and, Option.some.injEq, exists_eq_left', hzero, Option.bind_some,
        Bool.false_eq_true, if_false]
      cases parseUnsigned 10 wordLimit value with
      | none => simp
      | some length => simp

/-- The code knows the end of a response if and only if it frames it by the rules. -/
theorem knowsEnd_iff (method : Method) (status : ℕ) (lines : List (List Char)) :
    KnowsEnd method status lines ↔ messageFraming method status lines =
      some (if method = .head then .contentLength 0 else bodyFraming lines) := by
  unfold KnowsEnd messageFraming
  by_cases hinterim : 100 ≤ status ∧ status < 200
  · simp [hinterim]
  · rw [if_neg hinterim]
    by_cases hhead : method = .head
    · simp [hhead, hinterim]
    · rw [if_neg hhead]
      by_cases hstatus : status = 204 ∨ status = 304
      · simp only [hinterim, hhead, hstatus, not_false_eq_true, true_and, false_or, if_true,
          announcesNoBody_iff, Option.some.injEq]
        exact eq_comm
      · simp only [hinterim, hhead, hstatus, not_false_eq_true, true_and, false_or, if_false,
          or_self, readsLength_iff]
        unfold bodyFraming
        cases hchunked : headersHaveToken lines "transfer-encoding" "chunked" with
        | true => simp
        | false =>
          simp only [Bool.false_eq_true, false_or, if_false]
          cases (headerValue lines "content-length").bind (parseUnsigned 10 wordLimit) with
          | none => cases validLength lines <;> simp
          | some length =>
            cases validLength lines with
            | none => simp
            | some length' => simp [eq_comm]

theorem framing_of_parsed {header : List UInt8} {head : ResponseHead}
    (h : parseResponseHead header = .ok head) :
    head.framing = bodyFraming (headerLines header) := by
  cases hheaders : decodeUtf8 header with
  | none =>
    simp only [parseResponseHead, hheaders, reduceCtorEq] at h
  | some headers =>
    cases hlines : splitCrlf headers with
    | nil =>
      simp only [parseResponseHead, hheaders, hlines, reduceCtorEq] at h
    | cons statusLine lines =>
      have htail : headerLines header = lines := by
        simp only [headerLines, hheaders, hlines, List.tail_cons]
      simp only [parseResponseHead, hheaders, hlines] at h
      rw [htail]
      split at h
      · cases h
      · cases h
        rfl

namespace ResponseDecoder

variable {method : Method} {d : ResponseDecoder}

theorem finalFeed_of_head {head : ResponseHead} (hhead : d.head = some head) (data : List UInt8)
    (eof : Bool) : finalFeed method d data eof = d.consumeBody data eof := by
  rw [finalFeed, finalFeedLoop, hhead]
  rfl

theorem finalFeed_of_short (hhead : d.head = none) {data : List UInt8}
    (hend : findBytes (d.header ++ data) blankLine = none) (eof : Bool) :
    finalFeed method d data eof = d.feed data eof := by
  rw [feed_of_short hhead hend]
  simp only [finalFeed, finalFeedLoop, hhead, Option.isSome_none, Bool.false_eq_true, if_false,
    hend]

theorem finalFeed_of_long (hhead : d.head = none) {data : List UInt8} {headerEnd : ℕ}
    (hend : findBytes (d.header ++ data) blankLine = some headerEnd)
    (hlong : maxHeaderBytes < headerEnd) (eof : Bool) :
    finalFeed method d data eof = d.feed data eof := by
  rw [feed_of_long hhead hend hlong]
  simp only [finalFeed, finalFeedLoop, hhead, Option.isSome_none, Bool.false_eq_true, if_false,
    hend, if_pos hlong]

theorem finalFeed_of_invalid (hhead : d.head = none) {data : List UInt8} {headerEnd : ℕ}
    {halt : Halt} (hend : findBytes (d.header ++ data) blankLine = some headerEnd)
    (hlong : ¬ maxHeaderBytes < headerEnd)
    (hparse : parseResponseHead ((d.header ++ data).take headerEnd) = .error halt) (eof : Bool) :
    finalFeed method d data eof = d.feed data eof := by
  rw [feed_of_invalid hhead hend hlong hparse]
  simp only [finalFeed, finalFeedLoop, hhead, Option.isSome_none, Bool.false_eq_true, if_false,
    hend, if_neg hlong, hparse]

theorem finalFeed_of_final (hhead : d.head = none) {data : List UInt8} {headerEnd : ℕ}
    {head : ResponseHead} {framing : BodyFraming}
    (hend : findBytes (d.header ++ data) blankLine = some headerEnd)
    (hlong : ¬ maxHeaderBytes < headerEnd)
    (hparse : parseResponseHead ((d.header ++ data).take headerEnd) = .ok head)
    (hframing : messageFraming method head.status
      (headerLines ((d.header ++ data).take headerEnd)) = some framing) (eof : Bool) :
    finalFeed method d data eof =
      consumeBody ⟨(d.header ++ data).take headerEnd, some head, bodyOf false framing, d.noBody⟩
        ((d.header ++ data).drop (headerEnd + 4)) eof := by
  simp only [finalFeed, finalFeedLoop, hhead, Option.isSome_none, Bool.false_eq_true, if_false,
    hend, if_neg hlong, hparse, hframing]

theorem finalFeed_of_interim (hhead : d.head = none) {data : List UInt8} {headerEnd : ℕ}
    {head : ResponseHead} (hend : findBytes (d.header ++ data) blankLine = some headerEnd)
    (hlong : ¬ maxHeaderBytes < headerEnd)
    (hparse : parseResponseHead ((d.header ++ data).take headerEnd) = .ok head)
    (hframing : messageFraming method head.status
      (headerLines ((d.header ++ data).take headerEnd)) = none) (eof : Bool) :
    finalFeed method d data eof =
      finalFeedLoop method (d.header ++ data).length (new d.noBody)
        ((d.header ++ data).drop (headerEnd + 4)) eof := by
  simp only [finalFeed, finalFeedLoop, hhead, Option.isSome_none, Bool.false_eq_true, if_false,
    hend, if_neg hlong, hparse, hframing]

/-- A response to a HEAD request is framed as one of no bytes. -/
theorem bodyOf_method (method : Method) (framing : BodyFraming) :
    bodyOf (method = .head) framing =
      bodyOf false (if method = .head then .contentLength 0 else framing) := by
  by_cases hmethod : method = .head
  · rw [if_pos hmethod, decide_eq_true hmethod]
    rfl
  · rw [if_neg hmethod, decide_eq_false hmethod]

/-- The code knows the end of the response with this head. -/
def KnowsEndOf (method : Method) (header : List UInt8) : Prop :=
  ∀ head, parseResponseHead header = .ok head → KnowsEnd method head.status (headerLines header)

theorem finalFeed_eq (hnoBody : d.noBody = decide (method = .head)) {data : List UInt8}
    (hknown : d.head = none → ∀ headerEnd,
      findBytes (d.header ++ data) blankLine = some headerEnd →
        KnowsEndOf method ((d.header ++ data).take headerEnd)) (eof : Bool) :
    finalFeed method d data eof = d.feed data eof := by
  cases hhead : d.head with
  | some head => rw [finalFeed_of_head hhead, feed_of_head hhead]
  | none =>
    cases hend : findBytes (d.header ++ data) blankLine with
    | none => exact finalFeed_of_short hhead hend eof
    | some headerEnd =>
      by_cases hlong : maxHeaderBytes < headerEnd
      · exact finalFeed_of_long hhead hend hlong eof
      · cases hparse : parseResponseHead ((d.header ++ data).take headerEnd) with
        | error halt => exact finalFeed_of_invalid hhead hend hlong hparse eof
        | ok head =>
          have hframing := (knowsEnd_iff _ _ _).mp (hknown hhead headerEnd hend head hparse)
          rw [← framing_of_parsed hparse] at hframing
          rw [finalFeed_of_final hhead hend hlong hparse hframing,
            feed_of_parsed hhead hend hlong hparse, parsed, hnoBody, bodyOf_method]

theorem noBody_consumeBody (d : ResponseDecoder) (data : List UInt8) (eof : Bool) :
    (d.consumeBody data eof).2.noBody = d.noBody ∧ (d.consumeBody data eof).2.head = d.head := by
  simp only [consumeBody]
  split
  · exact ⟨rfl, rfl⟩
  · exact ⟨rfl, rfl⟩
  · split <;> exact ⟨rfl, rfl⟩

/-- A decoder that waits for its head has only collected bytes. -/
theorem feed_waits {data : List UInt8} (h : (d.feed data false).1 = .ok none) :
    (d.feed data false).2.noBody = d.noBody ∧ ((d.feed data false).2.head = none →
      d.head = none ∧ (d.feed data false).2.header = d.header ++ data) := by
  cases hhead : d.head with
  | some head =>
    rw [feed_of_head hhead]
    obtain ⟨hnoBody, hsame⟩ := noBody_consumeBody d data false
    refine ⟨hnoBody, fun hnone => ?_⟩
    rw [hsame, hhead] at hnone
    cases hnone
  | none =>
    cases hend : findBytes (d.header ++ data) blankLine with
    | none =>
      rw [feed_of_short hhead hend]
      exact ⟨rfl, fun _ => ⟨rfl, rfl⟩⟩
    | some headerEnd =>
      by_cases hlong : maxHeaderBytes < headerEnd
      · rw [feed_of_long hhead hend hlong] at h
        cases h
      · cases hparse : parseResponseHead ((d.header ++ data).take headerEnd) with
        | error halt =>
          rw [feed_of_invalid hhead hend hlong hparse] at h
          cases h
        | ok head =>
          rw [feed_of_parsed hhead hend hlong hparse]
          obtain ⟨hnoBody, hsame⟩ := noBody_consumeBody (d.parsed (d.header ++ data) headerEnd head)
            ((d.header ++ data).drop (headerEnd + 4)) false
          refine ⟨hnoBody, fun hnone => ?_⟩
          rw [hsame] at hnone
          cases hnone

/-- Where the code knows the end of the response that comes, it answers by the rules. -/
theorem firstAnswer_eq (hnoBody : d.noBody = decide (method = .head)) (eof : Bool)
    (fragments : List (List UInt8))
    (hknown : d.head = none → ∀ headerEnd,
      findBytes (d.header ++ fragments.flatten) blankLine = some headerEnd →
        KnowsEndOf method ((d.header ++ fragments.flatten).take headerEnd)) :
    d.verdict eof fragments = firstAnswer (finalFeed method) eof d fragments := by
  induction fragments generalizing d with
  | nil => rfl
  | cons data fragments ih =>
    rw [List.flatten_cons, ← List.append_assoc] at hknown
    have hfirst : d.head = none → ∀ headerEnd,
        findBytes (d.header ++ data) blankLine = some headerEnd →
          KnowsEndOf method ((d.header ++ data).take headerEnd) := by
      intro hhead headerEnd hend
      have hle := findBytes_blankLine_le hend
      have hend' := ChunkedDecoder.findBytes_append (by simp [blankLine]) hend fragments.flatten
      have hsame := hknown hhead headerEnd hend'
      rwa [List.take_append_of_le_length (by omega)] at hsame
    have hfeed := finalFeed_eq hnoBody hfirst
    rw [verdict, firstAnswer, firstAnswer, hfeed, hfeed]
    cases fragments with
    | nil => rfl
    | cons next fragments =>
      rw [List.isEmpty_cons, Bool.and_false]
      split
      · rename_i hwaits
        obtain ⟨hsame, hcollects⟩ := feed_waits hwaits
        apply ih (hsame.trans hnoBody)
        intro hhead headerEnd hend
        obtain ⟨hhead', hheader⟩ := hcollects hhead
        rw [hheader] at hend ⊢
        exact hknown hhead' headerEnd hend
      · rfl

theorem status_of_consumeBody {head : ResponseHead} (hhead : d.head = some head)
    {data : List UInt8} {eof : Bool} {response : ParsedResponse}
    (h : (d.consumeBody data eof).1 = .ok (some response)) : response.status = head.status := by
  simp only [consumeBody, hhead] at h
  split at h
  · cases h
  · cases h
  · cases h
    rfl

/-- Two ways of framing a body are told apart by some bytes and the end of the stream. -/
theorem consume_ne {f g : BodyFraming} (hne : f ≠ g) :
    ∃ data eof, ((bodyOf false f).consume data eof).1 ≠ ((bodyOf false g).consume data eof).1 := by
  have hlength : ∀ (n : ℕ) (g : BodyFraming), g ≠ .contentLength n →
      ((bodyOf false (.contentLength n)).consume (List.replicate n 48) false).1 ≠
        ((bodyOf false g).consume (List.replicate n 48) false).1 := by
    intro n g hg
    have hall : ((bodyOf false (.contentLength n)).consume (List.replicate n 48) false).1 =
        .ok (some n) := by
      simp [bodyOf, BodyDecoder.consume]
    rw [hall]
    cases g with
    | contentLength m =>
      have hmn : m ≠ n := fun heq => hg (congrArg _ heq)
      simp only [bodyOf, BodyDecoder.consume, Bool.false_eq_true, if_false, List.length_replicate]
      split
      · rw [ne_eq, Except.ok.injEq, Option.some.injEq]
        omega
      · simp
    | chunked =>
      -- Digits without a line ending are no chunk.
      have hnone : findBytes (List.replicate n 48) crlf = none := by
        cases hline : findBytes (List.replicate n 48) crlf with
        | none => rfl
        | some lineEnd =>
          have hinitial := ((firstOccurrence_eq_some_iff (by simp [crlf])).mp hline).1
          have hmem : (13 : UInt8) ∈ List.replicate n (48 : UInt8) :=
            List.mem_of_mem_drop (hinitial.subset List.mem_cons_self)
          exact absurd (List.eq_of_mem_replicate hmem) (by decide)
      have hpass : (ChunkedDecoder.new.extend (List.replicate n 48)).pass =
          (ChunkedDecoder.new.extend (List.replicate n 48)).waitForControl := by
        simp only [ChunkedDecoder.pass, ChunkedDecoder.extend, ChunkedDecoder.new, List.nil_append,
          hnone]
      have hsettle : (ChunkedDecoder.new.extend (List.replicate n 48)).settle =
          (ChunkedDecoder.new.extend (List.replicate n 48)).waitForControl := by
        rw [ChunkedDecoder.settle_of_stop, hpass]
        intro d' h
        rw [hpass, ChunkedDecoder.waitForControl] at h
        split at h <;> cases h
      simp only [bodyOf, BodyDecoder.consume, ChunkedDecoder.feed_eq, hsettle,
        ChunkedDecoder.waitForControl, Bool.false_eq_true, if_false]
      by_cases hlong :
          maxHeaderBytes < (ChunkedDecoder.new.extend (List.replicate n 48)).buffer.length
      · rw [if_pos hlong]
        simp
      · rw [if_neg hlong]
        simp
    | closeDelimited => simp [bodyOf, BodyDecoder.consume]
  cases f with
  | contentLength n => exact ⟨_, _, hlength n g hne.symm⟩
  | chunked =>
    cases g with
    | contentLength n => exact ⟨_, _, (hlength n .chunked hne).symm⟩
    | chunked => exact absurd rfl hne
    | closeDelimited => exact ⟨[], true, by decide⟩
  | closeDelimited =>
    cases g with
    | contentLength n => exact ⟨_, _, (hlength n .closeDelimited hne).symm⟩
    | chunked => exact ⟨[], true, by decide⟩
    | closeDelimited => exact absurd rfl hne

theorem consumeBody_answer {head : ResponseHead} (hhead : d.head = some head) (data : List UInt8)
    (eof : Bool) : (d.consumeBody data eof).1 = (d.body.consume data eof).1.map
      (Option.map fun bodyLength => ⟨head.status, bodyLength, head.connectionClose⟩) := by
  simp only [consumeBody, hhead]
  cases (d.body.consume data eof).1 with
  | error halt => rfl
  | ok length =>
    cases length with
    | none => rfl
    | some length => rfl

theorem consumeBody_ne {d' : ResponseDecoder} {head : ResponseHead} (hhead : d.head = some head)
    (hhead' : d'.head = some head) {data : List UInt8} {eof : Bool}
    (hne : (d.body.consume data eof).1 ≠ (d'.body.consume data eof).1) :
    (d.consumeBody data eof).1 ≠ (d'.consumeBody data eof).1 := by
  rw [consumeBody_answer hhead, consumeBody_answer hhead']
  intro heq
  cases h : (d.body.consume data eof).1 with
  | error halt =>
    cases h' : (d'.body.consume data eof).1 with
    | error halt' =>
      rw [h, h'] at heq
      cases heq
      exact hne (h.trans h'.symm)
    | ok length' =>
      rw [h, h'] at heq
      cases heq
  | ok length =>
    cases h' : (d'.body.consume data eof).1 with
    | error halt' =>
      rw [h, h'] at heq
      cases heq
    | ok length' =>
      rw [h, h'] at heq
      cases length with
      | none =>
        cases length' with
        | none => exact hne (h.trans h'.symm)
        | some length' => cases heq
      | some length =>
        cases length' with
        | none => cases heq
        | some length' =>
          cases heq
          exact hne (h.trans h'.symm)

/-- `HTTP/1.1 200 OK`. -/
def okHead : List UInt8 := [72, 84, 84, 80, 47, 49, 46, 49, 32, 50, 48, 48, 32, 79, 75]

theorem parse_okHead : parseResponseHead okHead = .ok ⟨200, false, .closeDelimited⟩ := by
  decide +kernel

/-- A decoder that goes by the rules reads a final response without fields to the end of the
connection. -/
theorem finalFeedLoop_okHead (method : Method) (fuel : ℕ) (noBody : Bool) :
    (finalFeedLoop method (fuel + 1) (new noBody) (okHead ++ blankLine) true).1 =
      .ok (some ⟨200, 0, false⟩) := by
  have hend : findBytes (okHead ++ blankLine) blankLine = some 15 := by decide
  have hlines : headerLines okHead = [] := by decide +kernel
  have htake : (okHead ++ blankLine).take 15 = okHead := by decide
  have hdrop : (okHead ++ blankLine).drop (15 + 4) = [] := by decide
  have hlong : ¬ maxHeaderBytes < 15 := by decide
  simp only [finalFeedLoop, new, Option.isSome_none, Bool.false_eq_true, if_false, List.nil_append,
    hend, if_neg hlong, htake, hdrop, parse_okHead, hlines]
  cases method <;> rfl

end ResponseDecoder

section Responses
open ResponseDecoder

/-- The decoder ends a response with this head where the rules end it, whatever follows and
however the stream is cut. -/
def EndsByTheRules (method : Method) (header : List UInt8) : Prop :=
  ∀ (eof : Bool) (fragments : List (List UInt8)), header ++ blankLine <+: fragments.flatten →
    (ResponseDecoder.new (method = .head)).verdict eof fragments =
      firstAnswer (finalFeed method) eof (ResponseDecoder.new (method = .head)) fragments

/-- The decoder ends the response to a method with an accepted head where the rules end it if
and only if the response is not an interim one, and is to a HEAD request, or has no body by its
status and by its fields, or has chunks or one length that the code reads. -/
theorem endsByTheRules_iff (method : Method) {header : List UInt8} {head : ResponseHead}
    (hend : findBytes (header ++ blankLine) blankLine = some header.length)
    (hshort : header.length ≤ maxHeaderBytes) (hparse : parseResponseHead header = .ok head) :
    EndsByTheRules method header ↔ KnowsEnd method head.status (headerLines header) := by
  have hend' : ∀ more, findBytes (header ++ blankLine ++ more) blankLine = some header.length :=
    fun more => ChunkedDecoder.findBytes_append (by simp [blankLine]) hend more
  have htake : ∀ more, (header ++ blankLine ++ more).take header.length = header := by
    intro more
    rw [List.append_assoc, List.take_left]
  have hdrop : ∀ more, (header ++ blankLine ++ more).drop (header.length + 4) = more := by
    intro more
    have hlength : header.length + 4 = (header ++ blankLine).length := by
      rw [List.length_append]
      rfl
    rw [hlength, List.drop_left]
  have hlong : ¬ maxHeaderBytes < header.length := Nat.not_lt.mpr hshort
  constructor
  · intro hends
    rw [knowsEnd_iff, ← framing_of_parsed hparse]
    -- One fragment with the head and what follows is enough to tell the framings apart.
    have hone : ∀ more eof,
        ((ResponseDecoder.new (method = .head)).feed (header ++ blankLine ++ more) eof).1 =
          (finalFeed method (ResponseDecoder.new (method = .head))
            (header ++ blankLine ++ more) eof).1 := by
      intro more eof
      have hsame := hends eof [header ++ blankLine ++ more] (by simp)
      rwa [verdict, firstAnswer_singleton, firstAnswer_singleton] at hsame
    have hparse' : ∀ more, parseResponseHead (((ResponseDecoder.new (method = .head)).header ++
        (header ++ blankLine ++ more)).take header.length) = .ok head :=
      fun more => (congrArg parseResponseHead (htake more)).trans hparse
    have hcode : ∀ more eof,
        (ResponseDecoder.new (method = .head)).feed (header ++ blankLine ++ more) eof =
          consumeBody ⟨header, some head, bodyOf false (if method = .head then .contentLength 0
            else head.framing), decide (method = .head)⟩ more eof := by
      intro more eof
      rw [feed_of_parsed rfl (hend' more) hlong (hparse' more), ← bodyOf_method]
      simp only [parsed, ResponseDecoder.new, List.nil_append, htake, hdrop]
    have hframing' : ∀ more, messageFraming method head.status (headerLines
        (((ResponseDecoder.new (method = .head)).header ++ (header ++ blankLine ++ more)).take
          header.length)) = messageFraming method head.status (headerLines header) :=
      fun more => congrArg (messageFraming method head.status <| headerLines ·) (htake more)
    cases hframing : messageFraming method head.status (headerLines header) with
    | none =>
      -- The final response that follows has another status.
      exfalso
      have hanswer := hone (okHead ++ blankLine) true
      have hlength : ((ResponseDecoder.new (method = .head)).header ++
          (header ++ blankLine ++ (okHead ++ blankLine))).length = header.length + 22 + 1 := by
        simp only [ResponseDecoder.new, List.nil_append, List.length_append]
        rfl
      have hrest : ((ResponseDecoder.new (method = .head)).header ++
          (header ++ blankLine ++ (okHead ++ blankLine))).drop (header.length + 4) =
            okHead ++ blankLine := hdrop _
      rw [hcode, finalFeed_of_interim rfl (hend' _) hlong (hparse' _)
        ((hframing' _).trans hframing), hlength, hrest, finalFeedLoop_okHead] at hanswer
      have hstatus : 200 = head.status := status_of_consumeBody rfl hanswer
      rw [messageFraming] at hframing
      split at hframing
      · omega
      · split at hframing
        · cases hframing
        · split at hframing
          · cases hframing
          · split at hframing <;> cases hframing
    | some framing =>
      by_contra hne
      obtain ⟨more, eof, hdiffer⟩ := consume_ne fun heq => hne (congrArg some heq)
      have hanswer := hone more eof
      have hrest : ((ResponseDecoder.new (method = .head)).header ++
          (header ++ blankLine ++ more)).drop (header.length + 4) = more := hdrop _
      rw [hcode, finalFeed_of_final rfl (hend' _) hlong (hparse' _)
        ((hframing' _).trans hframing), hrest] at hanswer
      exact consumeBody_ne rfl rfl hdiffer.symm hanswer
  · intro hknows eof fragments hinitial
    apply firstAnswer_eq rfl
    intro _ headerEnd hfound head' hparse'
    obtain ⟨more, hmore⟩ := hinitial
    have hstream : (ResponseDecoder.new (method = .head)).header ++ fragments.flatten =
        header ++ blankLine ++ more := hmore.symm
    rw [hstream, hend'] at hfound
    cases hfound
    rw [hstream, htake] at hparse' ⊢
    rw [hparse] at hparse'
    cases hparse'
    exact hknows

/-- The head of a response with a body of two bytes. -/
def lengthHead : List UInt8 :=
  okHead ++ crlf ++ [67, 111, 110, 116, 101, 110, 116, 45, 76, 101, 110, 103, 116, 104, 58, 32, 50]

theorem endsByTheRules_iff_sample : EndsByTheRules .get lengthHead := by
  have hparse : parseResponseHead lengthHead = .ok ⟨200, false, .contentLength 2⟩ := by
    decide +kernel
  have hvalue : headerValue (headerLines lengthHead) "content-length" = some ['2'] := by
    decide +kernel
  have hmembers : lengthMembers (headerLines lengthHead) = [['2']] := by decide +kernel
  refine (endsByTheRules_iff .get (by decide) (by decide) hparse).mpr ⟨by decide, Or.inr ?_⟩
  rw [if_neg (by decide), ReadsLength, hvalue, hmembers]
  exact Or.inr (Or.inl ⟨2, by decide, by decide, by decide⟩)

/-- `HTTP/1.1 204 No Content`. -/
def noContentHead : List UInt8 :=
  [72, 84, 84, 80, 47, 49, 46, 49, 32, 50, 48, 52, 32, 78, 111, 32, 67, 111, 110, 116, 101, 110,
    116]

/-- A response without content is not complete at its blank line. -/
theorem no_content_incomplete :
    ¬ ∀ (method : Method) (header : List UInt8) (head : ResponseHead),
      findBytes (header ++ blankLine) blankLine = some header.length →
      header.length ≤ maxHeaderBytes → parseResponseHead header = .ok head →
      EndsByTheRules method header := by
  intro h
  have hends := h .get noContentHead ⟨204, false, .closeDelimited⟩ (by decide) (by decide)
    (by decide +kernel) false [noContentHead ++ blankLine] (by simp)
  exact absurd hends (by decide +kernel)

end Responses

end Rload
