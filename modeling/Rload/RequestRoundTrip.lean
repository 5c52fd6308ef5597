import Rload.HttpRequests
import Rload.OriginForms

/-!
# Encoded requests are read back

A server that reads the requests of a connection by the grammar of HTTP/1.1 finds the requests
that were encoded, one after the other, with their methods, paths, headers and bodies. It takes
the spaces and tabs around the value of a header off.
-/

namespace Rload
open TextScanning HttpRequests

/-- A character that is not ASCII has no ASCII byte in its encoding. -/
theorem le_of_mem_utf8EncodeChar {c : Char} (hc : 128 ≤ c.toNat) {b : UInt8}
    (hb : b ∈ String.utf8EncodeChar c) : 128 ≤ b.toNat := by
  by_contra hlt
  have heq : c.toNat = b.toNat := eq_of_mem_utf8EncodeChar (Nat.lt_of_not_le hlt) hb
  omega

theorem lowerByte_of_le {b : UInt8} (hb : 128 ≤ b.toNat) : lowerByte b = b := by
  have hnot : ¬ (65 ≤ b && b ≤ 90) = true := by
    rw [Bool.and_eq_true, decide_eq_true_eq, decide_eq_true_eq]
    rintro ⟨-, hle⟩
    have hle : b.toNat ≤ 90 := UInt8.le_iff_toNat_le.mp hle
    omega
  exact if_neg hnot

theorem utf8EncodeChar_toLower (c : Char) :
    String.utf8EncodeChar c.toLower = (String.utf8EncodeChar c).map lowerByte := by
  by_cases hc : c.toNat < 128
  · have hall : ∀ n < 128, String.utf8EncodeChar (Char.ofNat n).toLower =
        (String.utf8EncodeChar (Char.ofNat n)).map lowerByte := by decide
    have hof := hall c.toNat hc
    rwa [Char.ofNat_toNat] at hof
  · have hsame : c.toLower = c := by
      have hnot : ¬ (c.val ≥ 'A'.val ∧ c.val ≤ 'Z'.val) := by
        rintro ⟨-, hle⟩
        have hle : c.val.toNat ≤ 90 := UInt32.le_iff_toNat_le.mp hle
        exact hc (lt_of_le_of_lt hle (by decide))
      exact dif_neg hnot
    have hmap : (String.utf8EncodeChar c).map lowerByte = String.utf8EncodeChar c := by
      conv_rhs => rw [← List.map_id (String.utf8EncodeChar c)]
      apply List.map_congr_left
      intro b hb
      exact lowerByte_of_le (le_of_mem_utf8EncodeChar (Nat.le_of_not_lt hc) hb)
    rw [hsame, hmap]

/-- Texts and their encodings are compared alike. -/
theorem sameName_encodeUtf8 (a b : List Char) :
    sameName (encodeUtf8 a) (encodeUtf8 b) = eqIgnoreAsciiCase a b := by
  have hmap : ∀ cs : List Char,
      (encodeUtf8 cs).map lowerByte = encodeUtf8 (cs.map Char.toLower) := by
    intro cs
    rw [encodeUtf8, encodeUtf8, List.map_flatMap, List.flatMap_map]
    exact congrArg (List.flatMap · cs) (funext fun c => (utf8EncodeChar_toLower c).symm)
  rw [sameName, eqIgnoreAsciiCase, hmap, hmap]
  exact decide_eq_decide.mpr ⟨encodeUtf8_injective, congrArg encodeUtf8⟩

theorem toNat_of_isDigit {c : Char} (hc : c.isDigit) : 48 ≤ c.toNat ∧ c.toNat ≤ 57 := by
  rw [Char.isDigit, Bool.and_eq_true, decide_eq_true_eq, decide_eq_true_eq] at hc
  exact ⟨UInt32.le_iff_toNat_le.mp hc.1, UInt32.le_iff_toNat_le.mp hc.2⟩

theorem decimalValue_repr (n : ℕ) : decimalValue (encodeUtf8 n.repr.toList) = some n := by
  have hdigits : ∀ c ∈ Nat.toDigits 10 n, 48 ≤ c.toNat ∧ c.toNat ≤ 57 := fun c hc =>
    toNat_of_isDigit (Nat.isDigit_of_mem_toDigits (by decide) (by decide) hc)
  have hbyte : ∀ c ∈ Nat.toDigits 10 n, (UInt8.ofNat c.toNat).toNat = c.toNat := by
    intro c hc
    have hle := (hdigits c hc).2
    rw [UInt8.toNat_ofNat', Nat.mod_eq_of_lt (by omega)]
  have hbytes : encodeUtf8 n.repr.toList =
      (Nat.toDigits 10 n).map fun c => UInt8.ofNat c.toNat := by
    rw [Nat.toList_repr]
    apply encodeUtf8_ascii
    intro c hc
    have hle := (hdigits c hc).2
    omega
  have hall :
      ((Nat.toDigits 10 n).map fun c => UInt8.ofNat c.toNat).all HttpRequests.isDigit = true := by
    rw [List.all_eq_true]
    intro b hb
    obtain ⟨c, hc, rfl⟩ := List.mem_map.mp hb
    have hc' := hdigits c hc
    rw [HttpRequests.isDigit, Bool.and_eq_true, decide_eq_true_eq, decide_eq_true_eq,
      UInt8.le_iff_toNat_le, UInt8.le_iff_toNat_le, hbyte c hc]
    exact hc'
  have hvalue : ((Nat.toDigits 10 n).map fun c => UInt8.ofNat c.toNat).foldl
      (fun n b => 10 * n + (b.toNat - 48)) 0 = n := by
    have hfold : ∀ (cs : List Char) (m : ℕ), (∀ c ∈ cs, (UInt8.ofNat c.toNat).toNat = c.toNat) →
        (cs.map fun c => UInt8.ofNat c.toNat).foldl (fun n b => 10 * n + (b.toNat - 48)) m =
          Nat.ofDigitChars 10 cs m := by
      intro cs
      induction cs with
      | nil => exact fun m _ => Nat.ofDigitChars_nil.symm
      | cons c cs ih =>
        intro m hcs
        rw [List.forall_mem_cons] at hcs
        rw [List.map_cons, List.foldl_cons, Nat.ofDigitChars_cons, ih _ hcs.2, hcs.1]
        rfl
    rw [hfold _ _ hbyte, Nat.ofDigitChars_ten_toDigits]
  have hne : (Nat.toDigits 10 n).map (fun c => UInt8.ofNat c.toNat) ≠ [] :=
    fun hnil => Nat.toDigits_ne_nil (List.map_eq_nil_iff.mp hnil)
  rw [decimalValue, hbytes, if_pos ⟨hne, hall⟩, hvalue]

/-- A valid path is one word. -/
theorem path_word {path : List Char} (h : validOriginForm path = true) :
    encodeUtf8 path ≠ [] ∧ ∀ b ∈ [(13 : UInt8), 10, 32], b ∉ encodeUtf8 path := by
  rw [validOriginForm, Bool.and_eq_true, Bool.and_eq_true, decide_eq_true_eq] at h
  refine ⟨?_, fun b hb hmem => ?_⟩
  · intro hnil
    rw [hnil] at h
    cases h.1.1
  · have hbyte := uriByte_of_valid h.2 b hmem
    have hnone : ∀ b ∈ [(13 : UInt8), 10, 32],
        ¬ (b = 37 ∨ isUriByte b = true ∨ isAsciiHexdigit b = true) := by
      rw [List.forall_mem_cons, List.forall_mem_cons, List.forall_mem_singleton]
      decide
    exact hnone b hb hbyte

theorem isToken_encodeUtf8 {name : List Char} (h : validHeaderName name = true) :
    isToken (encodeUtf8 name) := by
  rw [validHeaderName, Bool.and_eq_true] at h
  rw [isToken, Bool.and_eq_true]
  refine ⟨?_, h.2⟩
  cases name with
  | nil => cases h.1
  | cons c name =>
    have hne := encodeUtf8_ne_nil (List.cons_ne_nil c name)
    simpa using hne

/-- A header that the loop accepts. -/
structure IsSound (header : List Char × List Char) : Prop where
  name_valid : validHeaderName header.1 = true
  not_reserved : ∀ reserved ∈ reservedHeaders, eqIgnoreAsciiCase header.1 reserved.toList = false
  value_valid : validHeaderValue header.2 = true

theorem sound_of_checkHeaders {n m : ℕ} {headers : List (List Char × List Char)}
    (h : checkHeaders n headers = .ok m) : ∀ header ∈ headers, IsSound header := by
  induction headers generalizing n with
  | nil => exact fun header hmem => absurd hmem List.not_mem_nil
  | cons header headers ih =>
    obtain ⟨name, value⟩ := header
    rw [checkHeaders] at h
    split at h
    · cases h
    · rename_i hname
      split at h
      · cases h
      · rename_i hreserved
        split at h
        · cases h
        · rename_i hvalue
          refine List.forall_mem_cons.mpr ⟨⟨by simpa using hname, ?_, by simpa using hvalue⟩, ih h⟩
          intro reserved hmem
          rw [List.any_eq_true] at hreserved
          exact Bool.eq_false_iff.mpr fun heq => hreserved ⟨reserved, hmem, heq⟩

/-- What a valid request is. -/
structure ReplayRequest.IsValid (r : ReplayRequest) : Prop where
  path_le : (encodeUtf8 r.path).length ≤ maxUriBytes
  path_valid : validOriginForm r.path = true
  no_body : r.method = .get ∨ r.method = .head → r.bodyPresent = false
  headers_sound : ∀ header ∈ r.headers, IsSound header

theorem ReplayRequest.isValid_of_validate {r : ReplayRequest} (h : validateRequest r = .ok ()) :
    r.IsValid := by
  unfold validateRequest at h
  split at h
  · cases h
  · rename_i hpath
    rw [not_or] at hpath
    split at h
    · cases h
    · split at h
      · cases h
      · rename_i hbody
        cases hcheck : checkHeaders 0 r.headers with
        | error fault =>
          rw [hcheck] at h
          cases h
        | ok headerBytes =>
          refine ⟨Nat.le_of_not_lt hpath.1, by simpa using hpath.2, fun hmethod => ?_,
            sound_of_checkHeaders hcheck⟩
          exact Bool.eq_false_iff.mpr fun hpresent => hbody ⟨hmethod, hpresent⟩

theorem valueByte_of_valid {value : List Char} (h : validHeaderValue value = true) :
    13 ∉ encodeUtf8 value ∧ 10 ∉ encodeUtf8 value := by
  rw [validHeaderValue, List.all_eq_true] at h
  exact ⟨fun hmem => absurd (h 13 hmem) (by decide), fun hmem => absurd (h 10 hmem) (by decide)⟩

def headerLine (header : List Char × List Char) (h : IsSound header) : FieldLine where
  name := encodeUtf8 header.1
  text := 32 :: encodeUtf8 header.2
  name_token := isToken_encodeUtf8 h.name_valid
  no_cr := List.not_mem_cons_of_ne_of_not_mem (by decide) (valueByte_of_valid h.value_valid).1
  no_lf := List.not_mem_cons_of_ne_of_not_mem (by decide) (valueByte_of_valid h.value_valid).2

/-- A host that cannot end its line. -/
def Target.HostIsLine (t : Target) : Prop := '\r' ∉ t.hostHeader ∧ '\n' ∉ t.hostHeader

instance (t : Target) : Decidable t.HostIsLine := inferInstanceAs (Decidable (_ ∧ _))

def hostLine (t : Target) (h : t.HostIsLine) : FieldLine where
  name := encodeUtf8 "Host".toList
  text := 32 :: encodeUtf8 t.hostHeader
  name_token := by decide
  no_cr := List.not_mem_cons_of_ne_of_not_mem (by decide)
    (not_mem_encodeUtf8 (by decide) (by decide) h.1)
  no_lf := List.not_mem_cons_of_ne_of_not_mem (by decide)
    (not_mem_encodeUtf8 (by decide) (by decide) h.2)

theorem isDigit_of_mem_repr {n : ℕ} {b : UInt8} (hb : b ∈ encodeUtf8 n.repr.toList) :
    HttpRequests.isDigit b = true := by
  have hvalue := decimalValue_repr n
  rw [decimalValue] at hvalue
  split at hvalue
  · rename_i hdigits
    exact List.all_eq_true.mp hdigits.2 b hb
  · cases hvalue

def lengthLine (n : ℕ) : FieldLine where
  name := encodeUtf8 "Content-Length".toList
  text := 32 :: encodeUtf8 n.repr.toList
  name_token := by decide
  no_cr := List.not_mem_cons_of_ne_of_not_mem (by decide)
    fun hmem => absurd (isDigit_of_mem_repr hmem) (by decide)
  no_lf := List.not_mem_cons_of_ne_of_not_mem (by decide)
    fun hmem => absurd (isDigit_of_mem_repr hmem) (by decide)

def connectionLine : FieldLine where
  name := encodeUtf8 "Connection".toList
  text := encodeUtf8 " keep-alive".toList
  name_token := by decide
  no_cr := by decide
  no_lf := by decide

/-- The spaces and tabs around a text are no part of the value. -/
theorem trimBlank_cons (text : List UInt8) : trimBlank (32 :: text) = trimBlank text := by
  rw [trimBlank, trimBlank, List.dropWhile_cons_of_pos (by decide)]

theorem trimBlank_of_none {text : List UInt8} (h : ∀ b ∈ text, isBlank b = false) :
    trimBlank text = text := by
  have hdrop : ∀ {l : List UInt8}, (∀ b ∈ l, isBlank b = false) → l.dropWhile isBlank = l := by
    intro l hl
    cases l with
    | nil => rfl
    | cons b l => rw [List.dropWhile_cons_of_neg (by simp [hl b List.mem_cons_self])]
  rw [trimBlank, hdrop h, List.rdropWhile, hdrop fun b hb => h b (List.mem_reverse.mp hb),
    List.reverse_reverse]

/-- The request as a server may read it, which has its own way with the values of the host and
the headers. -/
def readWith (value : List UInt8 → List UInt8) (t : Target) (r : ReplayRequest) : Request where
  method := encodeUtf8 r.method.asStr
  target := encodeUtf8 r.path
  fields := ⟨encodeUtf8 "Host".toList, value (encodeUtf8 t.hostHeader)⟩ ::
    r.headers.map (fun header => ⟨encodeUtf8 header.1, value (encodeUtf8 header.2)⟩) ++
    (if r.method = .get ∨ r.method = .head then []
      else [⟨encodeUtf8 "Content-Length".toList, encodeUtf8 r.body.length.repr.toList⟩]) ++
    [⟨encodeUtf8 "Connection".toList, encodeUtf8 "keep-alive".toList⟩]
  body := r.body

/-- The request that a server reads by the grammar. -/
def received (t : Target) (r : ReplayRequest) : Request := readWith trimBlank t r

theorem values_append (name : List UInt8) (fields others : List HttpRequests.Field) :
    values name (fields ++ others) = values name fields ++ values name others := by
  rw [values, values, values, List.filter_append, List.map_append]

theorem values_eq_nil {name : List UInt8} {fields : List HttpRequests.Field}
    (h : ∀ field ∈ fields, sameName field.name name = false) : values name fields = [] := by
  rw [values, List.filter_eq_nil_iff.mpr fun field hf => by simp [h field hf], List.map_nil]

/-- The headers of a request have none of the names that the encoding adds. -/
theorem values_headers {r : ReplayRequest} (h : r.IsValid) {reserved : String}
    (hreserved : reserved ∈ reservedHeaders) : values (encodeUtf8 reserved.toList)
      (r.headers.map fun header =>
        (⟨encodeUtf8 header.1, trimBlank (encodeUtf8 header.2)⟩ : HttpRequests.Field)) =
        [] := by
  apply values_eq_nil
  intro field hfield
  obtain ⟨header, hmem, rfl⟩ := List.mem_map.mp hfield
  rw [sameName_encodeUtf8]
  exact (h.headers_sound header hmem).not_reserved reserved hreserved

/-- The fields that a server reads: one host, no transfer coding, and a length where a body is
allowed. -/
theorem values_received {t : Target} {r : ReplayRequest} (h : r.IsValid) :
    (values hostName (received t r).fields).length = 1 ∧
      values transferEncodingName (received t r).fields = [] ∧
      values contentLengthName (received t r).fields =
        if r.method = .get ∨ r.method = .head then []
        else [encodeUtf8 r.body.length.repr.toList] := by
  have hhost : hostName = encodeUtf8 "host".toList := by decide
  have htransfer : transferEncodingName = encodeUtf8 "transfer-encoding".toList := by decide
  have hlength : contentLengthName = encodeUtf8 "content-length".toList := by decide
  have hsingle : ∀ (name text value : List UInt8), values name [⟨text, value⟩] =
      if sameName text name then [value] else [] := by
    intro name text value
    cases hsame : sameName text name <;> simp [values, hsame]
  have hfields : (received t r).fields =
      [⟨encodeUtf8 "Host".toList, trimBlank (encodeUtf8 t.hostHeader)⟩] ++
      r.headers.map (fun header => ⟨encodeUtf8 header.1, trimBlank (encodeUtf8 header.2)⟩) ++
      (if r.method = .get ∨ r.method = .head then []
        else [⟨encodeUtf8 "Content-Length".toList, encodeUtf8 r.body.length.repr.toList⟩]) ++
      [⟨encodeUtf8 "Connection".toList, encodeUtf8 "keep-alive".toList⟩] := rfl
  have hheaders := fun {reserved : String} (hmem : reserved ∈ reservedHeaders) =>
    values_headers h hmem
  have hnames : eqIgnoreAsciiCase "Host".toList "host".toList = true ∧
      eqIgnoreAsciiCase "Host".toList "transfer-encoding".toList = false ∧
      eqIgnoreAsciiCase "Host".toList "content-length".toList = false ∧
      eqIgnoreAsciiCase "Connection".toList "host".toList = false ∧
      eqIgnoreAsciiCase "Connection".toList "transfer-encoding".toList = false ∧
      eqIgnoreAsciiCase "Connection".toList "content-length".toList = false ∧
      eqIgnoreAsciiCase "Content-Length".toList "host".toList = false ∧
      eqIgnoreAsciiCase "Content-Length".toList "transfer-encoding".toList = false ∧
      eqIgnoreAsciiCase "Content-Length".toList "content-length".toList = true := by decide
  rw [hfields]
  simp only [values_append, hhost, htransfer, hlength, hsingle, sameName_encodeUtf8,
    hheaders (show "host" ∈ reservedHeaders by simp [reservedHeaders]),
    hheaders (show "transfer-encoding" ∈ reservedHeaders by simp [reservedHeaders]),
    hheaders (show "content-length" ∈ reservedHeaders by simp [reservedHeaders]), hnames]
  by_cases hmethod : r.method = .get ∨ r.method = .head
  · simp only [if_pos hmethod]
    exact ⟨rfl, rfl, rfl⟩
  · simp only [if_neg hmethod, hsingle, sameName_encodeUtf8, hnames]
    exact ⟨rfl, rfl, rfl⟩

theorem bodyLength_received {t : Target} {r : ReplayRequest} (h : r.IsValid)
    (hbody : r.body ≠ [] → r.bodyPresent = true) :
    bodyLength (received t r).fields = some r.body.length := by
  obtain ⟨-, htransfer, hlength⟩ := values_received (t := t) h
  rw [bodyLength, if_neg (not_not.mpr htransfer), hlength]
  by_cases hmethod : r.method = .get ∨ r.method = .head
  · have hnil : r.body = [] := by
      by_contra hne
      have hpresent := hbody hne
      rw [h.no_body hmethod] at hpresent
      cases hpresent
    rw [if_pos hmethod, hnil]
    rfl
  · rw [if_neg hmethod]
    dsimp only
    rw [decimalValue_repr]
    rfl

/-- The lines of the request, as they are encoded. -/
def fieldLines (t : Target) (ht : t.HostIsLine) (r : ReplayRequest) (h : r.IsValid) :
    List FieldLine :=
  hostLine t ht :: r.headers.pmap headerLine h.headers_sound ++
    (if r.method = .get ∨ r.method = .head then [] else [lengthLine r.body.length]) ++
    [connectionLine]

theorem fields_fieldLines (t : Target) (ht : t.HostIsLine) (r : ReplayRequest) (h : r.IsValid) :
    (fieldLines t ht r h).map FieldLine.field = (received t r).fields := by
  have hheaders : (r.headers.pmap headerLine h.headers_sound).map FieldLine.field =
      r.headers.map fun header => ⟨encodeUtf8 header.1, trimBlank (encodeUtf8 header.2)⟩ := by
    rw [List.map_pmap]
    refine (List.pmap_congr_left r.headers fun header _ hs _ => ?_).trans
      (List.pmap_eq_map h.headers_sound)
    simp only [FieldLine.field, headerLine, trimBlank_cons]
  have hdigits : trimBlank (encodeUtf8 r.body.length.repr.toList) =
      encodeUtf8 r.body.length.repr.toList := by
    apply trimBlank_of_none
    intro b hb
    have hdigit := isDigit_of_mem_repr hb
    cases hblank : isBlank b with
    | false => rfl
    | true =>
      rw [isBlank, Bool.or_eq_true, decide_eq_true_eq, decide_eq_true_eq] at hblank
      rcases hblank with rfl | rfl <;> cases hdigit
  have hhost : (hostLine t ht).field =
      ⟨encodeUtf8 "Host".toList, trimBlank (encodeUtf8 t.hostHeader)⟩ := by
    simp only [FieldLine.field, hostLine, trimBlank_cons]
  have hlength : (lengthLine r.body.length).field =
      ⟨encodeUtf8 "Content-Length".toList, encodeUtf8 r.body.length.repr.toList⟩ := by
    simp only [FieldLine.field, lengthLine, trimBlank_cons, hdigits]
  have hconnection : connectionLine.field =
      ⟨encodeUtf8 "Connection".toList, encodeUtf8 "keep-alive".toList⟩ := by decide
  rw [fieldLines, received, readWith]
  simp only [List.map_append, List.map_cons, List.map_nil, hheaders, hhost, hconnection]
  by_cases hmethod : r.method = .get ∨ r.method = .head
  · simp only [if_pos hmethod, List.map_nil]
  · simp only [if_neg hmethod, List.map_cons, List.map_nil, hlength]

/-- A valid request as a message. -/
def replayMessage (t : Target) (ht : t.HostIsLine) (r : ReplayRequest) (h : r.IsValid)
    (hbody : r.body ≠ [] → r.bodyPresent = true) : Message where
  method := encodeUtf8 r.method.asStr
  target := encodeUtf8 r.path
  lines := fieldLines t ht r h
  body := r.body
  method_token := by cases r.method <;> decide
  target_ne_nil := (path_word h.path_valid).1
  target_word := (path_word h.path_valid).2
  one_host := by
    rw [fields_fieldLines]
    exact (values_received h).1
  length_eq := by
    rw [fields_fieldLines]
    exact bodyLength_received h hbody

theorem bytes_headerLines (headers : List (List Char × List Char))
    (h : ∀ header ∈ headers, IsSound header) :
    (headers.pmap headerLine h).flatMap (fun l => l.bytes ++ lineEnd) =
      headers.flatMap Target.encodedHeader := by
  have hcolon : encodeUtf8 ": ".toList = [58, 32] := by decide
  have hbreak : encodeUtf8 "\r\n".toList = lineEnd := by decide
  induction headers with
  | nil => rfl
  | cons header headers ih =>
    rw [List.forall_mem_cons] at h
    rw [List.pmap_cons, List.flatMap_cons, List.flatMap_cons, ih h.2]
    simp only [FieldLine.bytes, headerLine, Target.encodedHeader, hcolon, hbreak, List.append_assoc,
      List.cons_append, List.nil_append]

theorem bytes_replayMessage (t : Target) (ht : t.HostIsLine) (r : ReplayRequest) (h : r.IsValid)
    (hbody : r.body ≠ [] → r.bodyPresent = true) :
    (replayMessage t ht r h hbody).bytes = t.replayRequest r := by
  have hspace : encodeUtf8 " ".toList = [32] := by decide
  have hhost : encodeUtf8 " HTTP/1.1\r\nHost: ".toList =
      32 :: version ++ lineEnd ++ encodeUtf8 "Host".toList ++ [58, 32] := by decide
  have hbreak : encodeUtf8 "\r\n".toList = lineEnd := by decide
  have hlength : encodeUtf8 "Content-Length: ".toList =
      encodeUtf8 "Content-Length".toList ++ [58, 32] := by decide
  have hconnection : encodeUtf8 "Connection: keep-alive\r\n\r\n".toList =
      connectionLine.bytes ++ lineEnd ++ lineEnd := by decide
  have hlines : (fieldLines t ht r h).flatMap (fun l => l.bytes ++ lineEnd) =
      (hostLine t ht).bytes ++ lineEnd ++ r.headers.flatMap Target.encodedHeader ++
        (if r.method = .get ∨ r.method = .head then []
          else (lengthLine r.body.length).bytes ++ lineEnd) ++
            (connectionLine.bytes ++ lineEnd) := by
    rw [fieldLines, List.flatMap_append, List.cons_append, List.flatMap_cons, List.flatMap_append,
      bytes_headerLines, List.flatMap_singleton]
    by_cases hmethod : r.method = .get ∨ r.method = .head
    · simp only [if_pos hmethod, List.flatMap_nil, List.append_nil, List.append_assoc]
    · simp only [if_neg hmethod, List.flatMap_singleton, List.append_assoc]
  simp only [Message.bytes, Message.head, Message.requestLine, replayMessage]
  rw [hlines]
  simp only [Target.replayRequest, encodeUtf8_append, hspace, hhost, hbreak, hlength, hconnection,
    FieldLine.bytes, hostLine, lengthLine, List.append_assoc, List.cons_append, List.nil_append]

/-- The requests of a replay are valid, and those with a body say so. -/
def Replayable (requests : List ReplayRequest) : Prop :=
  ∀ r ∈ requests, validateRequest r = .ok () ∧ (r.body ≠ [] → r.bodyPresent = true)

instance (requests : List ReplayRequest) : Decidable (Replayable requests) :=
  inferInstanceAs (Decidable (∀ r ∈ requests, _ ∧ _))

theorem parseRequests_replay {t : Target} (ht : t.HostIsLine) {requests : List ReplayRequest}
    (h : Replayable requests) :
    parseRequests (requests.flatMap t.replayRequest) = some (requests.map (received t)) := by
  have hvalid : ∀ r ∈ requests, r.IsValid ∧ (r.body ≠ [] → r.bodyPresent = true) :=
    fun r hr => ⟨ReplayRequest.isValid_of_validate (h r hr).1, (h r hr).2⟩
  have hmessages : ∃ ms : List Message,
      ms.flatMap Message.bytes = requests.flatMap t.replayRequest ∧
      ms.map Message.request = requests.map (received t) := by
    clear h
    induction requests with
    | nil => exact ⟨[], rfl, rfl⟩
    | cons r requests ih =>
      rw [List.forall_mem_cons] at hvalid
      obtain ⟨ms, hbytes, hrequests⟩ := ih hvalid.2
      obtain ⟨hr, hbody⟩ := hvalid.1
      refine ⟨replayMessage t ht r hr hbody :: ms, ?_, ?_⟩
      · rw [List.flatMap_cons, List.flatMap_cons, bytes_replayMessage, hbytes]
      · rw [List.map_cons, List.map_cons, hrequests, Message.request, replayMessage,
          fields_fieldLines]
        rfl
  obtain ⟨ms, hbytes, hrequests⟩ := hmessages
  rw [← hbytes, parseRequests_bytes, hrequests]

theorem methodUriStart_method (method : Method) :
    Method.all[(methodUriStart method ((encodeUtf8 method.asStr).length + 1) >>> 29).toNat]? =
      some method ∧
    (methodUriStart method ((encodeUtf8 method.asStr).length + 1) &&& 0x1fffffff).toNat =
      (encodeUtf8 method.asStr).length + 1 ∧ (encodeUtf8 method.asStr).length ≤ 7 := by
  cases method <;> decide

/-- The place of the URI in an entry holds the path. -/
theorem uri_encodedReplayRequest {t : Target} {r : ReplayRequest} (h : r.IsValid) :
    ((t.replayRequest r).drop ((encodeUtf8 r.method.asStr).length + 1)).take
      ((t.encodedReplayRequest r).uriEnd.toNat - ((encodeUtf8 r.method.asStr).length + 1)) =
        encodeUtf8 r.path := by
  have hle := h.path_le
  have hshort := (methodUriStart_method r.method).2.2
  have hend : (t.encodedReplayRequest r).uriEnd.toNat =
      (encodeUtf8 r.method.asStr).length + 1 + (encodeUtf8 r.path).length := by
    have hmax : maxUriBytes = 8192 := rfl
    rw [Target.encodedReplayRequest, UInt32.toNat_ofNat', Nat.mod_eq_of_lt (by omega)]
  obtain ⟨rest, hbytes⟩ : ∃ rest, t.replayRequest r =
      (encodeUtf8 r.method.asStr ++ encodeUtf8 " ".toList) ++ (encodeUtf8 r.path ++ rest) := by
    simp only [Target.replayRequest, encodeUtf8_append, List.append_assoc]
    exact ⟨_, rfl⟩
  have hstart : (encodeUtf8 r.method.asStr).length + 1 =
      (encodeUtf8 r.method.asStr ++ encodeUtf8 " ".toList).length := by
    rw [List.length_append]
    rfl
  rw [hend, Nat.add_sub_cancel_left, hstart, hbytes, List.drop_left, List.take_left]

namespace RequestSequence

theorem select_requests {s s' : RequestSequence} {index : ℕ} (h : s.select = .ok (index, s')) :
    s'.requests = s.requests := by
  unfold select at h
  split at h
  · cases h
  · split at h
    · cases h
      rfl
    · split at h
      · cases h
        rfl
      · obtain ⟨index', -, h⟩ := ok_of_bind h
        cases h
        rfl
      · obtain ⟨⟨index', state⟩, -, h⟩ := ok_of_bind h
        cases h
        rfl

theorem reserve_requests {s s' : RequestSequence} {request : EncodedRequest} {now : ℕ}
    {scheduled : Option ℕ} (h : s.reserve request now = .ok (scheduled, s')) :
    s'.requests = s.requests := by
  unfold reserve at h
  split at h
  · obtain ⟨⟨scheduled', pacer⟩, -, h⟩ := ok_of_bind h
    cases h
    rfl
  · obtain ⟨timestamp, -, h⟩ := ok_of_bind h
    obtain ⟨⟨scheduled', pacer⟩, -, h⟩ := ok_of_bind h
    cases h
    rfl
  · obtain ⟨⟨scheduled', pacer⟩, -, h⟩ := ok_of_bind h
    cases h
    rfl
  · cases h
    rfl

/-- What `next` returns is an entry of the sequence, which it does not change. -/
theorem next_entry {s s' : RequestSequence} {now : ℕ} {drawn : Drawn}
    (h : s.next now = .ok (drawn, s')) :
    s'.requests = s.requests ∧ ∃ entry, s.requests[drawn.entry]? = some entry ∧
      drawn.request = entry.bytes ∧
      Method.all[(entry.methodUriStart >>> 29).toNat]? = some drawn.method ∧
      drawn.uri = ((entry.methodUriStart &&& 0x1fffffff).toNat, entry.uriEnd.toNat) := by
  obtain ⟨⟨index, s₁⟩, hselect, h⟩ := ok_of_bind h
  obtain ⟨entry, hentry, h⟩ := ok_of_bind h
  obtain ⟨⟨scheduled, s₂⟩, hreserve, h⟩ := ok_of_bind h
  obtain ⟨method, hmethod, h⟩ := ok_of_bind h
  cases h
  have hfirst := select_requests hselect
  refine ⟨(reserve_requests hreserve).trans hfirst, entry, ?_, rfl, some_of_orHalt hmethod, rfl⟩
  rw [← hfirst]
  exact some_of_orHalt hentry

end RequestSequence

/-- A server reads the requests of a replay from their encodings, one after the other and no
other ones, with the spaces and tabs around the values of headers taken off. Each entry that the
connections draw has the method and the path of its request. -/
theorem replay_read_back {t : Target} (ht : t.HostIsLine) {requests : List ReplayRequest}
    (h : Replayable requests) :
    parseRequests (requests.flatMap t.replayRequest) = some (requests.map (received t)) ∧
      ∀ sequence : RequestSequence, sequence.requests = requests.map t.encodedReplayRequest →
        ∀ now drawn sequence', sequence.next now = .ok (drawn, sequence') →
          sequence'.requests = sequence.requests ∧
          ∃ r, requests[drawn.entry]? = some r ∧ drawn.request = t.replayRequest r ∧
            drawn.method = r.method ∧
            (drawn.request.drop drawn.uri.1).take (drawn.uri.2 - drawn.uri.1) =
              encodeUtf8 r.path := by
  refine ⟨parseRequests_replay ht h, fun sequence hsequence now drawn sequence' hnext => ?_⟩
  obtain ⟨hsame, entry, hentry, hrequest, hmethod, huri⟩ := RequestSequence.next_entry hnext
  rw [hsequence, List.getElem?_map, Option.map_eq_some_iff] at hentry
  obtain ⟨r, hr, rfl⟩ := hentry
  have hvalid := ReplayRequest.isValid_of_validate (h r (List.mem_of_getElem? hr)).1
  obtain ⟨hindex, hstart, -⟩ := methodUriStart_method r.method
  have hrequest : drawn.request = t.replayRequest r := hrequest
  have huri : drawn.uri = ((encodeUtf8 r.method.asStr).length + 1,
      (t.encodedReplayRequest r).uriEnd.toNat) := huri.trans (Prod.ext hstart rfl)
  refine ⟨hsame, r, hr, hrequest, (Option.some.inj (hindex.symm.trans hmethod)).symm, ?_⟩
  rw [hrequest, huri]
  exact uri_encodedReplayRequest hvalid

/-- A target at `a`, and a GET request and a POST request with a body that looks like one. -/
def plainTarget : Target := ⟨['a', ':', '8', '0'], ['a'], ['/'], none⟩

def paddedRequests : List ReplayRequest :=
  [.new .get ['/'] [(['X'], [' ', 'b'])] [] false none,
    .new .post ['/', 'c'] [] [71, 69, 84, 32, 47] true none]

/-- The replay of the two requests in their order. -/
def paddedSequence : RequestSequence where
  requests := paddedRequests.map plainTarget.encodedReplayRequest
  selection := .sequential 0
  pacer := none
  timestampPacer := none
  timestampCursor := none
  stagePacer := none

theorem replay_read_back_sample :
    parseRequests (paddedRequests.flatMap plainTarget.replayRequest) =
        some (paddedRequests.map (received plainTarget)) ∧
      ∃ drawn sequence', paddedSequence.next 0 = .ok (drawn, sequence') ∧
        sequence'.requests = paddedSequence.requests ∧
        ∃ r, paddedRequests[drawn.entry]? = some r ∧
          drawn.request = plainTarget.replayRequest r ∧ drawn.method = r.method ∧
          (drawn.request.drop drawn.uri.1).take (drawn.uri.2 - drawn.uri.1) =
            encodeUtf8 r.path := by
  have hread := @replay_read_back plainTarget (by decide) paddedRequests
    (by decide +kernel)
  have hdraws : (paddedSequence.next 0).isOk = true := by decide +kernel
  cases hnext : paddedSequence.next 0 with
  | error e =>
    rw [hnext] at hdraws
    cases hdraws
  | ok drawn => exact ⟨hread.1, drawn.1, drawn.2, rfl, hread.2 _ rfl _ _ _ hnext⟩

/-- The space before the value of a header is not read back. -/
theorem padded_header_trimmed :
    ¬ ∀ (t : Target) (requests : List ReplayRequest), t.HostIsLine → Replayable requests →
      parseRequests (requests.flatMap t.replayRequest) = some (requests.map (readWith id t)) := by
  intro h
  have hread := h plainTarget paddedRequests (by decide) (by decide +kernel)
  exact absurd hread (by decide +kernel)

end Rload
