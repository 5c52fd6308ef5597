import Rload.RequestFile
import Rload.RunErrors

/-!
# The two decodings of a record

A record is decoded from its document without a schema, and from the value of its document with
one. Both read the same request where the record is plain, and only where the document has a value.
-/

namespace Rload.RequestFile
open TextScanning JsonDocuments

def lastOf (field : String) (members : List (Option (List Char) × Json)) : Option Json :=
  lastValue (some field.toList) members

/-- The headers, by the last value of each name. -/
def readHeaders : Option Json → Option (TextMap (List Char))
  | none | some .null => some ∅
  | some (.object members) => TextMap.mapLast Json.text? (textMembers members)
  | some _ => none

/-- The request of an object, by the last value of each field. -/
def readMembers (members : List (Option (List Char) × Json)) : Option JsonRequest := do
  let method ← orDefault none optionText (lastOf "method" members)
  let uri ← (lastOf "uri" members).bind Json.text?
  let args ← orDefault none optionText (lastOf "args" members)
  let headers ← readHeaders (lastOf "headers" members)
  let body ← orDefault none optionText (lastOf "body" members)
  some { method := method, uri := uri, args := args, headers := headers, body := body }

def requestFields : List String := ["method", "uri", "args", "headers", "body"]

/-- The members of a field. -/
def occurrences (field : String) (members : List (Option (List Char) × Json)) :
    List (Option (List Char) × Json) := members.filter fun m => m.1 = some field.toList

/-- Headers that are an object, all of whose members are texts. -/
def PlainHeaders (headers : Option Json) : Prop :=
  ∀ json ∈ headers, ∃ members, json = .object members ∧ ∀ m ∈ members, (textMember m).isSome = true

/-- An object with texts as keys that repeats no field, with headers that are texts. -/
structure IsPlain (members : List (Option (List Char) × Json)) : Prop where
  keys : ∀ m ∈ members, m.1 ≠ none
  unrepeated : ∀ field ∈ requestFields, (occurrences field members).length ≤ 1
  headers : PlainHeaders (lastOf "headers" members)

theorem lastValue_eq_getLast {key : Option (List Char)}
    (members : List (Option (List Char) × Json)) :
    lastValue key members = ((members.filter fun m => m.1 = key).getLast?).map Prod.snd := by
  induction members with
  | nil => rfl
  | cons m members ih =>
    rw [lastValue, ih, List.filter_cons]
    by_cases hm : m.1 = key
    · rw [if_pos hm, if_pos (decide_eq_true hm), List.getLast?_cons]
      cases (members.filter fun m => m.1 = key).getLast? <;> rfl
    · rw [if_neg hm, if_neg (by simpa using hm), Option.or_none]

theorem structField_eq (field : String) (members : List (Option (List Char) × Json)) :
    structField field members =
      if (occurrences field members).length ≤ 1 then some (lastOf field members) else none := by
  have hfilter : (members.filter fun m => m.1 = some field.toList) =
    occurrences field members := rfl
  rw [structField, lastOf, lastValue_eq_getLast, hfilter]
  cases occurrences field members with
  | nil => rfl
  | cons m others =>
    cases others with
    | nil => rfl
    | cons m' others => rfl

theorem keepMembers_textMembers (members : List (Option (List Char) × Json)) :
    keepMembers Json.text? (textMembers members) = members.filterMap textMember := by
  rw [keepMembers, textMembers, List.filterMap_filterMap]
  refine List.filterMap_congr fun m _ => ?_
  rw [textMember]
  cases m.1 <;> rfl

theorem takesLast_textMembers {members : List (Option (List Char) × Json)}
    (h : ∀ m ∈ members, (textMember m).isSome = true) :
    TakesLast Json.text? (textMembers members) := by
  intro p hp
  obtain ⟨json, hjson⟩ := Option.isSome_iff_exists.mp (lastValue_isSome hp)
  obtain ⟨m, hm, hmember⟩ := List.mem_filterMap.mp (mem_of_lastValue hjson)
  obtain ⟨key, hkey, heq⟩ := Option.map_eq_some_iff.mp hmember
  have hsome := h m hm
  rw [textMember, hkey, Option.bind_some, member, Option.isSome_map] at hsome
  have hvalue : m.2 = json := congrArg Prod.snd heq
  rw [hvalue] at hsome
  rw [hjson]
  exact hsome

/-- Headers are read alike where all are texts, and are not read where one is not. -/
theorem textMap_eq {headers : Option Json} (h : PlainHeaders headers) :
    orDefault ∅ textMap headers = readHeaders headers := by
  cases headers with
  | none => rfl
  | some json =>
    obtain ⟨members, rfl, hall⟩ := h json rfl
    rw [orDefault, textMap, readHeaders, TextMap.mapLast, if_pos (takesLast_textMembers hall),
      mapM_eq_ite, if_pos hall, keepMembers_textMembers]
    rfl

theorem plainHeaders_of_textMap {headers : Option Json} {m : TextMap (List Char)}
    (h : orDefault ∅ textMap headers = some m) : PlainHeaders headers := by
  intro json hjson
  rw [Option.mem_def.mp hjson, orDefault] at h
  cases json with
  | object members =>
    refine ⟨members, rfl, ?_⟩
    rw [textMap, mapM_eq_ite] at h
    by_contra hnot
    rw [if_neg hnot] at h
    cases h
  | _ => cases h

theorem requestOfObject_plain {members : List (Option (List Char) × Json)} (h : IsPlain members) :
    requestOfObject members = readMembers members := by
  have hkeys : ¬ (members.any fun m => m.1 = none) = true := by
    rw [List.any_eq_true]
    rintro ⟨m, hm, hnone⟩
    exact h.keys m hm (by simpa using hnone)
  have hfield : ∀ field ∈ requestFields, structField field members = some (lastOf field members) :=
    fun field hfield => by rw [structField_eq, if_pos (h.unrepeated field hfield)]
  simp only [requestFields, List.forall_mem_cons] at hfield
  obtain ⟨hmethod, huri, hargs, hheaders, hbody, -⟩ := hfield
  rw [requestOfObject, if_neg hkeys, hmethod, huri, hargs, hheaders, hbody, readMembers,
    ← textMap_eq h.headers]
  rfl

theorem plain_of_requestOfObject {members : List (Option (List Char) × Json)} {r : JsonRequest}
    (h : requestOfObject members = some r) : IsPlain members := by
  rw [requestOfObject] at h
  split at h
  · cases h
  · rename_i hkeys
    have hone : ∀ {field : String} {o : Option Json}, structField field members = some o →
        (occurrences field members).length ≤ 1 ∧ o = lastOf field members := by
      intro field o ho
      rw [structField_eq, Option.ite_none_right_eq_some] at ho
      exact ⟨ho.1, (Option.some.inj ho.2).symm⟩
    obtain ⟨method, hmethod, h⟩ := Option.bind_eq_some_iff.mp h
    obtain ⟨_, -, h⟩ := Option.bind_eq_some_iff.mp h
    obtain ⟨uri, huri, h⟩ := Option.bind_eq_some_iff.mp h
    obtain ⟨_, -, h⟩ := Option.bind_eq_some_iff.mp h
    obtain ⟨args, hargs, h⟩ := Option.bind_eq_some_iff.mp h
    obtain ⟨_, -, h⟩ := Option.bind_eq_some_iff.mp h
    obtain ⟨headers, hheaders, h⟩ := Option.bind_eq_some_iff.mp h
    obtain ⟨_, htexts, h⟩ := Option.bind_eq_some_iff.mp h
    obtain ⟨body, hbody, h⟩ := Option.bind_eq_some_iff.mp h
    refine ⟨fun m hm hnone => hkeys ?_, ?_, ?_⟩
    · exact List.any_eq_true.mpr ⟨m, hm, decide_eq_true hnone⟩
    · simp only [requestFields, List.forall_mem_cons]
      exact ⟨(hone hmethod).1, (hone huri).1, (hone hargs).1, (hone hheaders).1, (hone hbody).1,
        fun _ h => absurd h List.not_mem_nil⟩
    · rw [← (hone hheaders).2]
      exact plainHeaders_of_textMap htexts

theorem toOption_bind {ε α β : Type} (x : Except ε α) (f : α → Except ε β) :
    (x >>= f).toOption = x.toOption.bind fun a => (f a).toOption := by
  cases x <;> rfl

section Values

variable {inRange : List Char → Bool} {depth : ℕ}

/-- The value of a document that is there has been converted. -/
def Convertible (inRange : List Char → Bool) (depth : ℕ) (o : Option Json) : Prop :=
  ∀ json ∈ o, (toValue inRange depth json).isSome = true

theorem optionalString_eq {o : Option Json} (h : Convertible inRange depth o) (line : ℕ)
    (field : String) : (optionalString (o.bind (toValue inRange depth)) line field).toOption =
      orDefault none optionText o := by
  cases o with
  | none => rfl
  | some json =>
    obtain ⟨value, hvalue⟩ := Option.isSome_iff_exists.mp (h json rfl)
    obtain ⟨hnull, htext⟩ := shape_toValue hvalue
    have hleft : (optionalString (some value) line field).toOption =
        if value.isNull then some none else value.text?.map some := by
      cases value <;> rfl
    have hright : optionText json = if json.isNull then some none else json.text?.map some := by
      cases json <;> rfl
    rw [Option.bind_some, hvalue, hleft, orDefault, hright, hnull, htext]

theorem requiredString_eq {o : Option Json} (h : Convertible inRange depth o) (line : ℕ)
    (field : String) : (requiredString (o.bind (toValue inRange depth)) line field).toOption =
      o.bind Json.text? := by
  cases o with
  | none => rfl
  | some json =>
    obtain ⟨value, hvalue⟩ := Option.isSome_iff_exists.mp (h json rfl)
    have hleft : (requiredString (some value) line field).toOption = value.text? := by
      cases value <;> rfl
    rw [Option.bind_some, hvalue, hleft, (shape_toValue hvalue).2]
    rfl

theorem headersOf_eq {o : Option Json} (h : Convertible inRange (depth + 1) o) (line : ℕ) :
    (headersOf (o.bind (toValue inRange (depth + 1))) line).toOption = readHeaders o := by
  cases o with
  | none => rfl
  | some json =>
    obtain ⟨value, hvalue⟩ := Option.isSome_iff_exists.mp (h json rfl)
    rw [Option.bind_some, hvalue]
    cases json with
    | object members =>
      obtain ⟨values, hvalues, rfl⟩ := toValue_object hvalue
      have hmap : mapFromValue (.object values) =
          TextMap.mapLast Json.text? (textMembers members) :=
        (TextMap.mapM_collect _ _).trans (mapLast_converts (forall₂_toMembers hvalues))
      have hheaders : (headersOf (some (.object values)) line).toOption =
          mapFromValue (.object values) := by
        simp only [headersOf]
        cases mapFromValue (.object values) <;> rfl
      rw [hheaders, hmap, readHeaders]
    | array items =>
      obtain ⟨values, rfl⟩ := toValue_array hvalue
      rfl
    | null =>
      rw [toValue] at hvalue
      cases hvalue
      rfl
    | bool b =>
      rw [toValue] at hvalue
      cases hvalue
      rfl
    | number text =>
      rw [toValue, Option.ite_none_right_eq_some] at hvalue
      cases hvalue.2
      rfl
    | string text =>
      rw [toValue] at hvalue
      obtain ⟨text, rfl, rfl⟩ := Option.map_eq_some_iff.mp hvalue
      rfl

/-- The value of an object is read as the last values of its members. -/
theorem validateValue_eq {members : List (Option (List Char) × Json)}
    {values : List (List Char × Value)} (h : toMembers inRange (depth + 1) members = some values)
    (line : ℕ) : (validateValue (.object values) {} line).toOption =
      (readMembers members).bind fun r => (validate r line).toOption := by
  have hconverts := forall₂_toMembers h
  have hfield : ∀ field : String, valueFor (.object values) none field =
      (lastOf field members).bind (toValue inRange (depth + 1)) := by
    intro field
    exact lastValue_converts hconverts field.toList
  have hall : ∀ field : String, Convertible inRange (depth + 1) (lastOf field members) := by
    intro field json hjson
    obtain ⟨value, hvalue⟩ := isSome_of_converts hconverts (mem_of_lastValue hjson)
    exact Option.isSome_of_eq_some hvalue
  rw [validateValue]
  simp only [toOption_bind, hfield, optionalString_eq (hall _), requiredString_eq (hall _),
    headersOf_eq (hall _), readMembers]
  simp only [Option.bind_eq_bind, Option.bind_assoc, Option.bind_some]

/-- A value that is no object has no URI. -/
theorem validateValue_none {value : Value} (h : ∀ values, value ≠ .object values) (line : ℕ) :
    (validateValue value {} line).toOption = none := by
  have hget : ∀ key, get value key = none := by
    intro key
    cases value with
    | object values => exact absurd rfl (h values)
    | _ => rfl
  have hfield : ∀ field : String, valueFor value none field = none := fun field => hget _
  rw [validateValue]
  simp only [hfield]
  rfl

end Values

/-- Both decodings read the same request, or neither reads one. -/
def Agree (json : JsonLibrary) (line : List Char) (lineNumber : ℕ) : Prop :=
  (decodeRequest json line lineNumber).toOption = (decodeValue json {} line lineNumber).toOption

/-- The fields make a request. -/
def IsValid (r : JsonRequest) : Prop := ∃ replay, validate r 0 = .ok replay

/-- Where the decodings agree: an array does not make a request by its positions, and an object
that makes a request is plain exactly if it has a value. -/
def AgreesOn (json : JsonLibrary) : Option Json → Prop
  | some (.object members) =>
    ∀ r, readMembers members = some r → IsValid r →
      (IsPlain members ↔ (toValue json.inRange maxDepth (.object members)).isSome = true)
  | some (.array items) => ∀ r, requestOfArray items = some r → ¬ IsValid r
  | _ => True

theorem toOption_validate (r : JsonRequest) (line : ℕ) :
    (validate r line).toOption = (validate r 0).toOption := by
  rw [validate, validate]
  dsimp only
  split
  · rfl
  · split <;> rfl

theorem isValid_iff (r : JsonRequest) (line : ℕ) :
    IsValid r ↔ (validate r line).toOption ≠ none := by
  rw [toOption_validate, IsValid]
  cases validate r 0 with
  | error e => exact ⟨fun ⟨replay, h⟩ => absurd h (by simp), fun h => absurd rfl h⟩
  | ok replay => exact ⟨fun _ => by simp [Except.toOption], fun _ => ⟨replay, rfl⟩⟩

theorem toOption_decodeRequest (json : JsonLibrary) (line : List Char) (lineNumber : ℕ) :
    (decodeRequest json line lineNumber).toOption =
      ((json.read line).bind jsonRequest).bind fun r => (validate r lineNumber).toOption := by
  rw [decodeRequest]
  cases (json.read line).bind jsonRequest <;> rfl

theorem toOption_decodeValue (json : JsonLibrary) (line : List Char) (lineNumber : ℕ) :
    (decodeValue json {} line lineNumber).toOption =
      ((json.read line).bind (toValue json.inRange maxDepth)).bind
        fun value => (validateValue value {} lineNumber).toOption := by
  rw [decodeValue]
  cases (json.read line).bind (toValue json.inRange maxDepth) <;> rfl

/-- A value of a document that is no object gives no request. -/
theorem decodeValue_none {json : JsonLibrary} {line : List Char} {document : Json}
    (hread : json.read line = some document) (h : ∀ members, document ≠ .object members)
    (lineNumber : ℕ) : (decodeValue json {} line lineNumber).toOption = none := by
  rw [toOption_decodeValue, hread, Option.bind_some]
  cases hvalue : toValue json.inRange maxDepth document with
  | none => rfl
  | some value =>
    refine validateValue_none (fun values hvalues => ?_) lineNumber
    cases document with
    | object members => exact h members rfl
    | array items =>
      obtain ⟨_, rfl⟩ := toValue_array hvalue
      cases hvalues
    | null =>
      rw [toValue] at hvalue
      cases hvalue
      cases hvalues
    | bool b =>
      rw [toValue] at hvalue
      cases hvalue
      cases hvalues
    | number text =>
      rw [toValue, Option.ite_none_right_eq_some] at hvalue
      cases hvalue.2
      cases hvalues
    | string text =>
      rw [toValue] at hvalue
      obtain ⟨text, rfl, rfl⟩ := Option.map_eq_some_iff.mp hvalue
      cases hvalues

theorem agree_object {json : JsonLibrary} {line : List Char}
    {members : List (Option (List Char) × Json)} (hread : json.read line = some (.object members))
    (lineNumber : ℕ) : Agree json line lineNumber ↔ AgreesOn json (some (.object members)) := by
  let read := (readMembers members).bind fun r => (validate r lineNumber).toOption
  have htyped : (decodeRequest json line lineNumber).toOption =
      (requestOfObject members).bind fun r => (validate r lineNumber).toOption := by
    rw [toOption_decodeRequest, hread]
    rfl
  have hplain : IsPlain members → (decodeRequest json line lineNumber).toOption = read :=
    fun h => by rw [htyped, requestOfObject_plain h]
  have hnot : ¬ IsPlain members → (decodeRequest json line lineNumber).toOption = none := by
    intro h
    cases hrequest : requestOfObject members with
    | none => rw [htyped, hrequest, Option.bind_none]
    | some r => exact absurd (plain_of_requestOfObject hrequest) h
  have hvalue : (toValue json.inRange maxDepth (.object members)).isSome = true →
      (decodeValue json {} line lineNumber).toOption = read := by
    intro h
    obtain ⟨value, hvalue⟩ := Option.isSome_iff_exists.mp h
    rw [toOption_decodeValue, hread, Option.bind_some, hvalue]
    obtain ⟨values, hvalues, rfl⟩ := toValue_object hvalue
    exact validateValue_eq hvalues lineNumber
  have hnone : ¬ (toValue json.inRange maxDepth (.object members)).isSome = true →
      (decodeValue json {} line lineNumber).toOption = none := by
    intro h
    rw [toOption_decodeValue, hread, Option.bind_some, Option.not_isSome_iff_eq_none.mp h]
    rfl
  have hread_none : read = none ↔ ∀ r, readMembers members = some r → ¬ IsValid r := by
    rw [Option.bind_eq_none_iff]
    refine forall₂_congr fun r _ => ?_
    rw [isValid_iff r lineNumber, not_not]
  rw [Agree, AgreesOn]
  by_cases h₁ : IsPlain members <;>
    by_cases h₂ : (toValue json.inRange maxDepth (.object members)).isSome = true
  · rw [hplain h₁, hvalue h₂]
    exact ⟨fun _ _ _ _ => iff_of_true h₁ h₂, fun _ => rfl⟩
  · rw [hplain h₁, hnone h₂, hread_none]
    exact forall₂_congr fun r _ => ⟨fun hinvalid hr => absurd hr hinvalid,
      fun hiff hr => h₂ ((hiff hr).mp h₁)⟩
  · rw [hnot h₁, hvalue h₂, eq_comm, hread_none]
    exact forall₂_congr fun r _ => ⟨fun hinvalid hr => absurd hr hinvalid,
      fun hiff hr => h₁ ((hiff hr).mpr h₂)⟩
  · rw [hnot h₁, hnone h₂]
    exact ⟨fun _ _ _ _ => iff_of_false h₁ h₂, fun _ => rfl⟩

/-- The decodings agree on a record exactly where an array does not make a request by its
positions, and an object that makes one is plain exactly if it has a value. -/
theorem decodings_agree_iff (json : JsonLibrary) (line : List Char) (lineNumber : ℕ) :
    Agree json line lineNumber ↔ AgreesOn json (json.read line) := by
  cases hread : json.read line with
  | none =>
    have hagree : Agree json line lineNumber := by
      rw [Agree, toOption_decodeRequest, toOption_decodeValue, hread]
      rfl
    exact iff_of_true hagree trivial
  | some document =>
    cases document with
    | object members => exact agree_object hread lineNumber
    | array items =>
      have htyped : (decodeRequest json line lineNumber).toOption =
          (requestOfArray items).bind fun r => (validate r lineNumber).toOption := by
        rw [toOption_decodeRequest, hread]
        rfl
      rw [Agree, decodeValue_none hread (fun members h => by cases h), htyped,
        Option.bind_eq_none_iff]
      refine forall₂_congr fun r _ => ?_
      rw [isValid_iff r lineNumber, not_not]
    | _ =>
      have hagree : Agree json line lineNumber := by
        rw [Agree, decodeValue_none hread (fun members h => by cases h),
          toOption_decodeRequest, hread]
        rfl
      exact iff_of_true hagree trivial

/-- A record whose headers are null, and a library that reads it. -/
def nullHeaders : List Char := "\x7b\"uri\":\"/\",\"headers\":null\x7d".toList

def nullHeadersLibrary : JsonLibrary where
  read line :=
    if line = nullHeaders then
      some (.object [(some "uri".toList, .string (some ['/'])), (some "headers".toList, .null)])
    else none
  inRange _ := true

/-- Null headers are no headers with a schema, and an error without one. -/
theorem null_headers_disagree : ¬ ∀ json line lineNumber, Agree json line lineNumber := by
  intro h
  have hagree := h nullHeadersLibrary nullHeaders 1
  have hrejected : (decodeRequest nullHeadersLibrary nullHeaders 1).toOption = none := by
    decide +kernel
  have haccepted : (decodeValue nullHeadersLibrary {} nullHeaders 1).toOption =
      some (.new .get ['/'] [] [] false none) := by
    decide +kernel
  rw [Agree, hrejected, haccepted] at hagree
  cases hagree

end Rload.RequestFile
