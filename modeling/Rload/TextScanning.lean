import Mathlib.Data.List.DropRight
import Mathlib.Data.List.Infix
import Mathlib.Data.Char
import Mathlib.Algebra.GroupWithZero.Nat

/-!
# Scanning bytes and text

The operations of the standard library on byte slices and `str` that a parser of line based
protocols uses: the first window equal to a pattern, UTF-8 validation, splitting, trimming
and reading numbers. Text is a list of characters, its encoding a list of bytes.
-/

namespace Rload.TextScanning

section Search

variable {α : Type*} [DecidableEq α]

/-- `windows(needle.len()).position(|window| window == needle)` for a non-empty pattern. -/
def firstOccurrence (needle : List α) : List α → Option ℕ
  | [] => none
  | x :: xs =>
    if needle.isPrefixOf (x :: xs) then some 0
    else (firstOccurrence needle xs).map (· + 1)

theorem firstOccurrence_zero {needle xs : List α} (hn : needle ≠ [])
    (h : needle <+: xs) : firstOccurrence needle xs = some 0 := by
  cases xs with
  | nil => exact absurd (List.prefix_nil.mp h) hn
  | cons x xs => simp [firstOccurrence, List.isPrefixOf_iff_prefix.mpr h]

theorem firstOccurrence_cons {needle xs : List α} {x : α} (h : ¬ needle <+: x :: xs) :
    firstOccurrence needle (x :: xs) = (firstOccurrence needle xs).map (· + 1) := by
  have hf : needle.isPrefixOf (x :: xs) = false :=
    Bool.eq_false_iff.mpr (mt List.isPrefixOf_iff_prefix.mp h)
  simp [firstOccurrence, hf]

/-- Elements other than the first of the pattern are skipped. -/
theorem firstOccurrence_append_of_not_mem {n : α} {ns l ys : List α} (h : n ∉ l) :
    firstOccurrence (n :: ns) (l ++ ys) =
      (firstOccurrence (n :: ns) ys).map (· + l.length) := by
  induction l with
  | nil => simp
  | cons x l ih =>
    obtain ⟨hx, hl⟩ : n ≠ x ∧ n ∉ l := by simpa using h
    have hnot : ¬ (n :: ns) <+: x :: (l ++ ys) := fun hp => hx (List.cons_prefix_cons.mp hp).1
    rw [List.cons_append, firstOccurrence_cons hnot, ih hl, Option.map_map]
    simp [Function.comp_def, Nat.add_assoc]

theorem firstOccurrence_eq_some_iff {needle : List α} (hn : needle ≠ []) {xs : List α} {i : ℕ} :
    firstOccurrence needle xs = some i ↔
      needle <+: xs.drop i ∧ ∀ j < i, ¬ needle <+: xs.drop j := by
  induction xs generalizing i with
  | nil => simp [firstOccurrence, hn]
  | cons x xs ih =>
    by_cases hp : needle <+: x :: xs
    · rw [firstOccurrence_zero hn hp]
      cases i with
      | zero => simpa using hp
      | succ i =>
        constructor
        · intro hzero
          cases hzero
        · intro hfirst
          exact absurd hp (hfirst.2 0 (Nat.succ_pos i))
    · rw [firstOccurrence_cons hp]
      cases i with
      | zero => simpa using hp
      | succ i =>
        simp only [Option.map_eq_some_iff, Nat.add_right_cancel_iff, exists_eq_right, ih,
          List.drop_succ_cons]
        refine and_congr_right fun _ => ⟨fun h j hj => ?_, fun h j hj => h (j + 1) (by omega)⟩
        cases j with
        | zero => simpa using hp
        | succ j => exact h j (by omega)

theorem firstOccurrence_append {needle xs : List α} (hn : needle ≠ []) {i : ℕ}
    (h : firstOccurrence needle xs = some i) (ys : List α) :
    firstOccurrence needle (xs ++ ys) = some i := by
  rw [firstOccurrence_eq_some_iff hn] at h ⊢
  obtain ⟨hat, hbefore⟩ := h
  have hlen := hat.length_le
  have hpos := List.length_pos_of_ne_nil hn
  rw [List.length_drop] at hlen
  refine ⟨?_, fun j hj hp => hbefore j hj ?_⟩
  · rw [List.drop_append_of_le_length (by omega)]
    exact hat.trans (List.prefix_append _ _)
  · rw [List.drop_append_of_le_length (by omega)] at hp
    exact List.prefix_of_prefix_length_le hp (List.prefix_append _ _)
      (by rw [List.length_drop]; omega)

/-- A pattern is not found before its last element has arrived. -/
theorem firstOccurrence_eq_none_of_short {needle xs ys : List α} (hn : needle ≠ []) {i : ℕ}
    (h : firstOccurrence needle (xs ++ ys) = some i) (hshort : xs.length < i + needle.length) :
    firstOccurrence needle xs = none := by
  cases hx : firstOccurrence needle xs with
  | none => rfl
  | some j =>
    have hij := (firstOccurrence_append hn hx ys).symm.trans h
    obtain rfl := Option.some.inj hij
    have hlen := ((firstOccurrence_eq_some_iff hn).mp hx).1.length_le
    have hpos := List.length_pos_of_ne_nil hn
    rw [List.length_drop] at hlen
    omega

end Search

/-- What a piece between separators has. -/
theorem mem_of_mem_splitOnP {α : Type*} {p : α → Bool} {l piece : List α}
    (h : piece ∈ l.splitOnP p) {a : α}
    (ha : a ∈ piece) : p a = false ∧ a ∈ l := by
  induction l generalizing piece with
  | nil =>
    rw [List.splitOnP_nil, List.mem_singleton] at h
    subst h
    exact absurd ha List.not_mem_nil
  | cons b l ih =>
    rw [List.splitOnP_cons_eq_if_modifyHead] at h
    split at h
    · rcases List.mem_cons.mp h with rfl | h
      · exact absurd ha List.not_mem_nil
      · exact ⟨(ih h ha).1, List.mem_cons_of_mem b (ih h ha).2⟩
    · rename_i hb
      obtain ⟨first, pieces, hl⟩ := List.exists_cons_of_ne_nil (List.splitOnP_ne_nil p l)
      rw [hl] at h ih
      rcases List.mem_cons.mp h with rfl | h
      · rcases List.mem_cons.mp ha with rfl | ha
        · exact ⟨Bool.eq_false_iff.mpr hb, List.mem_cons_self⟩
        · have hfirst := ih List.mem_cons_self ha
          exact ⟨hfirst.1, List.mem_cons_of_mem b hfirst.2⟩
      · have hpiece := ih (List.mem_cons_of_mem first h) ha
        exact ⟨hpiece.1, List.mem_cons_of_mem b hpiece.2⟩

section Utf8

def encodeUtf8 (cs : List Char) : List UInt8 := cs.flatMap String.utf8EncodeChar

/-- `std::str::from_utf8`. -/
def decodeUtf8 (bytes : List UInt8) : Option (List Char) :=
  bytes.toByteArray.utf8Decode?.map Array.toList

@[simp] theorem decodeUtf8_encodeUtf8 (cs : List Char) : decodeUtf8 (encodeUtf8 cs) = some cs := by
  have h : (encodeUtf8 cs).toByteArray = cs.utf8Encode := rfl
  rw [decodeUtf8, h, List.utf8Decode?_utf8Encode]
  rfl

@[simp] theorem encodeUtf8_nil : encodeUtf8 [] = [] := rfl

@[simp] theorem encodeUtf8_append (cs ds : List Char) :
    encodeUtf8 (cs ++ ds) = encodeUtf8 cs ++ encodeUtf8 ds := List.flatMap_append

theorem encodeUtf8_ne_nil {cs : List Char} (h : cs ≠ []) : encodeUtf8 cs ≠ [] := by
  intro hnil
  have hd := decodeUtf8_encodeUtf8 cs
  rw [hnil, ← encodeUtf8_nil, decodeUtf8_encodeUtf8] at hd
  exact h (Option.some.inj hd).symm

/-- Only an ASCII character has an ASCII byte in its encoding. -/
theorem eq_of_mem_utf8EncodeChar {c : Char} {b : UInt8} (hb : b.toNat < 128)
    (h : b ∈ String.utf8EncodeChar c) : c.val.toNat = b.toNat := by
  simp only [String.utf8EncodeChar] at h
  have hlead : ∀ n, 128 ≤ n → n < 256 → b ≠ UInt8.ofNat n := by
    rintro n hn hn' rfl
    rw [UInt8.toNat_ofNat', Nat.mod_eq_of_lt hn'] at hb
    omega
  split at h
  · rw [List.mem_singleton.mp h, UInt8.toNat_ofNat', Nat.mod_eq_of_lt (by omega)]
  · exfalso
    split_ifs at h
    · rcases List.mem_pair.mp h with h | h <;> exact hlead _ (by omega) (by omega) h
    · rcases List.mem_cons.mp h with h | h
      · exact hlead _ (by omega) (by omega) h
      · rcases List.mem_pair.mp h with h | h <;> exact hlead _ (by omega) (by omega) h
    · rcases List.mem_cons.mp h with h | h
      · exact hlead _ (by omega) (by omega) h
      · rcases List.mem_cons.mp h with h | h
        · exact hlead _ (by omega) (by omega) h
        · rcases List.mem_pair.mp h with h | h <;> exact hlead _ (by omega) (by omega) h

theorem not_mem_encodeUtf8 {cs : List Char} {a : Char} {b : UInt8} (hb : b.toNat < 128)
    (hab : a.val.toNat = b.toNat) (h : a ∉ cs) : b ∉ encodeUtf8 cs := by
  intro hmem
  obtain ⟨c, hc, hbc⟩ := List.mem_flatMap.mp hmem
  have hca := eq_of_mem_utf8EncodeChar hb hbc
  have : c = a := Char.ext (UInt32.toNat_inj.mp (hca.trans hab.symm))
  exact h (this ▸ hc)

theorem encodeUtf8_injective {cs ds : List Char} (h : encodeUtf8 cs = encodeUtf8 ds) : cs = ds := by
  have hdecode := congrArg decodeUtf8 h
  rw [decodeUtf8_encodeUtf8, decodeUtf8_encodeUtf8] at hdecode
  exact Option.some.inj hdecode

theorem utf8EncodeChar_ascii {c : Char} (hc : c.toNat < 128) :
    String.utf8EncodeChar c = [UInt8.ofNat c.toNat] := by
  have hle : c.val.toNat ≤ 127 := Nat.le_of_lt_succ hc
  simp only [String.utf8EncodeChar, if_pos hle]
  rfl

theorem encodeUtf8_ascii {cs : List Char} (h : ∀ c ∈ cs, c.toNat < 128) :
    encodeUtf8 cs = cs.map fun c => UInt8.ofNat c.toNat := by
  induction cs with
  | nil => rfl
  | cons c cs ih =>
    rw [List.forall_mem_cons] at h
    rw [encodeUtf8, List.flatMap_cons, utf8EncodeChar_ascii h.1, List.map_cons, ← ih h.2]
    rfl

theorem length_encodeUtf8 {cs : List Char} (h : ∀ c ∈ cs, c.toNat < 128) :
    (encodeUtf8 cs).length = cs.length := by
  rw [encodeUtf8_ascii h, List.length_map]

theorem encodeUtf8_of_decodeUtf8 {bytes : List UInt8} {cs : List Char}
    (h : decodeUtf8 bytes = some cs) : encodeUtf8 cs = bytes := by
  obtain ⟨chars, hchars, -⟩ := Option.map_eq_some_iff.mp h
  have hvalid : bytes.toByteArray.IsValidUTF8 := by
    rw [← ByteArray.isSome_utf8Decode?_iff, hchars]
    rfl
  obtain ⟨text, htext⟩ := hvalid
  obtain rfl : bytes = encodeUtf8 text := List.toByteArray_inj.mp htext
  rw [decodeUtf8_encodeUtf8] at h
  cases h
  rfl

/-- What follows a text in the encoding of a text is the encoding of a text. -/
theorem exists_of_encodeUtf8_append {text cs : List Char} {bytes : List UInt8}
    (h : encodeUtf8 cs = encodeUtf8 text ++ bytes) :
    ∃ rest, cs = text ++ rest ∧ encodeUtf8 rest = bytes := by
  have hvalid : bytes.toByteArray.IsValidUTF8 := by
    have hall : (encodeUtf8 text ++ bytes).toByteArray.IsValidUTF8 := ⟨cs, by rw [← h]; rfl⟩
    clear h
    induction text with
    | nil => exact hall
    | cons c text ih =>
      apply ih
      apply ByteArray.isValidUTF8_utf8Encode_singleton_append_iff (c := c).mp
      have hfirst : [c].utf8Encode ++ (encodeUtf8 text ++ bytes).toByteArray =
          (encodeUtf8 (c :: text) ++ bytes).toByteArray := by
        change (encodeUtf8 [c]).toByteArray ++ _ = _
        rw [← List.toByteArray_append, ← List.append_assoc, ← encodeUtf8_append]
        rfl
      rwa [hfirst]
  obtain ⟨rest, hrest⟩ := hvalid
  obtain rfl : bytes = encodeUtf8 rest := List.toByteArray_inj.mp hrest
  exact ⟨rest, encodeUtf8_injective (by rw [h, encodeUtf8_append]), rfl⟩

/-- The first bytes of a text are no text where they end inside a character. -/
theorem decodeUtf8_take_eq_none_iff {text : List Char} {k : ℕ}
    (hk : k ≤ (encodeUtf8 text).length) :
    decodeUtf8 ((encodeUtf8 text).take k) = none ↔
      ∀ first last, text = first ++ last → (encodeUtf8 first).length ≠ k := by
  constructor
  · rintro h first last rfl rfl
    rw [encodeUtf8_append, List.take_left, decodeUtf8_encodeUtf8] at h
    cases h
  · intro h
    cases hdecode : decodeUtf8 ((encodeUtf8 text).take k) with
    | none => rfl
    | some first =>
      exfalso
      have hfirst := encodeUtf8_of_decodeUtf8 hdecode
      have hsplit : encodeUtf8 text = encodeUtf8 first ++ (encodeUtf8 text).drop k := by
        rw [hfirst, List.take_append_drop]
      obtain ⟨last, htext, -⟩ := exists_of_encodeUtf8_append hsplit
      apply h first last htext
      rw [hfirst, List.length_take, Nat.min_eq_left hk]

theorem decodeUtf8_drop {text first : List Char} {k : ℕ}
    (h : decodeUtf8 ((encodeUtf8 text).take k) = some first) :
    ∃ last, decodeUtf8 ((encodeUtf8 text).drop k) = some last := by
  have hsplit : encodeUtf8 text = encodeUtf8 first ++ (encodeUtf8 text).drop k := by
    rw [encodeUtf8_of_decodeUtf8 h, List.take_append_drop]
  obtain ⟨last, -, hlast⟩ := exists_of_encodeUtf8_append hsplit
  exact ⟨last, by rw [← hlast, decodeUtf8_encodeUtf8]⟩

end Utf8

section Text

/-- `char::is_whitespace`, the Unicode property White_Space. -/
def isWhitespace (c : Char) : Bool :=
  let v := c.toNat
  (9 ≤ v && v ≤ 13) || v = 0x20 || v = 0x85 || v = 0xA0 || v = 0x1680 ||
    (0x2000 ≤ v && v ≤ 0x200A) || v = 0x2028 || v = 0x2029 || v = 0x202F || v = 0x205F ||
    v = 0x3000

def splitWhitespace (cs : List Char) : List (List Char) :=
  (cs.splitOnP isWhitespace).filter (· ≠ [])

def trim (cs : List Char) : List Char :=
  (cs.dropWhile isWhitespace).rdropWhile isWhitespace

/-- `split_once` at a character. -/
def splitOnce (sep : Char) (cs : List Char) : Option (List Char × List Char) :=
  match cs.dropWhile (· ≠ sep) with
  | [] => none
  | _ :: rest => some (cs.takeWhile (· ≠ sep), rest)

/-- `rsplit_once` at a character. -/
def rsplitOnce (sep : Char) (cs : List Char) : Option (List Char × List Char) :=
  (splitOnce sep cs.reverse).map fun (after, before) => (before.reverse, after.reverse)

/-- `strip_prefix`. -/
def stripPrefix (first cs : List Char) : Option (List Char) :=
  if first.isPrefixOf cs then some (cs.drop first.length) else none

def eqIgnoreAsciiCase (a b : List Char) : Bool := a.map Char.toLower = b.map Char.toLower

/-- `str::split` at each CRLF. -/
def splitCrlf : List Char → List (List Char)
  | [] => [[]]
  | '\r' :: '\n' :: cs => [] :: splitCrlf cs
  | c :: cs => (splitCrlf cs).modifyHead (c :: ·)

/-- `char::to_digit`. -/
def digitValue (radix : ℕ) (c : Char) : Option ℕ :=
  let v := c.toNat
  let d := if 48 ≤ v ∧ v ≤ 57 then v - 48
    else if 97 ≤ v ∧ v ≤ 122 then v - 87
    else if 65 ≤ v ∧ v ≤ 90 then v - 55
    else radix
  if d < radix then some d else none

/-- The number that a non-empty string of digits denotes. -/
def numeral (radix : ℕ) (cs : List Char) : Option ℕ :=
  if cs = [] then none
  else (cs.mapM (digitValue radix)).map (List.foldl (fun n d => n * radix + d) 0)

def stripPlus : List Char → List Char
  | '+' :: cs => cs
  | cs => cs

/-- `from_str_radix` of an unsigned type that holds the numbers below `limit`: an optional
plus sign, digits, and an error on overflow. -/
def parseUnsigned (radix limit : ℕ) (cs : List Char) : Option ℕ :=
  (numeral radix (stripPlus cs)).filter (· < limit)

/-- `from_str` of a signed type that holds the numbers from `-limit` on and below `limit`. -/
def parseSigned (limit : ℕ) : List Char → Option ℤ
  | '-' :: cs => ((numeral 10 cs).filter (· ≤ limit)).map fun n => -(n : ℤ)
  | cs => (parseUnsigned 10 limit cs).map fun n => (n : ℤ)

theorem dropWhile_append_of_all {p : Char → Bool} {l r : List Char} (h : ∀ c ∈ l, p c) :
    (l ++ r).dropWhile p = r.dropWhile p := by
  rw [List.dropWhile_append]
  simp [List.dropWhile_eq_nil_iff.mpr h]

theorem rdropWhile_append_of_all {p : Char → Bool} {l r : List Char} (h : ∀ c ∈ r, p c) :
    (l ++ r).rdropWhile p = l.rdropWhile p := by
  rw [List.rdropWhile, List.reverse_append,
    dropWhile_append_of_all fun c hc => h c (List.mem_reverse.mp hc), List.rdropWhile]

theorem rdropWhile_of_none {p : Char → Bool} {l : List Char} (h : ∀ c ∈ l, ¬ p c) :
    l.rdropWhile p = l := by
  rcases List.eq_nil_or_concat l with rfl | ⟨init, c, rfl⟩
  · rfl
  · rw [List.concat_eq_append] at h ⊢
    exact List.rdropWhile_concat_neg p init c (h c (by simp))

/-- Trimming takes exactly the white space around a word off. -/
theorem trim_word {l m r : List Char} (hl : ∀ c ∈ l, isWhitespace c)
    (hm : ∀ c ∈ m, ¬ isWhitespace c) (hr : ∀ c ∈ r, isWhitespace c) :
    trim (l ++ m ++ r) = m := by
  rw [trim, List.append_assoc, dropWhile_append_of_all hl]
  cases m with
  | nil =>
    have : r.dropWhile isWhitespace = [] := List.dropWhile_eq_nil_iff.mpr hr
    simp [this, List.rdropWhile]
  | cons c m =>
    have hdrop : (c :: m ++ r).dropWhile isWhitespace = c :: m ++ r := by
      rw [List.cons_append, List.dropWhile_cons_of_neg (hm c (by simp))]
    rw [hdrop, rdropWhile_append_of_all hr, rdropWhile_of_none hm]

theorem splitOnce_append {sep : Char} {a b : List Char} (h : sep ∉ a) :
    splitOnce sep (a ++ sep :: b) = some (a, b) := by
  have ha : ∀ c ∈ a, decide (c ≠ sep) = true := fun c hc =>
    decide_eq_true (ne_of_mem_of_not_mem hc h)
  have htake : (a ++ sep :: b).takeWhile (· ≠ sep) = a := by
    rw [List.takeWhile_append_of_pos ha, List.takeWhile_cons_of_neg (by simp), List.append_nil]
  have hdrop : (a ++ sep :: b).dropWhile (· ≠ sep) = sep :: b := by
    rw [dropWhile_append_of_all ha, List.dropWhile_cons_of_neg (by simp)]
  simp only [splitOnce, htake, hdrop]

theorem splitOnce_eq_some {sep : Char} {cs a b : List Char} (h : splitOnce sep cs = some (a, b)) :
    cs = a ++ sep :: b ∧ sep ∉ a := by
  rw [splitOnce] at h
  cases hdrop : cs.dropWhile (· ≠ sep) with
  | nil => simp only [hdrop, reduceCtorEq] at h
  | cons c rest =>
    simp only [hdrop, Option.some.injEq, Prod.mk.injEq] at h
    obtain ⟨rfl, rfl⟩ := h
    have hne : cs.dropWhile (· ≠ sep) ≠ [] := by
      rw [hdrop]
      exact List.cons_ne_nil c rest
    have hc : c = sep := by
      have hhead := List.head_dropWhile_not (fun x => decide (x ≠ sep)) hne
      simpa only [hdrop, List.head_cons, decide_eq_false_iff_not, not_not] using hhead
    have happend : cs.takeWhile (· ≠ sep) ++ cs.dropWhile (· ≠ sep) = cs :=
      List.takeWhile_append_dropWhile
    rw [hdrop, hc] at happend
    refine ⟨happend.symm, fun hmem => ?_⟩
    have hsep := List.mem_takeWhile_imp hmem
    rw [decide_eq_true_eq] at hsep
    exact hsep rfl

theorem rsplitOnce_append {sep : Char} {a b : List Char} (h : sep ∉ b) :
    rsplitOnce sep (a ++ sep :: b) = some (a, b) := by
  have hreverse : (a ++ sep :: b).reverse = b.reverse ++ sep :: a.reverse := by simp
  rw [rsplitOnce, hreverse, splitOnce_append (by simpa using h)]
  simp

theorem splitOnce_eq_none {sep : Char} {cs : List Char} (h : sep ∉ cs) :
    splitOnce sep cs = none := by
  have hdrop : cs.dropWhile (· ≠ sep) = [] :=
    List.dropWhile_eq_nil_iff.mpr fun c hc => decide_eq_true (ne_of_mem_of_not_mem hc h)
  rw [splitOnce, hdrop]

theorem not_mem_of_splitOnce {sep : Char} {cs : List Char} (h : splitOnce sep cs = none) :
    sep ∉ cs := by
  intro hmem
  rw [splitOnce] at h
  cases hdrop : cs.dropWhile (· ≠ sep) with
  | nil =>
    have hne := List.dropWhile_eq_nil_iff.mp hdrop sep hmem
    simp at hne
  | cons c rest => simp only [hdrop, reduceCtorEq] at h

theorem not_mem_of_rsplitOnce {sep : Char} {cs : List Char} (h : rsplitOnce sep cs = none) :
    sep ∉ cs := by
  have hreverse := not_mem_of_splitOnce (Option.map_eq_none_iff.mp h)
  rwa [List.mem_reverse] at hreverse

theorem splitOn_three {sep : Char} {a b c : List Char} (ha : sep ∉ a) (hb : sep ∉ b)
    (hc : sep ∉ c) : (a ++ sep :: b ++ sep :: c).splitOn sep = [a, b, c] := by
  rw [List.append_assoc, List.cons_append, List.splitOn_append_cons_self_of_not_mem ha,
    List.splitOn_append_cons_self_of_not_mem hb, List.splitOn_eq_singleton hc]

theorem rsplitOnce_eq_some {sep : Char} {cs a b : List Char}
    (h : rsplitOnce sep cs = some (a, b)) : cs = a ++ sep :: b := by
  obtain ⟨⟨after, before⟩, hsplit, heq⟩ := Option.map_eq_some_iff.mp h
  obtain ⟨rfl, rfl⟩ := Prod.mk.inj heq
  rw [← List.reverse_reverse cs, (splitOnce_eq_some hsplit).1]
  simp

theorem rsplitOnce_not_mem {sep : Char} {cs a b : List Char}
    (h : rsplitOnce sep cs = some (a, b)) : sep ∉ b := by
  obtain ⟨⟨after, before⟩, hsplit, heq⟩ := Option.map_eq_some_iff.mp h
  obtain ⟨rfl, rfl⟩ := Prod.mk.inj heq
  simpa using (splitOnce_eq_some hsplit).2

theorem eq_of_splitOn_three {sep : Char} {cs a b c : List Char}
    (h : cs.splitOn sep = [a, b, c]) : cs = a ++ sep :: b ++ sep :: c := by
  have hcs : [sep].intercalate (cs.splitOn sep) = cs := List.intercalate_splitOn sep
  rw [h] at hcs
  rw [← hcs]
  simp [List.intercalate]

/-- What is before the separator, or all of the text. -/
theorem splitOnce_fst (sep : Char) (cs : List Char) :
    ((splitOnce sep cs).map Prod.fst).getD cs = cs.takeWhile (· ≠ sep) := by
  cases hdrop : cs.dropWhile (· ≠ sep) with
  | nil =>
    have happend : cs.takeWhile (· ≠ sep) ++ cs.dropWhile (· ≠ sep) = cs :=
      List.takeWhile_append_dropWhile
    rw [hdrop, List.append_nil] at happend
    simp only [splitOnce, hdrop, Option.map_none, Option.getD_none, happend]
  | cons c rest =>
    simp only [splitOnce, hdrop, Option.map_some, Option.getD_some]

theorem stripPrefix_eq_some {first cs rest : List Char} (h : stripPrefix first cs = some rest) :
    cs = first ++ rest := by
  unfold stripPrefix at h
  split at h
  · rename_i hinitial
    cases h
    exact List.prefix_append_drop (List.isPrefixOf_iff_prefix.mp hinitial)
  · cases h

/-- The words of a text are not empty and have no white space. -/
theorem word_of_mem_splitWhitespace {cs word : List Char} (h : word ∈ splitWhitespace cs) :
    word ≠ [] ∧ ∀ c ∈ word, isWhitespace c = false := by
  obtain ⟨hmem, hne⟩ := List.mem_filter.mp h
  exact ⟨by simpa using hne, fun c hc => (mem_of_mem_splitOnP hmem hc).1⟩

theorem splitCrlf_cons {c : Char} (hc : c ≠ '\r') (cs : List Char) :
    splitCrlf (c :: cs) = (splitCrlf cs).modifyHead (c :: ·) := by
  rw [splitCrlf]
  exact fun _ h => absurd h hc

theorem splitCrlf_line {l : List Char} (h : '\r' ∉ l) : splitCrlf l = [l] := by
  induction l with
  | nil => rfl
  | cons c l ih =>
    obtain ⟨hc, hl⟩ : '\r' ≠ c ∧ '\r' ∉ l := by simpa using h
    rw [splitCrlf_cons hc.symm, ih hl]
    rfl

theorem splitCrlf_append {l : List Char} (h : '\r' ∉ l) (cs : List Char) :
    splitCrlf (l ++ '\r' :: '\n' :: cs) = l :: splitCrlf cs := by
  induction l with
  | nil => rfl
  | cons c l ih =>
    obtain ⟨hc, hl⟩ : '\r' ≠ c ∧ '\r' ∉ l := by simpa using h
    rw [List.cons_append, splitCrlf_cons hc.symm, ih hl]
    rfl

theorem digit_of_mem_numeral {radix : ℕ} {cs : List Char} {n : ℕ}
    (h : numeral radix cs = some n) {c : Char} (hc : c ∈ cs) :
    ∃ d, digitValue radix c = some d := by
  unfold numeral at h
  split at h
  · cases h
  · obtain ⟨ds, hds, -⟩ := Option.map_eq_some_iff.mp h
    clear h
    induction cs generalizing ds with
    | nil => cases hc
    | cons b cs ih =>
      rw [List.mapM_cons] at hds
      cases hb : digitValue radix b with
      | none => simp [hb] at hds
      | some d =>
        cases ht : cs.mapM (digitValue radix) with
        | none => simp [hb, ht] at hds
        | some es =>
          rcases List.mem_cons.mp hc with rfl | hc
          · exact ⟨d, hb⟩
          · exact ih hc (List.ne_nil_of_mem hc) es ht

theorem mem_stripPlus {c : Char} (hplus : c ≠ '+') {text : List Char} (h : c ∈ text) :
    c ∈ stripPlus text := by
  unfold stripPlus
  split
  · exact (List.mem_cons.mp h).resolve_left hplus
  · exact h

theorem parseUnsigned_of_numeral {radix limit : ℕ} {cs : List Char} {n : ℕ}
    (h : numeral radix cs = some n) (hn : n < limit) : parseUnsigned radix limit cs = some n := by
  have hplus : stripPlus cs = cs := by
    unfold stripPlus
    split
    · obtain ⟨d, hd⟩ := digit_of_mem_numeral h List.mem_cons_self
      have hv : ('+' : Char).toNat = 43 := rfl
      simp [digitValue, hv] at hd
    · rfl
  rw [parseUnsigned, hplus, h]
  simp [hn]

theorem digitValue_lt {radix : ℕ} {c : Char} {d : ℕ} (h : digitValue radix c = some d) :
    d < radix := by
  obtain ⟨hlt, hd⟩ := Option.ite_none_right_eq_some.mp h
  exact Option.some.inj hd ▸ hlt

theorem numeral_not_mem {radix : ℕ} {cs : List Char} {n : ℕ} (h : numeral radix cs = some n)
    {c : Char} (hc : digitValue radix c = none) : c ∉ cs := by
  intro hmem
  obtain ⟨d, hd⟩ := digit_of_mem_numeral h hmem
  rw [hc] at hd
  cases hd

theorem numeral_ne_nil {radix : ℕ} {cs : List Char} {n : ℕ} (h : numeral radix cs = some n) :
    cs ≠ [] := by
  rintro rfl
  simp [numeral] at h

theorem foldl_digits_lt {radix : ℕ} (ds : List ℕ) (h : ∀ d ∈ ds, d < radix) (n k : ℕ)
    (hn : n < radix ^ k) :
    ds.foldl (fun n d => n * radix + d) n < radix ^ (k + ds.length) := by
  induction ds generalizing n k with
  | nil => simpa using hn
  | cons d ds ih =>
    have hd := h d (by simp)
    have hstep : n * radix + d < radix ^ (k + 1) := by
      calc n * radix + d < n * radix + radix := by omega
        _ = (n + 1) * radix := by rw [Nat.succ_mul]
        _ ≤ radix ^ k * radix := Nat.mul_le_mul_right _ hn
        _ = radix ^ (k + 1) := (Nat.pow_succ ..).symm
    have := ih (fun x hx => h x (List.mem_cons_of_mem _ hx)) _ _ hstep
    simpa [Nat.add_assoc, Nat.add_comm, Nat.add_left_comm] using this

theorem numeral_lt {radix : ℕ} {cs : List Char} {n : ℕ} (h : numeral radix cs = some n) :
    n < radix ^ cs.length := by
  unfold numeral at h
  split at h
  · cases h
  · obtain ⟨ds, hds, rfl⟩ := Option.map_eq_some_iff.mp h
    obtain ⟨hlen, hlt⟩ : ds.length = cs.length ∧ ∀ d ∈ ds, d < radix := by
      clear h
      induction cs generalizing ds with
      | nil => simp_all
      | cons c cs ih =>
        rw [List.mapM_cons] at hds
        cases hc : digitValue radix c with
        | none => simp [hc] at hds
        | some d =>
          cases ht : cs.mapM (digitValue radix) with
          | none => simp [hc, ht] at hds
          | some es =>
            obtain rfl : d :: es = ds := by simpa [hc, ht] using hds
            have hd := digitValue_lt hc
            by_cases hcs : cs = []
            · subst hcs
              obtain rfl : es = [] := by simpa using ht.symm
              simpa using hd
            · obtain ⟨hl, hes⟩ := ih hcs es ht
              exact ⟨by simp [hl], by simpa using ⟨hd, hes⟩⟩
    rw [← hlen]
    simpa using foldl_digits_lt ds hlt 0 0 (by simp)

end Text

end Rload.TextScanning
