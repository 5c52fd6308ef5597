import Mathlib.Data.List.Basic

/-!
# JSON documents

A document as it is written, with all members of its objects in their order, and the value that a
reader makes of it, whose objects keep the last member of each key. Maps are ordered by their
keys, as texts compare.
-/

namespace Rload.JsonDocuments

/-- A document. A string is the text that it denotes, or `none` where it has half of a surrogate
pair. -/
inductive Json where
  | null
  | bool (b : Bool)
  | number (text : List Char)
  | string (text : Option (List Char))
  | array (items : List Json)
  | object (members : List (Option (List Char) × Json))

/-- A value. The map of an object has the last member of each key. -/
inductive Value where
  | null
  | bool (b : Bool)
  | number (text : List Char)
  | string (text : List Char)
  | array (items : List Value)
  | object (members : List (List Char × Value))

section LastValues

variable {κ α β γ : Type}

/-- A member with what `f` makes of its value. -/
def member (f : α → Option β) (p : κ × α) : Option (κ × β) := (f p.2).map fun b => (p.1, b)

/-- The members whose values `f` takes, with what it makes of them. -/
def keepMembers (f : α → Option β) (l : List (κ × α)) : List (κ × β) := l.filterMap (member f)

/-- Members with the same keys, and with values of which the same is made. -/
def Alike (f : α → Option γ) (g : β → Option γ) (p : κ × α) (q : κ × β) : Prop :=
  p.1 = q.1 ∧ f p.2 = g q.2

theorem keepMembers_alike {f : α → Option γ} {g : β → Option γ} {l : List (κ × α)}
    {l' : List (κ × β)} (h : List.Forall₂ (Alike f g) l l') :
    keepMembers f l = keepMembers g l' := by
  induction h with
  | nil => rfl
  | @cons p q l l' hpq hrest ih =>
    have hmember : member f p = member g q := by
      rw [member, member, hpq.1, hpq.2]
    rw [keepMembers, keepMembers] at ih ⊢
    rw [List.filterMap_cons, List.filterMap_cons, hmember, ih]

variable [DecidableEq κ]

/-- The last value of a key. -/
def lastValue (key : κ) : List (κ × α) → Option α
  | [] => none
  | (k, a) :: l => (lastValue key l).or (if k = key then some a else none)

theorem lastValue_isSome {l : List (κ × α)} {p : κ × α} (h : p ∈ l) :
    (lastValue p.1 l).isSome = true := by
  induction l with
  | nil => exact absurd h List.not_mem_nil
  | cons q l ih =>
    rw [lastValue, Option.isSome_or, Bool.or_eq_true]
    rcases List.mem_cons.mp h with rfl | h
    · exact Or.inr (by rw [if_pos rfl]; rfl)
    · exact Or.inl (ih h)

theorem mem_of_lastValue {key : κ} {l : List (κ × α)} {a : α} (h : lastValue key l = some a) :
    (key, a) ∈ l := by
  induction l with
  | nil => cases h
  | cons q l ih =>
    rw [lastValue, Option.or_eq_some_iff] at h
    rcases h with h | ⟨-, h⟩
    · exact List.mem_cons_of_mem q (ih h)
    · rw [Option.ite_none_right_eq_some] at h
      obtain ⟨hk, ha⟩ := h
      have heq : q = (key, a) := Prod.ext hk (Option.some.inj ha)
      exact heq ▸ List.mem_cons_self

/-- `f` takes the last value of each key. -/
def TakesLast (f : α → Option β) (l : List (κ × α)) : Prop :=
  ∀ p ∈ l, ((lastValue p.1 l).bind f).isSome = true

instance (f : α → Option β) (l : List (κ × α)) : Decidable (TakesLast f l) :=
  inferInstanceAs (Decidable (∀ p ∈ l, ((lastValue p.1 l).bind f).isSome = true))

theorem TakesLast.of_cons {f : α → Option β} {q : κ × α} {l : List (κ × α)}
    (h : TakesLast f (q :: l)) : TakesLast f l := by
  intro p hp
  have hlast := h p (List.mem_cons_of_mem q hp)
  rw [lastValue, Option.or_of_isSome (lastValue_isSome hp)] at hlast
  exact hlast

theorem takesLast_iff {f : α → Option β} {l : List (κ × α)} :
    TakesLast f l ↔ ∀ key o, (lastValue key l).map f = some o → o.isSome = true := by
  constructor
  · intro h key o ho
    obtain ⟨a, ha, rfl⟩ := Option.map_eq_some_iff.mp ho
    have hlast := h (key, a) (mem_of_lastValue ha)
    rwa [ha] at hlast
  · intro h p hp
    obtain ⟨a, ha⟩ := Option.isSome_iff_exists.mp (lastValue_isSome hp)
    rw [ha]
    exact h p.1 (f a) (by rw [ha]; rfl)

theorem lastValue_alike {f : α → Option γ} {g : β → Option γ} {l : List (κ × α)}
    {l' : List (κ × β)} (h : List.Forall₂ (Alike f g) l l') (key : κ) :
    (lastValue key l).map f = (lastValue key l').map g := by
  induction h with
  | nil => rfl
  | @cons p q l l' hpq hrest ih =>
    rw [lastValue, lastValue, Option.map_or, Option.map_or, ih, hpq.1]
    congr 1
    split
    · exact congrArg some hpq.2
    · rfl

/-- Where `f` takes the last values, it may be applied before or after they are found. -/
theorem lastValue_keepMembers {f : α → Option β} {l : List (κ × α)} (h : TakesLast f l)
    (key : κ) : lastValue key (keepMembers f l) = (lastValue key l).bind f := by
  induction l with
  | nil => rfl
  | cons q l ih =>
    obtain ⟨k, a⟩ := q
    have ih := ih h.of_cons
    have hcons : keepMembers f ((k, a) :: l) =
        ((f a).map fun b => (k, b)).toList ++ keepMembers f l := by
      rw [keepMembers, List.filterMap_cons, member]
      cases f a <;> rfl
    rw [hcons, lastValue]
    cases hlast : lastValue key l with
    | none =>
      rw [hlast] at ih
      cases hf : f a with
      | none =>
        rw [Option.map_none, Option.toList_none, List.nil_append, ih]
        by_cases hk : k = key
        · rw [if_pos hk]
          exact hf.symm
        · rw [if_neg hk]
          rfl
      | some b =>
        rw [Option.map_some, Option.toList_some, List.singleton_append, lastValue, ih]
        by_cases hk : k = key
        · rw [if_pos hk, if_pos hk]
          exact hf.symm
        · rw [if_neg hk, if_neg hk]
          rfl
    | some v =>
      have hv : (f v).isSome = true := by
        have hmem := h (key, v) (List.mem_cons_of_mem _ (mem_of_lastValue hlast))
        rwa [lastValue, hlast] at hmem
      rw [hlast] at ih
      obtain ⟨w, hw⟩ := Option.isSome_iff_exists.mp hv
      have ih : lastValue key (keepMembers f l) = some w := ih.trans hw
      have hright : ((some v).or (if k = key then some a else none)).bind f = some w := hw
      rw [hright]
      cases hf : f a with
      | none => exact ih
      | some b =>
        rw [Option.map_some, Option.toList_some, List.singleton_append, lastValue, ih]
        rfl

end LastValues

/-- A map from texts that iterates in their order. -/
abbrev TextMap (α : Type) : Type := Std.ExtTreeMap (List Char) α compare

namespace TextMap

variable {α β : Type}

/-- The members inserted one after the other. -/
def collect (members : List (List Char × α)) : TextMap α := .ofList members compare

theorem getElem?_collect (members : List (List Char × α)) (key : List Char) :
    (collect members)[key]? = lastValue key members := by
  have hfold : ∀ (l : List (List Char × α)) (m : TextMap α),
      (l.foldl (fun m p => m.insert p.1 p.2) m)[key]? = (lastValue key l).or m[key]? := by
    intro l
    induction l with
    | nil => exact fun m => rfl
    | cons p l ih =>
      intro m
      rw [List.foldl_cons, ih, lastValue, Option.or_assoc, Std.ExtTreeMap.getElem?_insert]
      by_cases hk : p.1 = key
      · rw [if_pos hk, if_pos (Std.LawfulEqCmp.compare_eq_iff_eq.mpr hk)]
        rfl
      · rw [if_neg hk, if_neg fun h => hk (Std.LawfulEqCmp.compare_eq_iff_eq.mp h)]
        rfl
  rw [collect, Std.ExtTreeMap.ofList_eq_foldl, hfold, Std.ExtTreeMap.getElem?_empty,
    Option.or_none]

theorem lastValue_toList (m : TextMap α) (key : List Char) : lastValue key m.toList = m[key]? := by
  apply Option.ext
  intro a
  rw [← Std.ExtTreeMap.mem_toList_iff_getElem?_eq_some]
  constructor
  · exact mem_of_lastValue
  · intro hmem
    obtain ⟨b, hb⟩ := Option.isSome_iff_exists.mp (lastValue_isSome hmem)
    have hmem' := mem_of_lastValue hb
    rw [Std.ExtTreeMap.mem_toList_iff_getElem?_eq_some] at hmem hmem'
    rw [hb, ← hmem, ← hmem']

/-- The map of what `f` makes of the last values, if it takes all of them. -/
def mapLast (f : α → Option β) (members : List (List Char × α)) : Option (TextMap β) :=
  if TakesLast f members then some (collect (keepMembers f members)) else none

end TextMap

theorem mapM_eq_ite {α β : Type} (f : α → Option β) (l : List α) :
    l.mapM f = if ∀ a ∈ l, (f a).isSome = true then some (l.filterMap f) else none := by
  induction l with
  | nil => rfl
  | cons a l ih =>
    rw [List.mapM_cons, ih]
    cases hf : f a with
    | none =>
      have hnot : ¬ ∀ b ∈ a :: l, (f b).isSome = true := by
        intro h
        have hsome := h a List.mem_cons_self
        rw [hf] at hsome
        cases hsome
      rw [if_neg hnot]
      rfl
    | some b =>
      by_cases h : ∀ b ∈ l, (f b).isSome = true
      · have hall : ∀ b ∈ a :: l, (f b).isSome = true :=
          List.forall_mem_cons.mpr ⟨Option.isSome_of_eq_some hf, h⟩
        rw [if_pos h, if_pos hall, List.filterMap_cons, hf]
        rfl
      · rw [if_neg h, if_neg fun hall => h (List.forall_mem_cons.mp hall).2]
        rfl

namespace TextMap

variable {α β : Type}

theorem mapLast_alike {γ : Type} {f : α → Option γ} {g : β → Option γ}
    {l : List (List Char × α)} {l' : List (List Char × β)} (h : List.Forall₂ (Alike f g) l l') :
    mapLast f l = mapLast g l' := by
  have htakes : TakesLast f l ↔ TakesLast g l' := by
    rw [takesLast_iff, takesLast_iff]
    refine forall_congr' fun key => ?_
    rw [lastValue_alike h key]
  rw [mapLast, mapLast, keepMembers_alike h]
  exact if_congr htakes rfl rfl

theorem takesLast_toList (f : α → Option β) (members : List (List Char × α)) :
    TakesLast f (collect members).toList ↔ TakesLast f members := by
  have hlast : ∀ key, lastValue key (collect members).toList = lastValue key members := by
    intro key
    rw [lastValue_toList, getElem?_collect]
  constructor
  · intro h p hp
    obtain ⟨a, ha⟩ := Option.isSome_iff_exists.mp (lastValue_isSome hp)
    have hmem := mem_of_lastValue ((hlast p.1).trans ha)
    exact hlast p.1 ▸ h (p.1, a) hmem
  · intro h p hp
    obtain ⟨a, ha⟩ := Option.isSome_iff_exists.mp (lastValue_isSome hp)
    rw [hlast] at ha ⊢
    exact h (p.1, a) (mem_of_lastValue ha)

/-- Reading the members of a map is reading the last values of what was collected into it. -/
theorem mapM_collect (f : α → Option β) (members : List (List Char × α)) :
    ((collect members).toList.mapM (member f)).map collect = mapLast f members := by
  have hiff : (∀ p ∈ (collect members).toList, (member f p).isSome = true) ↔
      TakesLast f members := by
    rw [← takesLast_toList]
    refine forall₂_congr fun p hp => ?_
    have hp' : (collect members)[p.1]? = some p.2 :=
      Std.ExtTreeMap.mem_toList_iff_getElem?_eq_some.mp hp
    rw [lastValue_toList, hp', member, Option.isSome_map, Option.bind_some]
  rw [mapM_eq_ite, mapLast]
  by_cases h : TakesLast f members
  · rw [if_pos (hiff.mpr h), if_pos h, Option.map_some]
    congr 1
    apply Std.ExtTreeMap.ext_getElem?
    intro key
    have hkeep := lastValue_keepMembers ((takesLast_toList f members).mpr h) key
    rw [lastValue_toList, getElem?_collect] at hkeep
    rw [getElem?_collect, getElem?_collect, lastValue_keepMembers h]
    exact hkeep
  · rw [if_neg fun hall => h (hiff.mp hall), if_neg h]
    rfl

end TextMap

def Json.text? : Json → Option (List Char)
  | .string text => text
  | _ => none

def Value.text? : Value → Option (List Char)
  | .string text => some text
  | _ => none

def Json.isNull : Json → Bool
  | .null => true
  | _ => false

def Value.isNull : Value → Bool
  | .null => true
  | _ => false

section Values

variable (inRange : List Char → Bool)

mutual

/-- The value of a document whose arrays and objects stand inside each other at most `depth` deep,
whose strings are texts and whose numbers are in the range of floating point. -/
def toValue (depth : ℕ) : Json → Option Value
  | .null => some .null
  | .bool b => some (.bool b)
  | .number text => if inRange text then some (.number text) else none
  | .string text => text.map .string
  | .array items =>
    match depth with
    | 0 => none
    | depth + 1 => (toValues depth items).map .array
  | .object members =>
    match depth with
    | 0 => none
    | depth + 1 => (toMembers depth members).map .object

def toValues (depth : ℕ) : List Json → Option (List Value)
  | [] => some []
  | item :: items =>
    (toValue depth item).bind fun value => (toValues depth items).map (value :: ·)

def toMembers (depth : ℕ) : List (Option (List Char) × Json) → Option (List (List Char × Value))
  | [] => some []
  | (key, item) :: members =>
    key.bind fun key => (toValue depth item).bind fun value =>
      (toMembers depth members).map ((key, value) :: ·)

end

end Values

variable {inRange : List Char → Bool}

/-- A member and its value. -/
def Converts (inRange : List Char → Bool) (depth : ℕ) (m : Option (List Char) × Json)
    (v : List Char × Value) : Prop :=
  m.1 = some v.1 ∧ toValue inRange depth m.2 = some v.2

theorem forall₂_toMembers {depth : ℕ} {members : List (Option (List Char) × Json)}
    {values : List (List Char × Value)} (h : toMembers inRange depth members = some values) :
    List.Forall₂ (Converts inRange depth) members values := by
  induction members generalizing values with
  | nil =>
    rw [toMembers] at h
    cases h
    exact .nil
  | cons m members ih =>
    obtain ⟨key, item⟩ := m
    rw [toMembers, Option.bind_eq_some_iff] at h
    obtain ⟨key, rfl, h⟩ := h
    obtain ⟨value, hvalue, h⟩ := Option.bind_eq_some_iff.mp h
    obtain ⟨values, hvalues, rfl⟩ := Option.map_eq_some_iff.mp h
    exact .cons ⟨rfl, hvalue⟩ (ih hvalues)

theorem isSome_of_converts {depth : ℕ} {members : List (Option (List Char) × Json)}
    {values : List (List Char × Value)}
    (h : List.Forall₂ (Converts inRange depth) members values)
    {m : Option (List Char) × Json} (hm : m ∈ members) :
    ∃ value, toValue inRange depth m.2 = some value := by
  induction h with
  | nil => exact absurd hm List.not_mem_nil
  | @cons m' v members values hmember hrest ih =>
    rcases List.mem_cons.mp hm with rfl | hm
    · exact ⟨v.2, hmember.2⟩
    · exact ih hm

/-- The last member of a key has the last value of it. -/
theorem lastValue_converts {depth : ℕ} {members : List (Option (List Char) × Json)}
    {values : List (List Char × Value)}
    (h : List.Forall₂ (Converts inRange depth) members values) (key : List Char) :
    lastValue key values = (lastValue (some key) members).bind (toValue inRange depth) := by
  induction h with
  | nil => rfl
  | @cons m v members values hmember hrest ih =>
    obtain ⟨k, value⟩ := v
    obtain ⟨hkey, hvalue⟩ := hmember
    have hiff : m.1 = some key ↔ k = key := by rw [hkey, Option.some.injEq]
    rw [lastValue, lastValue, ih]
    cases hlast : lastValue (some key) members with
    | none =>
      by_cases hk : k = key
      · rw [if_pos hk, if_pos (hiff.mpr hk)]
        exact hvalue.symm
      · rw [if_neg hk, if_neg fun h => hk (hiff.mp h)]
        rfl
    | some item =>
      obtain ⟨w, hw⟩ := isSome_of_converts hrest (mem_of_lastValue hlast)
      have hsome : (some item).bind (toValue inRange depth) = some w := hw
      rw [hsome, Option.some_or, Option.some_or]
      exact hw.symm

theorem toValue_object {depth : ℕ} {members : List (Option (List Char) × Json)} {value : Value}
    (h : toValue inRange (depth + 1) (.object members) = some value) :
    ∃ values, toMembers inRange depth members = some values ∧ value = .object values := by
  rw [toValue] at h
  obtain ⟨values, hvalues, rfl⟩ := Option.map_eq_some_iff.mp h
  exact ⟨values, hvalues, rfl⟩

theorem toValue_array {depth : ℕ} {items : List Json} {value : Value}
    (h : toValue inRange depth (.array items) = some value) : ∃ values, value = .array values := by
  cases depth with
  | zero =>
    rw [toValue] at h
    cases h
  | succ depth =>
    rw [toValue] at h
    obtain ⟨values, -, rfl⟩ := Option.map_eq_some_iff.mp h
    exact ⟨values, rfl⟩

/-- A value is null or a text where its document is. -/
theorem shape_toValue {depth : ℕ} {json : Json} {value : Value}
    (h : toValue inRange depth json = some value) :
    value.isNull = json.isNull ∧ value.text? = json.text? := by
  cases json with
  | null =>
    rw [toValue] at h
    cases h
    exact ⟨rfl, rfl⟩
  | bool b =>
    rw [toValue] at h
    cases h
    exact ⟨rfl, rfl⟩
  | number text =>
    rw [toValue, Option.ite_none_right_eq_some] at h
    cases h.2
    exact ⟨rfl, rfl⟩
  | string text =>
    rw [toValue] at h
    obtain ⟨text, rfl, rfl⟩ := Option.map_eq_some_iff.mp h
    exact ⟨rfl, rfl⟩
  | array items =>
    obtain ⟨values, rfl⟩ := toValue_array h
    exact ⟨rfl, rfl⟩
  | object members =>
    cases depth with
    | zero =>
      rw [toValue] at h
      cases h
    | succ depth =>
      obtain ⟨values, -, rfl⟩ := toValue_object h
      exact ⟨rfl, rfl⟩

/-- The members whose keys are texts. -/
def textMembers (members : List (Option (List Char) × Json)) : List (List Char × Json) :=
  members.filterMap fun m => m.1.map fun key => (key, m.2)

/-- The texts of the last members are the same before and after the conversion. -/
theorem mapLast_converts {depth : ℕ} {members : List (Option (List Char) × Json)}
    {values : List (List Char × Value)}
    (h : List.Forall₂ (Converts inRange depth) members values) :
    TextMap.mapLast Value.text? values = TextMap.mapLast Json.text? (textMembers members) := by
  apply TextMap.mapLast_alike
  induction h with
  | nil => exact .nil
  | @cons m v members values hmember hrest ih =>
    have hmembers : textMembers (m :: members) = (v.1, m.2) :: textMembers members := by
      rw [textMembers, List.filterMap_cons, hmember.1]
      rfl
    rw [hmembers]
    exact .cons ⟨rfl, (shape_toValue hmember.2).2⟩ ih

end Rload.JsonDocuments
