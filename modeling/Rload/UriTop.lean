import Rload.UpperEstimates
import Mathlib.Data.List.MinMax
import Mathlib.Data.List.Sort

/-!
# The bounded table of frequent URIs

`record` counts one request and `merge` joins the tables of two workers. A full table gives
the entry with the smallest estimate to a new URI, which inherits that estimate as its
error. Both operations add an estimate pointwise and pass to at most `capacity` entries, so
the bounds of the table are those of `UpperEstimates`.
-/

namespace Rload

/-- The bytes of a `str`. `str` is ordered by its bytes. -/
abbrev Uri := List UInt8

structure UriStatistic where
  uri : Uri
  estimatedRequests : ℕ
  maximumError : ℕ
  deriving DecidableEq, Repr

namespace UriStatistic

def grow (count error : ℕ) (e : UriStatistic) : UriStatistic :=
  { e with
    estimatedRequests := e.estimatedRequests + count
    maximumError := e.maximumError + error }

def uris (entries : List UriStatistic) : List Uri := entries.map uri

/-- `iter_mut().find(..)` and an assignment through the reference: the first match changes. -/
def updateFirst (p : UriStatistic → Bool) (f : UriStatistic → UriStatistic) :
    List UriStatistic → List UriStatistic
  | [] => []
  | e :: es => if p e then f e :: es else e :: updateFirst p f es

/-- The comparison of `sort_unstable_by`: larger estimates first, then smaller URIs. -/
def Before (left right : UriStatistic) : Prop :=
  right.estimatedRequests < left.estimatedRequests ∨
    right.estimatedRequests = left.estimatedRequests ∧ left.uri ≤ right.uri

instance : DecidableRel Before := fun left right =>
  inferInstanceAs (Decidable (right.estimatedRequests < left.estimatedRequests ∨
    right.estimatedRequests = left.estimatedRequests ∧ left.uri ≤ right.uri))

instance : Std.Total Before where
  total a b := by
    rcases lt_trichotomy a.estimatedRequests b.estimatedRequests with h | h | h
    · exact Or.inr (Or.inl h)
    · rcases List.le_total a.uri b.uri with hu | hu
      · exact Or.inl (Or.inr ⟨h.symm, hu⟩)
      · exact Or.inr (Or.inr ⟨h, hu⟩)
    · exact Or.inl (Or.inl h)

instance : IsTrans UriStatistic Before where
  trans a b c := by
    rintro (h | ⟨h, hu⟩) (h' | ⟨h', hu'⟩)
    · exact Or.inl (h'.trans h)
    · exact Or.inl (h' ▸ h)
    · exact Or.inl (h ▸ h')
    · exact Or.inr ⟨h'.trans h, List.le_trans hu hu'⟩

theorem Before.estimate_le {a b : UriStatistic} (h : Before a b) :
    b.estimatedRequests ≤ a.estimatedRequests := by
  rcases h with h | ⟨h, -⟩ <;> omega

@[simp] theorem length_updateFirst (p : UriStatistic → Bool) (f : UriStatistic → UriStatistic)
    (es : List UriStatistic) : (updateFirst p f es).length = es.length := by
  induction es with
  | nil => rfl
  | cons e es ih =>
    simp only [updateFirst]
    split <;> simp [ih]

@[simp] theorem uris_updateFirst_grow (p : UriStatistic → Bool) (count error : ℕ)
    (es : List UriStatistic) : uris (updateFirst p (grow count error) es) = uris es := by
  induction es with
  | nil => rfl
  | cons e es ih =>
    simp only [updateFirst]
    split
    · simp [uris, grow]
    · simpa [uris] using ih

/-- Which entries a table with distinct URIs holds after the entry at `u` was changed. -/
theorem mem_updateFirst {f : UriStatistic → UriStatistic} {u : Uri}
    {es : List UriStatistic} (hd : (uris es).Nodup) {x : UriStatistic} :
    x ∈ updateFirst (·.uri = u) f es ↔
      (∃ e ∈ es, e.uri = u ∧ x = f e) ∨ (x ∈ es ∧ x.uri ≠ u) := by
  induction es with
  | nil => simp [updateFirst]
  | cons e es ih =>
    obtain ⟨hout, hd'⟩ := List.nodup_cons.mp hd
    have hne : ∀ y ∈ es, y.uri ≠ e.uri := fun y hy heq =>
      hout (heq ▸ List.mem_map_of_mem hy)
    by_cases he : e.uri = u
    · subst he
      simp only [updateFirst, decide_true, if_true, List.mem_cons]
      constructor
      · rintro (rfl | hx)
        · exact Or.inl ⟨e, Or.inl rfl, rfl, rfl⟩
        · exact Or.inr ⟨Or.inr hx, hne x hx⟩
      · rintro (⟨y, rfl | hy, hyu, rfl⟩ | ⟨rfl | hx, hxu⟩)
        · exact Or.inl rfl
        · exact absurd hyu (hne y hy)
        · exact absurd rfl hxu
        · exact Or.inr hx
    · simp only [updateFirst, he, decide_false, Bool.false_eq_true, if_false, List.mem_cons, ih hd']
      constructor
      · rintro (rfl | ⟨y, hy, hyu, rfl⟩ | ⟨hx, hxu⟩)
        · exact Or.inr ⟨Or.inl rfl, he⟩
        · exact Or.inl ⟨y, Or.inr hy, hyu, rfl⟩
        · exact Or.inr ⟨Or.inr hx, hxu⟩
      · rintro (⟨y, rfl | hy, hyu, rfl⟩ | ⟨rfl | hx, hxu⟩)
        · exact absurd hyu he
        · exact Or.inr (Or.inl ⟨y, hy, hyu, rfl⟩)
        · exact Or.inl rfl
        · exact Or.inr (Or.inr ⟨hx, hxu⟩)

/-- Giving the entry at `u` to a URI the table does not hold keeps the URIs distinct. -/
theorem nodup_updateFirst_of_new {es : List UriStatistic} (hd : (uris es).Nodup) (u : Uri)
    {new : UriStatistic} (hnew : new.uri ∉ uris es) :
    (uris (updateFirst (·.uri = u) (fun _ => new) es)).Nodup := by
  induction es with
  | nil => exact List.nodup_nil
  | cons e es ih =>
    obtain ⟨hout, hd'⟩ := List.nodup_cons.mp hd
    obtain ⟨hne, hnew'⟩ : new.uri ≠ e.uri ∧ new.uri ∉ uris es := by
      simpa [uris] using hnew
    by_cases he : e.uri = u
    · simp only [updateFirst, he, decide_true, if_true]
      exact List.nodup_cons.mpr ⟨hnew', hd'⟩
    · simp only [updateFirst, he, decide_false, Bool.false_eq_true, if_false]
      refine List.nodup_cons.mpr ⟨?_, ih hd' hnew'⟩
      intro hmem
      obtain ⟨x, hx, hxe⟩ := List.mem_map.mp hmem
      rcases (mem_updateFirst hd').mp hx with ⟨-, -, -, rfl⟩ | ⟨hx', -⟩
      · exact hne hxe
      · exact hout (hxe ▸ List.mem_map_of_mem hx')

end UriStatistic

open UriStatistic UpperEstimates

/-- `UriTop` with what its operations maintain: a positive capacity, at most `capacity`
entries, and no URI twice. -/
structure UriTop where
  capacity : ℕ
  entries : List UriStatistic
  capacity_pos : 0 < capacity
  bounded : entries.length ≤ capacity
  distinct : (uris entries).Nodup

namespace UriTop

def new (capacity : ℕ) (capacity_pos : 0 < capacity) : UriTop :=
  ⟨capacity, [], capacity_pos, Nat.zero_le _, List.nodup_nil⟩

def find (t : UriTop) (uri : Uri) : Option UriStatistic := t.entries.find? (·.uri = uri)

def minimumCount (t : UriTop) : ℕ :=
  if t.entries.length < t.capacity then 0
  else (t.entries.map (·.estimatedRequests)).min?.getD 0

/-- The entries after `record_weight`. A URI that is found grows, a new one is appended to a
table with room, and otherwise takes over the first entry with the smallest estimate. -/
def recordWeightEntries (t : UriTop) (uri : Uri) (count error : ℕ) : List UriStatistic :=
  if (t.find uri).isSome then
    updateFirst (·.uri = uri) (grow count error) t.entries
  else if t.entries.length < t.capacity then
    t.entries ++ [⟨uri, count, error⟩]
  else
    match t.entries.argmin (·.estimatedRequests) with
    | none => t.entries
    | some e =>
      updateFirst (·.uri = e.uri)
        (fun _ => ⟨uri, e.estimatedRequests + count, e.estimatedRequests + error⟩) t.entries

theorem find_isSome_iff {t : UriTop} {uri : Uri} :
    (t.find uri).isSome ↔ uri ∈ uris t.entries := by
  simp [find, uris]

theorem recordWeightEntries_length (t : UriTop) (uri : Uri) (count error : ℕ) :
    (t.recordWeightEntries uri count error).length ≤ t.capacity := by
  unfold recordWeightEntries
  have hb := t.bounded
  split
  · simpa using hb
  · split
    · simpa using Nat.succ_le_of_lt ‹_›
    · split <;> simpa using hb

theorem recordWeightEntries_nodup (t : UriTop) (uri : Uri) (count error : ℕ) :
    (uris (t.recordWeightEntries uri count error)).Nodup := by
  unfold recordWeightEntries
  split
  · simpa using t.distinct
  · rename_i hnew
    rw [find_isSome_iff] at hnew
    split
    · have hd := List.nodup_append.mpr ⟨t.distinct, List.nodup_singleton uri,
        fun a ha b hb => by rintro rfl; exact hnew (List.mem_singleton.mp hb ▸ ha)⟩
      simpa [uris] using hd
    · split
      · exact t.distinct
      · exact nodup_updateFirst_of_new t.distinct _ hnew

def recordWeight (t : UriTop) (uri : Uri) (count error : ℕ) : UriTop where
  capacity := t.capacity
  entries := t.recordWeightEntries uri count error
  capacity_pos := t.capacity_pos
  bounded := t.recordWeightEntries_length uri count error
  distinct := t.recordWeightEntries_nodup uri count error

def record (t : UriTop) (uri : Uri) : UriTop :=
  if (t.find uri).isSome then
    { t with
      entries := updateFirst (·.uri = uri) (grow 1 0) t.entries
      bounded := by simpa using t.bounded
      distinct := by simpa using t.distinct }
  else t.recordWeight uri 1 0

/-- The entries of both tables before sorting. An entry of one table alone counts with the
other table's minimum. -/
def mergedEntries (s t : UriTop) : List UriStatistic :=
  (s.entries.map fun e =>
    ⟨e.uri,
      e.estimatedRequests + ((t.find e.uri).map (·.estimatedRequests)).getD t.minimumCount,
      e.maximumError + ((t.find e.uri).map (·.maximumError)).getD t.minimumCount⟩) ++
  ((t.entries.filter fun e => (s.find e.uri).isNone).map fun e =>
    ⟨e.uri, e.estimatedRequests + s.minimumCount, e.maximumError + s.minimumCount⟩)

theorem uris_mergedEntries (s t : UriTop) :
    uris (mergedEntries s t) =
      uris s.entries ++ (uris t.entries).filter (· ∉ uris s.entries) := by
  simp only [mergedEntries, uris, List.map_append, List.map_map, List.filter_map]
  congr 1
  refine congrArg _ (List.filter_congr fun e _ => ?_)
  have h : (s.find e.uri).isSome ↔ e.uri ∈ uris s.entries := find_isSome_iff
  cases hf : s.find e.uri <;> simp_all [uris]

theorem mergedEntries_nodup (s t : UriTop) : (uris (mergedEntries s t)).Nodup := by
  rw [uris_mergedEntries]
  refine List.nodup_append.mpr ⟨s.distinct, t.distinct.filter _, ?_⟩
  rintro a ha b hb rfl
  have := (List.mem_filter.mp hb).2
  exact absurd ha (by simpa using this)

def merge (s t : UriTop) : UriTop where
  capacity := s.capacity
  entries := ((mergedEntries s t).insertionSort Before).take s.capacity
  capacity_pos := s.capacity_pos
  bounded := List.length_take_le _ _
  distinct := by
    have hp := (List.perm_insertionSort Before (mergedEntries s t)).map (·.uri)
    have hd : (uris ((mergedEntries s t).insertionSort Before)).Nodup :=
      hp.nodup_iff.mpr (mergedEntries_nodup s t)
    exact hd.sublist ((List.take_sublist _ _).map _)

end UriTop

end Rload
