import Mathlib.Algebra.BigOperators.Group.List.Basic

/-!
# Summaries that add up

A summary starts empty, records one item after the other and takes over other summaries. If
what it shows is a sum over the items, it shows the same whatever the order of the records and
however the items were divided among the summaries that were merged.
-/

namespace AdditiveSummaries

variable {S R M : Type*}

/-- The operations on a summary of items. -/
structure Operations (S R : Type*) where
  empty : S
  record : S → R → S
  merge : S → S → S

/-- A way to put a summary together. -/
inductive Assembly (R : Type*) where
  | empty
  | record (a : Assembly R) (r : R)
  | merge (a b : Assembly R)

namespace Assembly

/-- The items that are recorded anywhere in it. -/
def items : Assembly R → List R
  | empty => []
  | record a r => a.items ++ [r]
  | merge a b => a.items ++ b.items

/-- The summary that comes out. -/
def build (ops : Operations S R) : Assembly R → S
  | empty => ops.empty
  | record a r => ops.record (a.build ops) r
  | merge a b => ops.merge (a.build ops) (b.build ops)

/-- All items recorded one after the other. -/
def ofList (rs : List R) : Assembly R := rs.foldl record empty

/-- Summaries merged one after the other. -/
def mergeList (as : List (Assembly R)) : Assembly R := as.foldl merge empty

theorem items_foldl_record (rs : List R) (a : Assembly R) :
    (rs.foldl record a).items = a.items ++ rs := by
  induction rs generalizing a with
  | nil => exact (List.append_nil _).symm
  | cons r rs ih =>
    rw [List.foldl_cons, ih, items, List.append_assoc]
    rfl

@[simp] theorem items_ofList (rs : List R) : (ofList rs).items = rs :=
  items_foldl_record rs empty

theorem build_foldl_record (ops : Operations S R) (rs : List R) (a : Assembly R) :
    (rs.foldl record a).build ops = rs.foldl ops.record (a.build ops) := by
  induction rs generalizing a with
  | nil => rfl
  | cons r rs ih => exact ih (a.record r)

theorem build_ofList (ops : Operations S R) (rs : List R) :
    (ofList rs).build ops = rs.foldl ops.record ops.empty :=
  build_foldl_record ops rs empty

theorem items_foldl_merge (as : List (Assembly R)) (a : Assembly R) :
    (as.foldl merge a).items = a.items ++ (as.map items).flatten := by
  induction as generalizing a with
  | nil => exact (List.append_nil _).symm
  | cons b as ih =>
    rw [List.foldl_cons, ih, items, List.map_cons, List.flatten_cons, List.append_assoc]

@[simp] theorem items_mergeList (as : List (Assembly R)) :
    (mergeList as).items = (as.map items).flatten :=
  items_foldl_merge as empty

theorem build_foldl_merge (ops : Operations S R) (as : List (Assembly R)) (a : Assembly R) :
    (as.foldl merge a).build ops = (as.map (build ops)).foldl ops.merge (a.build ops) := by
  induction as generalizing a with
  | nil => rfl
  | cons b as ih => exact ih (a.merge b)

theorem build_mergeList (ops : Operations S R) (as : List (Assembly R)) :
    (mergeList as).build ops = (as.map (build ops)).foldl ops.merge ops.empty :=
  build_foldl_merge ops as empty

end Assembly

/-- On the summaries with the property `valid`, the view turns records and merges into
additions. -/
structure Additive [AddCommMonoid M] (ops : Operations S R) (valid : S → Prop) (view : S → M)
    (single : R → M) : Prop where
  valid_empty : valid ops.empty
  valid_record : ∀ s r, valid s → valid (ops.record s r)
  valid_merge : ∀ s t, valid s → valid t → valid (ops.merge s t)
  view_empty : view ops.empty = 0
  view_record : ∀ s r, valid s → view (ops.record s r) = view s + single r
  view_merge : ∀ s t, valid s → valid t → view (ops.merge s t) = view s + view t

namespace Additive

variable [AddCommMonoid M] {ops : Operations S R} {valid : S → Prop} {view : S → M}
  {single : R → M}

theorem valid_build (h : Additive ops valid view single) (a : Assembly R) :
    valid (a.build ops) := by
  induction a with
  | empty => exact h.valid_empty
  | record a r ih => exact h.valid_record _ r ih
  | merge a b iha ihb => exact h.valid_merge _ _ iha ihb

/-- What is shown is the sum over the items. -/
theorem view_build (h : Additive ops valid view single) (a : Assembly R) :
    view (a.build ops) = (a.items.map single).sum := by
  induction a with
  | empty => exact h.view_empty
  | record a r ih =>
    rw [Assembly.build, h.view_record _ r (h.valid_build a), ih, Assembly.items, List.map_append,
      List.sum_append, List.map_singleton, List.sum_singleton]
  | merge a b iha ihb =>
    rw [Assembly.build, h.view_merge _ _ (h.valid_build a) (h.valid_build b), iha, ihb,
      Assembly.items, List.map_append, List.sum_append]

/-- Neither the order nor the division of the items is seen. -/
theorem view_eq_of_perm (h : Additive ops valid view single) {a b : Assembly R}
    (hitems : a.items.Perm b.items) : view (a.build ops) = view (b.build ops) := by
  rw [h.view_build, h.view_build]
  exact (hitems.map single).sum_eq

theorem view_merge_empty (h : Additive ops valid view single) {s : S} (hs : valid s) :
    view (ops.merge s ops.empty) = view s := by
  rw [h.view_merge _ _ hs h.valid_empty, h.view_empty, add_zero]

theorem view_empty_merge (h : Additive ops valid view single) {s : S} (hs : valid s) :
    view (ops.merge ops.empty s) = view s := by
  rw [h.view_merge _ _ h.valid_empty hs, h.view_empty, zero_add]

end Additive

end AdditiveSummaries
