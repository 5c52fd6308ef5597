import Mathlib.Data.List.Perm.Basic

/-!
# Swaps of two elements

Two elements of a list change places. Nothing happens where there is no element at one of the
positions.
-/

namespace Arrangements

variable {α : Type*}

/-- The list with two elements exchanged, if there are both. -/
def swap (l : List α) (i j : ℕ) : List α :=
  match l[i]?, l[j]? with
  | some a, some b => (l.set i b).set j a
  | _, _ => l

variable {l : List α} {i j : ℕ}

theorem swap_eq (hi : i < l.length) (hj : j < l.length) :
    swap l i j = (l.set i l[j]).set j l[i] := by
  rw [swap, List.getElem?_eq_getElem hi, List.getElem?_eq_getElem hj]

theorem swap_perm (l : List α) (i j : ℕ) : (swap l i j).Perm l := by
  unfold swap
  split
  · rename_i a b ha hb
    obtain ⟨hi, rfl⟩ := List.getElem?_eq_some_iff.mp ha
    obtain ⟨hj, rfl⟩ := List.getElem?_eq_some_iff.mp hb
    exact List.set_set_perm hi hj
  · exact List.Perm.refl l

theorem length_swap (l : List α) (i j : ℕ) : (swap l i j).length = l.length :=
  (swap_perm l i j).length_eq

theorem getElem?_swap_left (hi : i < l.length) (hj : j < l.length) :
    (swap l i j)[i]? = l[j]? := by
  rw [swap_eq hi hj]
  by_cases heq : j = i
  · subst heq
    simp [hj]
  · rw [List.getElem?_set_ne heq, List.getElem?_set_self hi, List.getElem?_eq_getElem hj]

/-- What comes after both positions stays. -/
theorem drop_swap (hi : i < l.length) (hj : j ≤ i) :
    (swap l i j).drop (i + 1) = l.drop (i + 1) := by
  rw [swap_eq hi (Nat.lt_of_le_of_lt hj hi), List.drop_set_of_lt (by omega),
    List.drop_set_of_lt (by omega)]

end Arrangements
