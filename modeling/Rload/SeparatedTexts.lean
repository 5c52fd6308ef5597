import Mathlib.Data.List.TakeWhile
import Mathlib.Tactic.ByContra

/-!
# Texts with a separator

A separator cuts a text into pieces, of which only those that are not empty count. Two texts may
be put together where one of them has a separator at the seam or is empty. Otherwise the last
piece of the one and the first piece of the other become one piece.
-/

namespace SeparatedTexts

variable {α : Type*} [DecidableEq α] (sep : α)

/-- The pieces of the text that are not empty. -/
def pieces (text : List α) : List (List α) := (text.splitOn sep).filter (· ≠ [])

/-- Something may be put in front of the text: it is empty or begins with the separator. -/
def OpensFresh (text : List α) : Prop := text = [] ∨ text.head? = some sep

/-- Something may be put behind the text: it is empty or ends with the separator. -/
def EndsFresh (text : List α) : Prop := text = [] ∨ text.getLast? = some sep

variable {sep}

@[simp] theorem pieces_nil : pieces sep [] = [] := rfl

theorem pieces_separated (text rest : List α) :
    pieces sep (text ++ sep :: rest) = pieces sep text ++ pieces sep rest := by
  rw [pieces, List.splitOn_append_cons_self, List.filter_append]
  rfl

@[simp] theorem pieces_cons_sep (text : List α) : pieces sep (sep :: text) = pieces sep text :=
  pieces_separated [] text

@[simp] theorem pieces_concat_sep (text : List α) :
    pieces sep (text ++ [sep]) = pieces sep text := by
  rw [pieces_separated, pieces_nil, List.append_nil]

theorem pieces_word {word : List α} (hne : word ≠ []) (hsep : sep ∉ word) :
    pieces sep word = [word] := by
  rw [pieces, List.splitOn_eq_singleton hsep]
  simp [hne]

theorem EndsFresh.pieces_append {text : List α} (h : EndsFresh sep text) (rest : List α) :
    pieces sep (text ++ rest) = pieces sep text ++ pieces sep rest := by
  obtain rfl | hlast := h
  · rfl
  · obtain ⟨start, rfl⟩ := List.getLast?_eq_some_iff.mp hlast
    rw [List.append_assoc, List.singleton_append, pieces_separated, pieces_concat_sep]

theorem OpensFresh.pieces_append {rest : List α} (h : OpensFresh sep rest) (text : List α) :
    pieces sep (text ++ rest) = pieces sep text ++ pieces sep rest := by
  obtain rfl | hhead := h
  · simp
  · obtain ⟨tail, rfl⟩ := List.head?_eq_some_iff.mp hhead
    rw [pieces_separated, pieces_cons_sep]

theorem exists_first_word (sep : α) (text : List α) :
    ∃ word rest, text = word ++ rest ∧ sep ∉ word ∧ OpensFresh sep rest := by
  refine ⟨text.takeWhile (· ≠ sep), text.dropWhile (· ≠ sep),
    List.takeWhile_append_dropWhile.symm, ?_, ?_⟩
  · intro hmem
    have hne := List.mem_takeWhile_imp hmem
    rw [decide_eq_true_eq] at hne
    exact hne rfl
  · obtain hnil | hne := eq_or_ne (text.dropWhile (· ≠ sep)) []
    · exact .inl hnil
    · refine .inr ?_
      have hhead := List.head_dropWhile_not (fun a => decide (a ≠ sep)) hne
      rw [List.head?_eq_some_head hne]
      simpa using hhead

theorem exists_last_word (sep : α) (text : List α) :
    ∃ start word, text = start ++ word ∧ sep ∉ word ∧ EndsFresh sep start := by
  obtain ⟨word, rest, hsplit, hsep, hfresh⟩ := exists_first_word sep text.reverse
  refine ⟨rest.reverse, word.reverse, ?_, ?_, ?_⟩
  · rw [← List.reverse_append, ← hsplit, List.reverse_reverse]
  · rwa [List.mem_reverse]
  · rwa [EndsFresh, List.reverse_eq_nil_iff, List.getLast?_reverse]

/-- Without a separator at the seam two pieces become one. -/
theorem pieces_joined {text rest : List α} (htext : ¬ EndsFresh sep text)
    (hrest : ¬ OpensFresh sep rest) :
    (pieces sep (text ++ rest)).length + 1 = (pieces sep text ++ pieces sep rest).length := by
  obtain ⟨start, last, rfl, hlast, hstart⟩ := exists_last_word sep text
  obtain ⟨first, tail, rfl, hfirst, htail⟩ := exists_first_word sep rest
  have hlast_ne : last ≠ [] := by
    rintro rfl
    exact htext (by rwa [List.append_nil])
  have hfirst_ne : first ≠ [] := by
    rintro rfl
    exact hrest htail
  have hjoined : sep ∉ last ++ first := by
    rw [List.mem_append]
    exact not_or.mpr ⟨hlast, hfirst⟩
  have hwhole : start ++ last ++ (first ++ tail) = start ++ ((last ++ first) ++ tail) := by
    simp only [List.append_assoc]
  rw [hwhole, hstart.pieces_append, hstart.pieces_append, htail.pieces_append,
    htail.pieces_append, pieces_word hlast_ne hlast, pieces_word hfirst_ne hfirst,
    pieces_word (List.append_ne_nil_of_left_ne_nil hlast_ne first) hjoined]
  simp only [List.length_append, List.length_singleton]
  omega

theorem pieces_append_iff {text rest : List α} :
    pieces sep (text ++ rest) = pieces sep text ++ pieces sep rest ↔
      EndsFresh sep text ∨ OpensFresh sep rest := by
  constructor
  · intro h
    by_contra hjoined
    obtain ⟨htext, hrest⟩ := not_or.mp hjoined
    have hlength := pieces_joined htext hrest
    rw [h] at hlength
    omega
  · rintro (h | h)
    · exact h.pieces_append rest
    · exact h.pieces_append text

end SeparatedTexts
