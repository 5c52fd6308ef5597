import Mathlib.Data.List.Basic

/-!
# Patterns with a star

In a pattern a star stands for any word and every other letter for itself. A matcher that
compares the letters before it looks for stars has a smaller language: there a star that meets
a star of the word stands for that star alone.
-/

namespace GlobPatterns

variable {α : Type*} (star : α)

/-- The words of a pattern. -/
inductive Generates : List α → List α → Prop
  | nil : Generates [] []
  | letter {a : α} {pattern word : List α} (ha : a ≠ star) (h : Generates pattern word) :
      Generates (a :: pattern) (a :: word)
  | star (any : List α) {pattern word : List α} (h : Generates pattern word) :
      Generates (star :: pattern) (any ++ word)

variable {star}

/-- A letter stands for itself, and so does a star among other words. -/
theorem Generates.cons [DecidableEq α] (a : α) {pattern word : List α}
    (h : Generates star pattern word) : Generates star (a :: pattern) (a :: word) := by
  by_cases ha : a = star
  · subst ha
    exact .star [a] h
  · exact .letter ha h

theorem generates_append [DecidableEq α] (part : List α) {pattern word : List α}
    (h : Generates star pattern word) : Generates star (part ++ pattern) (part ++ word) := by
  induction part with
  | nil => exact h
  | cons a part ih => exact ih.cons a

/-- The star takes the letters up to a later place as well. -/
theorem Generates.star_drop {pattern word : List α} {i j : ℕ} (hij : i ≤ j)
    (h : Generates star pattern (word.drop j)) :
    Generates star (star :: pattern) (word.drop i) := by
  have hsplit : word.drop i = (word.drop i).take (j - i) ++ word.drop j := by
    rw [← Nat.add_sub_of_le hij, ← List.drop_drop, Nat.add_sub_cancel_left, List.take_append_drop]
  rw [hsplit]
  exact .star _ h

/-- Between stars nothing is left to match. -/
theorem generates_stars_of_nil {pattern : List α} (h : Generates star pattern []) :
    ∀ a ∈ pattern, a = star := by
  induction pattern with
  | nil => exact fun _ ha => absurd ha List.not_mem_nil
  | cons a pattern ih =>
    generalize hword : ([] : List α) = word at h
    cases h with
    | letter ha hrest => cases hword
    | star any hrest =>
      obtain ⟨-, rfl⟩ := List.append_eq_nil_iff.mp hword.symm
      exact List.forall_mem_cons.mpr ⟨rfl, ih hrest⟩

/-- A star generates nothing but stars around the word of one star. -/
theorem generates_stars_of_star {pattern : List α} (h : Generates star pattern [star]) :
    ∀ a ∈ pattern, a = star := by
  induction pattern with
  | nil => cases h
  | cons a pattern ih =>
    generalize hword : [star] = word at h
    cases h with
    | letter ha hrest => exact absurd (List.cons.inj hword).1.symm ha
    | star any hrest =>
      refine List.forall_mem_cons.mpr ⟨rfl, ?_⟩
      obtain ⟨-, rfl⟩ | ⟨-, rfl⟩ := List.append_eq_singleton_iff.mp hword.symm
      · exact ih hrest
      · exact generates_stars_of_nil hrest

variable (star)

/-- The words of a pattern where a star that meets a star of the word stands for it alone. -/
inductive Spells : List α → List α → Prop
  | nil : Spells [] []
  | letter (a : α) {pattern word : List α} (h : Spells pattern word) :
      Spells (a :: pattern) (a :: word)
  | star {pattern word : List α} (hword : word.head? ≠ some star) (count : ℕ)
      (h : Spells pattern (word.drop count)) : Spells (star :: pattern) word

variable {star}

theorem Spells.generates [DecidableEq α] {pattern word : List α}
    (h : Spells star pattern word) : Generates star pattern word := by
  induction h with
  | nil => exact .nil
  | letter a h ih => exact ih.cons a
  | @star pattern word hword count h ih => exact ih.star_drop (Nat.zero_le count)

theorem spells_cons_self {a : α} {pattern word : List α} :
    Spells star (a :: pattern) (a :: word) ↔ Spells star pattern word := by
  constructor
  · intro h
    cases h with
    | letter _ h => exact h
    | star hword _ _ => exact absurd rfl hword
  · exact .letter a

theorem spells_append (part : List α) {pattern word : List α} :
    Spells star (part ++ pattern) (part ++ word) ↔ Spells star pattern word := by
  induction part with
  | nil => rfl
  | cons a part ih => exact spells_cons_self.trans ih

/-- Where the word has no star the star of the pattern may stand for any number of letters. -/
theorem spells_star {pattern word : List α} (hword : word.head? ≠ some star) :
    Spells star (star :: pattern) word ↔ ∃ count, Spells star pattern (word.drop count) := by
  constructor
  · intro h
    cases h with
    | letter _ h => exact absurd rfl hword
    | star _ count h => exact ⟨count, h⟩
  · rintro ⟨count, h⟩
    exact .star hword count h

theorem spells_nil_iff {pattern : List α} :
    Spells star pattern [] ↔ ∀ a ∈ pattern, a = star := by
  induction pattern with
  | nil => simp [Spells.nil]
  | cons a pattern ih =>
    rw [List.forall_mem_cons, ← ih]
    constructor
    · intro h
      cases h with
      | star _ count h => exact ⟨rfl, by simpa using h⟩
    · rintro ⟨rfl, h⟩
      exact .star (by simp) 0 h

theorem not_spells_nil_cons {a : α} {word : List α} : ¬ Spells star [] (a :: word) := by
  intro h
  cases h

/-- Letters that are no star and differ do not match. -/
theorem not_spells_cons {a b : α} {pattern word : List α} (hab : a ≠ b) (ha : a ≠ star) :
    ¬ Spells star (a :: pattern) (b :: word) := by
  intro h
  cases h with
  | letter _ _ => exact hab rfl
  | star _ _ _ => exact ha rfl

/-- A part of the pattern that meets its own end goes past it. -/
theorem Spells.past {part rest pattern word : List α} (hsuffix : rest <:+ part)
    (h : Spells star (part ++ pattern) (rest ++ word)) :
    ∃ count, Spells star pattern (word.drop count) := by
  induction part generalizing rest word with
  | nil =>
    obtain rfl := List.suffix_nil.mp hsuffix
    exact ⟨0, h⟩
  | cons a part ih =>
    have hnext : ∀ count, rest.drop count <:+ part →
        Spells star (part ++ pattern) ((rest ++ word).drop count) →
          ∃ count, Spells star pattern (word.drop count) := by
      intro count hsuffix hrest
      rw [List.drop_append] at hrest
      obtain ⟨count', hrest⟩ := ih hsuffix hrest
      rw [List.drop_drop] at hrest
      exact ⟨_, hrest⟩
    obtain rfl | hpart := List.suffix_cons_iff.mp hsuffix
    · -- the whole part meets itself, so that its first letter stands for itself
      exact hnext 1 List.suffix_rfl (spells_cons_self.mp h)
    · generalize hwhole : rest ++ word = whole at h hnext
      cases h with
      | letter _ h => exact hnext 1 ((List.drop_suffix 1 rest).trans hpart) h
      | star _ count h => exact hnext count ((List.drop_suffix count rest).trans hpart) h

/-- A word whose stars all stand at its end is read alike. -/
theorem Generates.spells {pattern word : List α} (h : Generates star pattern word)
    (hstars : ∀ before after, word = before ++ star :: after → after = []) :
    Spells star pattern word := by
  induction h with
  | nil => exact .nil
  | @letter a pattern word ha h ih =>
    refine .letter a (ih ?_)
    intro before after hword
    exact hstars (a :: before) after (congrArg (List.cons a) hword)
  | @star any pattern word h ih =>
    by_cases hhead : (any ++ word).head? = some star
    · -- the word is this star alone
      obtain ⟨after, hwhole⟩ := List.head?_eq_some_iff.mp hhead
      obtain rfl := hstars [] after hwhole
      rw [hwhole]
      refine .letter star (spells_nil_iff.mpr ?_)
      obtain ⟨-, rfl⟩ | ⟨-, rfl⟩ := List.append_eq_singleton_iff.mp hwhole
      · exact generates_stars_of_star h
      · exact generates_stars_of_nil h
    · refine .star hhead any.length ?_
      rw [List.drop_left]
      refine ih ?_
      intro before after hword
      exact hstars (any ++ before) after (by rw [hword, List.append_assoc])

end GlobPatterns
