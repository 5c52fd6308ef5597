import Mathlib.Data.List.Nodup
import Mathlib.Data.List.Perm.Subperm

/-!
# Draws in rounds

Every element of a list is drawn once before any is drawn again. How often an element has been
drawn then follows from the number of the draws, but for the round that is not over.
-/

namespace Rounds

variable {α : Type*}

/-- Draws from `all`, the newest first: how many rounds are over, the draws of the current one,
and all draws. -/
inductive Draws (all : List α) : ℕ → List α → List α → Prop
  | start : Draws all 0 [] []
  | draw {rounds : ℕ} {current drawn : List α} {a : α} (h : Draws all rounds current drawn)
      (hmem : a ∈ all) (hnew : a ∉ current) : Draws all rounds (a :: current) (a :: drawn)
  | close {rounds : ℕ} {current drawn : List α} (h : Draws all rounds current drawn)
      (hall : current.Perm all) : Draws all (rounds + 1) [] drawn

namespace Draws

variable {all current drawn : List α} {rounds : ℕ}

theorem nodup (h : Draws all rounds current drawn) : current.Nodup := by
  induction h with
  | start => exact List.nodup_nil
  | draw h hmem hnew ih => exact List.nodup_cons.mpr ⟨hnew, ih⟩
  | close h hall ih => exact List.nodup_nil

theorem subset (h : Draws all rounds current drawn) : current ⊆ all := by
  induction h with
  | start => exact List.nil_subset _
  | draw h hmem hnew ih => exact List.cons_subset.mpr ⟨hmem, ih⟩
  | close h hall ih => exact List.nil_subset _

theorem drawn_subset (h : Draws all rounds current drawn) : drawn ⊆ all := by
  induction h with
  | start => exact List.nil_subset _
  | draw h hmem hnew ih => exact List.cons_subset.mpr ⟨hmem, ih⟩
  | close h hall ih => exact ih

theorem length_eq (h : Draws all rounds current drawn) :
    drawn.length = rounds * all.length + current.length := by
  induction h with
  | start => simp
  | draw h hmem hnew ih =>
    rw [List.length_cons, List.length_cons, ih]
    omega
  | close h hall ih =>
    rw [ih, hall.length_eq, Nat.succ_mul]
    rfl

/-- The current round has no more draws than there are elements. -/
theorem length_le (h : Draws all rounds current drawn) : current.length ≤ all.length :=
  (h.nodup.subperm h.subset).length_le

theorem count_eq [DecidableEq α] (h : Draws all rounds current drawn) (hnodup : all.Nodup) {a : α}
    (ha : a ∈ all) : drawn.count a = rounds + current.count a := by
  induction h with
  | start => rfl
  | draw h hmem hnew ih =>
    rw [List.count_cons, List.count_cons, ih]
    omega
  | close h hall ih =>
    rw [ih, hall.count_eq, List.count_eq_one_of_mem hnodup ha]
    rfl

/-- The current round can be taken not to be over. -/
theorem exists_short (h : Draws all rounds current drawn) (hpos : all ≠ []) :
    ∃ rounds current, Draws all rounds current drawn ∧ current.length < all.length := by
  cases Nat.lt_or_eq_of_le h.length_le with
  | inl hlt => exact ⟨rounds, current, h, hlt⟩
  | inr heq =>
    have hperm : current.Perm all :=
      (h.nodup.subperm h.subset).perm_of_length_le (Nat.le_of_eq heq.symm)
    exact ⟨rounds + 1, [], h.close hperm, List.length_pos_iff.mpr hpos⟩

/-- The older ones of the draws are drawn in rounds as well. -/
theorem drop (h : Draws all rounds current drawn) (k : ℕ) :
    ∃ rounds current, Draws all rounds current (drawn.drop k) := by
  induction h generalizing k with
  | start =>
    rw [List.drop_nil]
    exact ⟨0, [], .start⟩
  | draw h hmem hnew ih =>
    cases k with
    | zero => exact ⟨_, _, h.draw hmem hnew⟩
    | succ k => exact ih k
  | close h hall ih => exact ih k

/-- The draws in their order are one block after the other. -/
theorem exists_blocks (h : Draws all rounds current drawn) :
    ∃ blocks : List (List α), drawn.reverse = blocks.flatten ++ current.reverse ∧
      blocks.length = rounds ∧ ∀ block ∈ blocks, block.Perm all := by
  induction h with
  | start => exact ⟨[], rfl, rfl, by simp⟩
  | draw h hmem hnew ih =>
    obtain ⟨blocks, hblocks, hlength, hperm⟩ := ih
    refine ⟨blocks, ?_, hlength, hperm⟩
    rw [List.reverse_cons, hblocks, List.reverse_cons, List.append_assoc]
  | @close rounds current drawn h hall ih =>
    obtain ⟨blocks, hblocks, hlength, hperm⟩ := ih
    refine ⟨blocks ++ [current.reverse], ?_, ?_, ?_⟩
    · simp [hblocks]
    · simp [hlength]
    · intro block hblock
      cases List.mem_append.mp hblock with
      | inl hmem => exact hperm block hmem
      | inr hlast =>
        rw [List.mem_singleton.mp hlast]
        exact (List.reverse_perm current).trans hall

theorem drop_flatten {blocks : List (List α)} {n : ℕ} (h : ∀ block ∈ blocks, block.length = n)
    (k : ℕ) : blocks.flatten.drop (k * n) = (blocks.drop k).flatten := by
  induction k generalizing blocks with
  | zero => simp
  | succ k ih =>
    cases blocks with
    | nil => simp
    | cons block blocks =>
      have hlength : block.length = n := h block List.mem_cons_self
      rw [List.flatten_cons, List.drop_succ_cons, Nat.succ_mul, Nat.add_comm, ← List.drop_drop,
        ← hlength, List.drop_left, hlength]
      exact ih fun block hmem => h block (List.mem_cons_of_mem _ hmem)

/-- Every block of draws that begins where a round does has all elements. -/
theorem block_perm (h : Draws all rounds current drawn) (hpos : all ≠ []) {k : ℕ}
    (hk : (k + 1) * all.length ≤ drawn.length) :
    ((drawn.reverse.drop (k * all.length)).take all.length).Perm all := by
  obtain ⟨rounds, current, h, hshort⟩ := h.exists_short hpos
  obtain ⟨blocks, hblocks, hlength, hperm⟩ := h.exists_blocks
  have hlengths : ∀ block ∈ blocks, block.length = all.length :=
    fun block hmem => (hperm block hmem).length_eq
  have hlt : k < blocks.length := by
    by_contra hle
    have hmul := Nat.mul_le_mul_right all.length (Nat.le_of_not_lt hle)
    rw [h.length_eq, ← hlength, Nat.succ_mul] at hk
    omega
  have hprefix : k * all.length ≤ blocks.flatten.length := by
    have hmul := Nat.mul_le_mul_right all.length (Nat.le_of_lt hlt)
    have htotal : blocks.flatten.length = blocks.length * all.length := by
      rw [List.length_flatten, List.map_congr_left hlengths]
      simp
    omega
  rw [hblocks, List.drop_append_of_le_length hprefix, drop_flatten hlengths,
    List.drop_eq_getElem_cons hlt, List.flatten_cons, List.append_assoc,
    ← hlengths _ (List.getElem_mem hlt), List.take_left]
  exact hperm _ (List.getElem_mem hlt)

variable [DecidableEq α]

/-- An element has been drawn once in each round that is over, and perhaps in the current one. -/
theorem count_bounds (h : Draws all rounds current drawn) (hnodup : all.Nodup) {a : α}
    (ha : a ∈ all) :
    drawn.length / all.length ≤ drawn.count a ∧
      drawn.count a ≤ drawn.length / all.length + 1 := by
  obtain ⟨rounds, current, h, hshort⟩ := h.exists_short (List.ne_nil_of_mem ha)
  have hquotient : drawn.length / all.length = rounds := by
    rw [h.length_eq, Nat.mul_comm, Nat.mul_add_div (by omega), Nat.div_eq_of_lt hshort,
      Nat.add_zero]
  have honce := List.nodup_iff_count_le_one.mp h.nodup a
  rw [hquotient, h.count_eq hnodup ha]
  omega

/-- An element has been drawn no more often than once in each round that has begun. -/
theorem count_le_ceil (h : Draws all rounds current drawn) (hnodup : all.Nodup) {a : α}
    (ha : a ∈ all) : drawn.count a ≤ (drawn.length + (all.length - 1)) / all.length := by
  have hpos : 0 < all.length := List.length_pos_of_mem ha
  have honce := List.nodup_iff_count_le_one.mp h.nodup a
  have hle : current.count a ≤ current.length := List.count_le_length
  rw [Nat.le_div_iff_mul_le hpos, h.count_eq hnodup ha, h.length_eq, Nat.add_mul]
  cases Nat.le_one_iff_eq_zero_or_eq_one.mp honce with
  | inl hzero =>
    rw [hzero]
    omega
  | inr hone =>
    rw [hone]
    omega

/-- After whole rounds every element has been drawn as often as the others. -/
theorem count_of_length (h : Draws all rounds current drawn) (hnodup : all.Nodup) {n : ℕ}
    (hlength : drawn.length = n * all.length) {a : α} (ha : a ∈ all) : drawn.count a = n := by
  obtain ⟨rounds, current, h, hshort⟩ := h.exists_short (List.ne_nil_of_mem ha)
  have hrounds : rounds * all.length + current.length = n * all.length :=
    h.length_eq.symm.trans hlength
  have hzero : current.length = 0 := by
    have hmod := congrArg (· % all.length) hrounds
    simp only [Nat.mul_add_mod', Nat.mul_mod_left] at hmod
    rwa [Nat.mod_eq_of_lt hshort] at hmod
  have hpos : 0 < all.length := by omega
  rw [hzero, Nat.add_zero] at hrounds
  rw [h.count_eq hnodup ha, List.length_eq_zero_iff.mp hzero]
  exact Nat.eq_of_mul_eq_mul_right hpos hrounds

end Draws

theorem sub_div_add_div {n q x : ℕ} (hn : 0 < n) (hle : x ≤ n * q) :
    (n * q - x) / n + (x + (n - 1)) / n = q := by
  obtain ⟨a, b, hb, rfl⟩ : ∃ a b, b < n ∧ x = n * a + b :=
    ⟨x / n, x % n, Nat.mod_lt x hn, (Nat.div_add_mod x n).symm⟩
  have ha : a ≤ q := Nat.le_of_mul_le_mul_left (Nat.le_trans (Nat.le_add_right _ b) hle) hn
  obtain ⟨k, rfl⟩ := Nat.exists_eq_add_of_le ha
  rw [Nat.mul_add] at hle ⊢
  cases k with
  | zero =>
    have hzero : b = 0 := by omega
    rw [hzero]
    have hfirst : n * a + n * 0 - (n * a + 0) = 0 := by omega
    have hsecond : n * a + 0 + (n - 1) = n * a + (n - 1) := rfl
    rw [hfirst, hsecond, Nat.mul_add_div hn, Nat.div_eq_of_lt (show n - 1 < n by omega),
      Nat.zero_div]
    omega
  | succ k =>
    rw [Nat.mul_succ] at hle ⊢
    by_cases hzero : b = 0
    · have hfirst : n * a + (n * k + n) - (n * a + b) = n * (k + 1) := by
        rw [Nat.mul_succ]
        omega
      have hsecond : n * a + b + (n - 1) = n * a + (n - 1) := by omega
      rw [hfirst, hsecond, Nat.mul_add_div hn, Nat.div_eq_of_lt (show n - 1 < n by omega),
        Nat.mul_div_cancel_left _ hn]
      omega
    · have hfirst : n * a + (n * k + n) - (n * a + b) = n * k + (n - b) := by omega
      have hsecond : n * a + b + (n - 1) = n * (a + 1) + (b - 1) := by
        rw [Nat.mul_succ]
        omega
      rw [hfirst, hsecond, Nat.mul_add_div hn, Nat.mul_add_div hn,
        Nat.div_eq_of_lt (show n - b < n by omega), Nat.div_eq_of_lt (show b - 1 < n by omega)]
      omega

/-- How many rounds of `n` draws are not over without the missing ones: those that the current
round can spare cost none. -/
def lost (n drawn missing : ℕ) : ℕ := (missing - drawn % n + (n - 1)) / n

theorem div_add_lost {n drawn missing : ℕ} (hn : 0 < n) (hle : missing ≤ drawn) :
    (drawn - missing) / n + lost n drawn missing = drawn / n := by
  have hsplit := Nat.div_add_mod drawn n
  have hmod := Nat.mod_lt drawn hn
  rw [lost]
  by_cases hfew : missing ≤ drawn % n
  · have hrest : drawn - missing = n * (drawn / n) + (drawn % n - missing) := by omega
    have hnone : missing - drawn % n + (n - 1) = n - 1 := by omega
    rw [hrest, hnone, Nat.mul_add_div hn,
      Nat.div_eq_of_lt (show drawn % n - missing < n by omega),
      Nat.div_eq_of_lt (show n - 1 < n by omega)]
    rfl
  · have hrest : drawn - missing = n * (drawn / n) - (missing - drawn % n) := by omega
    rw [hrest]
    exact sub_div_add_div hn (by omega)

end Rounds
