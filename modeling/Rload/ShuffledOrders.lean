import Rload.Arrangements
import Rload.RequestSequence
import Rload.Rounds

/-!
# Shuffled orders

A reshuffle arranges the indices by its draws, whence each order of a round comes from one
sequence of draws. The results of `next` are those of one round after the other, whatever is
drawn.
-/

namespace Rload.ShuffleState
open Arrangements (arrange drawn uniformDraws)

/-- The draws at the positions from `index` down to 1, with the random state after them. -/
def draws : ℕ → UInt64 → Option (List ℕ × UInt64)
  | 0, random => some ([], random)
  | index + 1, random =>
    ((ShuffleState.mk [] 0 random).bounded (index + 2)).bind fun (selected, s) =>
      (draws index s.randomState).map fun (rest, random) => (selected :: rest, random)

variable {s s' : ShuffleState} {index bound selected n : ℕ}

theorem bounded_mk (s : ShuffleState) (bound : ℕ) :
    s.bounded bound = ((ShuffleState.mk [] 0 s.randomState).bounded bound).map
      fun (selected, s₁) => (selected, { s with randomState := s₁.randomState }) := by
  rw [bounded, bounded, Option.map_map]
  rfl

theorem bounded_lt (h : s.bounded bound = some (selected, s')) (hbound : 0 < bound) :
    selected < bound := by
  obtain ⟨random, -, heq⟩ := Option.map_eq_some_iff.mp h
  cases heq
  have hword : (UInt64.ofNat bound).toNat = bound % 2 ^ 64 := UInt64.toNat_ofNat'
  have hlt : random.toNat < 2 ^ 64 := random.toNat_lt
  rw [UInt64.toNat_mod, hword]
  by_cases hzero : bound % 2 ^ 64 = 0
  · rw [hzero, Nat.mod_zero]
    have hle := Nat.le_of_dvd hbound (Nat.dvd_of_mod_eq_zero hzero)
    omega
  · exact Nat.lt_of_lt_of_le (Nat.mod_lt _ (Nat.pos_of_ne_zero hzero)) (Nat.mod_le _ _)

theorem mem_drawn_of_draws {random random' : UInt64} {values : List ℕ}
    (h : draws index random = some (values, random')) : values ∈ drawn index := by
  induction index generalizing random values with
  | zero =>
    cases h
    exact Arrangements.mem_drawn_zero.mpr rfl
  | succ index ih =>
    obtain ⟨⟨selected, s⟩, hbounded, h⟩ := Option.bind_eq_some_iff.mp h
    obtain ⟨⟨rest, last⟩, hrest, heq⟩ := Option.map_eq_some_iff.mp h
    cases heq
    have hselected := bounded_lt hbounded (by omega)
    exact Arrangements.cons_mem_drawn.mpr ⟨by omega, ih hrest⟩

theorem swaps_eq (index : ℕ) (s : ShuffleState) :
    swaps index s = (draws index s.randomState).map fun (values, random) =>
      ⟨arrange values s.indices, s.offset, random⟩ := by
  induction index generalizing s with
  | zero => rfl
  | succ index ih =>
    rw [swaps, draws, bounded_mk]
    cases hbounded : (ShuffleState.mk [] 0 s.randomState).bounded (index + 2) with
    | none => rfl
    | some result =>
      obtain ⟨selected, s₁⟩ := result
      simp only [Option.map_some, Option.bind_some, ih]
      cases hrest : draws index s₁.randomState with
      | none => rfl
      | some rest =>
        obtain ⟨values, random⟩ := rest
        have hlength := (mem_drawn_of_draws hrest).1
        simp only [Option.map_some, arrange, hlength]

/-- A reshuffle takes its draws and arranges the indices by them. -/
theorem reshuffle_eq (s : ShuffleState) :
    s.reshuffle = (draws (s.indices.length - 1) s.randomState).map fun (values, random) =>
      ⟨arrange values s.indices, 0, random⟩ := by
  rw [reshuffle, swaps_eq, Option.map_map]
  rfl

/-- The draws of a reshuffle correspond to the orders it can lead to, which are equally likely
if the draws are uniform. -/
theorem reshuffle_bijection {start : List ℕ} (hn : 1 ≤ n) (hstart : start.Perm (List.range n)) :
    Set.BijOn (fun values => arrange values start) (drawn (n - 1)) {order | order.Perm start} ∧
      (∀ order : List ℕ, order.Perm start →
        (uniformDraws (n - 1)).map (fun values => arrange values start) order =
          (n.factorial : ENNReal)⁻¹) ∧
      (∀ offset random, (ShuffleState.mk start offset random).reshuffle =
        (draws (n - 1) random).map fun (values, random) => ⟨arrange values start, 0, random⟩) ∧
      ∀ random random' values, draws (n - 1) random = some (values, random') →
        values ∈ drawn (n - 1) := by
  have hnodup : start.Nodup := hstart.nodup_iff.mpr List.nodup_range
  have hlength : start.length = n := by
    rw [hstart.length_eq, List.length_range]
  have hlast : start.length = n - 1 + 1 := by omega
  refine ⟨Arrangements.arrange_bijOn hnodup hlast, ?_, ?_, ?_⟩
  · intro order horder
    have hlikely := Arrangements.map_arrange_apply hnodup hlast horder
    rwa [hlength] at hlikely
  · intro offset random
    have hreshuffle := reshuffle_eq ⟨start, offset, random⟩
    rwa [hlength] at hreshuffle
  · intro random random' values hdraws
    exact mem_drawn_of_draws hdraws

theorem reshuffle_bijection_three :
    Set.BijOn (fun values => arrange values [2, 0, 1]) (drawn 2) {order | order.Perm [2, 0, 1]} :=
  (reshuffle_bijection (n := 3) (by decide) (by decide)).1

/-- A call of `next`, where a reshuffle may draw anything that `bounded` can return. -/
inductive Next : ShuffleState → ℕ → ShuffleState → Prop
  | read {s : ShuffleState} {index : ℕ} (hoffset : s.offset ≠ s.indices.length)
      (hindex : s.indices[s.offset]? = some index) :
      Next s index { s with offset := s.offset + 1 }
  | reshuffle {s : ShuffleState} {index : ℕ} {values : List ℕ} {random : UInt64}
      (hoffset : s.offset = s.indices.length) (hvalues : values ∈ drawn (s.indices.length - 1))
      (hindex : (arrange values s.indices)[0]? = some index) :
      Next s index ⟨arrange values s.indices, 1, random⟩

/-- The state of a new sequence of `n` requests, which has been shuffled once. -/
def IsNew (n : ℕ) (s : ShuffleState) : Prop :=
  ∃ values ∈ drawn (n - 1), s.indices = arrange values (List.range n) ∧ s.offset = 0

/-- Calls of `next` with their results, the newest first. -/
inductive Results (s₀ : ShuffleState) : List ℕ → ShuffleState → Prop
  | refl : Results s₀ [] s₀
  | next {results : List ℕ} {s s' : ShuffleState} {index : ℕ} (h : Results s₀ results s)
      (hnext : Next s index s') : Results s₀ (index :: results) s'

theorem next_of_some (h : s.next = some (index, s')) : Next s index s' := by
  obtain ⟨s₁, hs₁, hindex⟩ := Option.bind_eq_some_iff.mp h
  obtain ⟨i, hi, heq⟩ := Option.map_eq_some_iff.mp hindex
  cases heq
  split at hs₁
  · rename_i hoffset
    rw [reshuffle_eq] at hs₁
    obtain ⟨⟨values, random⟩, hvalues, rfl⟩ := Option.map_eq_some_iff.mp hs₁
    exact .reshuffle hoffset (mem_drawn_of_draws hvalues) hi
  · rename_i hoffset
    cases hs₁
    exact .read hoffset hi

theorem isNew_of_reshuffle {seed : UInt64} (h : (new n seed).reshuffle = some s) : IsNew n s := by
  rw [reshuffle_eq] at h
  obtain ⟨⟨values, random⟩, hvalues, rfl⟩ := Option.map_eq_some_iff.mp h
  have hdrawn := mem_drawn_of_draws hvalues
  rw [new, List.length_range] at hdrawn
  exact ⟨values, hdrawn, rfl, rfl⟩

/-- The current round consists of the indices that have been read of the current order. -/
structure InRound (n : ℕ) (s : ShuffleState) (rounds : ℕ) (results : List ℕ) : Prop where
  perm : s.indices.Perm (List.range n)
  offset_le : s.offset ≤ n
  inRounds : Rounds.Draws (List.range n) rounds (s.indices.take s.offset).reverse results

variable {rounds : ℕ} {results : List ℕ}

theorem InRound.length_eq (h : InRound n s rounds results) : s.indices.length = n := by
  rw [h.perm.length_eq, List.length_range]

/-- Reading the next index of an order draws it. -/
theorem draws_read {indices : List ℕ} {offset : ℕ} (hperm : indices.Perm (List.range n))
    (h : Rounds.Draws (List.range n) rounds (indices.take offset).reverse results)
    (hindex : indices[offset]? = some index) :
    Rounds.Draws (List.range n) rounds (indices.take (offset + 1)).reverse (index :: results) := by
  obtain ⟨hlt, hget⟩ := List.getElem?_eq_some_iff.mp hindex
  have hmem : index ∈ List.range n := hperm.mem_iff.mp (hget ▸ List.getElem_mem hlt)
  have hnew : index ∉ (indices.take offset).reverse := by
    have hnodup := hperm.nodup_iff.mpr List.nodup_range
    rw [← List.take_append_drop offset indices] at hnodup
    have hdisjoint := List.disjoint_of_nodup_append hnodup
    intro hmem
    apply hdisjoint (List.mem_reverse.mp hmem)
    rw [List.drop_eq_getElem_cons hlt, hget]
    exact List.mem_cons_self
  have hcons : index :: (indices.take offset).reverse = (indices.take (offset + 1)).reverse := by
    rw [List.take_succ_eq_append_getElem hlt, hget, List.reverse_append]
    rfl
  rw [← hcons]
  exact h.draw hmem hnew

theorem InRound.next (h : InRound n s rounds results) (hnext : Next s index s') :
    ∃ rounds, InRound n s' rounds (index :: results) := by
  have hlength := h.length_eq
  cases hnext with
  | read hoffset hindex =>
    obtain ⟨hlt, -⟩ := List.getElem?_eq_some_iff.mp hindex
    rw [hlength] at hlt
    exact ⟨rounds, h.perm, hlt, draws_read h.perm h.inRounds hindex⟩
  | @reshuffle values random hoffset hvalues hindex =>
    have hperm := (Arrangements.arrange_perm values s.indices).trans h.perm
    have hclosed : Rounds.Draws (List.range n) (rounds + 1) [] results := by
      have hround := h.inRounds
      rw [hoffset, List.take_length] at hround
      exact hround.close ((List.reverse_perm _).trans h.perm)
    obtain ⟨hlt, -⟩ := List.getElem?_eq_some_iff.mp hindex
    rw [hperm.length_eq, List.length_range] at hlt
    exact ⟨rounds + 1, hperm, hlt, draws_read hperm hclosed hindex⟩

theorem inRound_of_isNew (h : IsNew n s) : InRound n s 0 [] := by
  obtain ⟨values, -, hindices, hoffset⟩ := h
  constructor
  · rw [hindices]
    exact Arrangements.arrange_perm _ _
  · rw [hoffset]
    exact Nat.zero_le n
  · rw [hoffset]
    exact .start

theorem Results.inRound {s₀ : ShuffleState} (h : Results s₀ results s) (hs₀ : IsNew n s₀) :
    ∃ rounds, InRound n s rounds results := by
  induction h with
  | refl => exact ⟨0, inRound_of_isNew hs₀⟩
  | next _ hnext ih =>
    obtain ⟨rounds, hround⟩ := ih
    exact hround.next hnext

/-- The state of `next` when it reads an index, if the reshuffle draws `values`. -/
def prepared (s : ShuffleState) (values : List ℕ) : ShuffleState :=
  if s.offset = s.indices.length then { s with indices := arrange values s.indices, offset := 0 }
  else s

/-- A call can only not return because a draw does not. -/
theorem InRound.next_eq_none (h : InRound n s rounds results) (hn : 1 ≤ n)
    (hnone : s.next = none) : s.offset = n ∧ draws (n - 1) s.randomState = none := by
  have hlength := h.length_eq
  unfold ShuffleState.next at hnone
  split at hnone
  · rename_i hoffset
    refine ⟨hoffset.trans hlength, ?_⟩
    rw [reshuffle_eq, hlength] at hnone
    cases hdraws : draws (n - 1) s.randomState with
    | none => rfl
    | some result =>
      have hlt : 0 < (arrange result.1 s.indices).length := by
        rw [(Arrangements.arrange_perm _ _).length_eq]
        omega
      rw [hdraws] at hnone
      simp [List.getElem?_eq_getElem hlt] at hnone
  · rename_i hoffset
    have hle := h.offset_le
    have hlt : s.offset < s.indices.length := by omega
    simp [List.getElem?_eq_getElem hlt] at hnone

/-- Whatever is drawn, the results of `next` are one round after the other. -/
theorem results_in_rounds {s₀ : ShuffleState} (hn : 1 ≤ n) (hs₀ : IsNew n s₀)
    (h : Results s₀ results s) :
    (∀ k, (k + 1) * n ≤ results.length →
      ((results.reverse.drop (k * n)).take n).Perm (List.range n)) ∧
    (∀ m ≤ results.length, ∀ index < n,
      (results.reverse.take m).count index = m / n ∨
        (results.reverse.take m).count index = (m + (n - 1)) / n) ∧
    (∀ index ∈ results, index < n) ∧ s.indices.length = n ∧ s.offset ≤ n ∧
    (∀ values, (s.prepared values).offset < (s.prepared values).indices.length) ∧
    (s.next = none → s.offset = n ∧ draws (n - 1) s.randomState = none) ∧
    (∀ index s', s.next = some (index, s') → Next s index s') ∧
    ∀ seed s₁, (new n seed).reshuffle = some s₁ → IsNew n s₁ := by
  obtain ⟨rounds, hround⟩ := h.inRound hs₀
  have hlength := hround.length_eq
  have hdraws := hround.inRounds
  have hall : List.range n ≠ [] := by
    intro hnil
    have hzero := congrArg List.length hnil
    rw [List.length_range, List.length_nil] at hzero
    omega
  refine ⟨?_, ?_, ?_, hlength, hround.offset_le, ?_, hround.next_eq_none hn, ?_, ?_⟩
  · intro k hk
    have hblock := hdraws.block_perm hall (k := k) (by rwa [List.length_range])
    rwa [List.length_range] at hblock
  · intro m hm index hindex
    obtain ⟨rounds', current, hfirst⟩ := hdraws.drop (results.length - m)
    have htake : results.reverse.take m = (results.drop (results.length - m)).reverse := by
      rw [List.take_reverse]
    have hmem := List.mem_range.mpr hindex
    have hbounds := hfirst.count_bounds List.nodup_range hmem
    have hceil := hfirst.count_le_ceil List.nodup_range hmem
    have hcard : (results.drop (results.length - m)).length = m := by
      rw [List.length_drop]
      omega
    rw [List.length_range, hcard] at hbounds hceil
    rw [htake, List.count_reverse]
    have hstep : (m + (n - 1)) / n ≤ m / n + 1 := by
      rw [Nat.div_le_iff_le_mul_add_pred hn, Nat.mul_add, Nat.mul_one]
      have hdiv := Nat.div_add_mod m n
      have hmod := Nat.mod_lt m hn
      omega
    omega
  · intro index hindex
    have hmem := hdraws.drawn_subset hindex
    exact List.mem_range.mp hmem
  · intro values
    have hle := hround.offset_le
    unfold prepared
    split
    · have harranged := (Arrangements.arrange_perm values s.indices).length_eq
      show 0 < (arrange values s.indices).length
      omega
    · rename_i hoffset
      omega
  · intro index s' hnext
    exact next_of_some hnext
  · intro seed s₁ hs₁
    exact isNew_of_reshuffle hs₁

/-- Two indices, read once and reshuffled to the same order. -/
theorem results_in_rounds_two :
    (([1, 0, 1].reverse.drop (0 * 2)).take 2).Perm (List.range 2) := by
  have hnew : IsNew 2 ⟨[1, 0], 0, 7⟩ :=
    ⟨[0], Arrangements.cons_mem_drawn.mpr ⟨by decide, Arrangements.mem_drawn_zero.mpr rfl⟩, rfl,
      rfl⟩
  have hsame : [1] ∈ drawn 1 :=
    Arrangements.cons_mem_drawn.mpr ⟨by decide, Arrangements.mem_drawn_zero.mpr rfl⟩
  have hresults : Results ⟨[1, 0], 0, 7⟩ [1, 0, 1] ⟨[1, 0], 1, 8⟩ :=
    ((Results.refl.next (.read (by decide) rfl)).next (.read (by decide) rfl)).next
      (@Next.reshuffle ⟨[1, 0], 2, 7⟩ 1 [1] 8 rfl hsame rfl)
  exact (results_in_rounds (by decide) hnew hresults).1 0 (by decide)

end Rload.ShuffleState
