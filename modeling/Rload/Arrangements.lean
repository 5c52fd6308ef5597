import Rload.ListSwaps
import Mathlib.Data.List.Nodup
import Mathlib.Probability.Distributions.Uniform

/-!
# Arranging a list by swaps

From the last position down to the second, the element at the position is swapped with the one
that is drawn for it, which is not after it. The draws of a list without duplicates correspond
to its orders.
-/

namespace Arrangements

variable {α : Type*}

variable {l : List α} {i j : ℕ}

/-- The draws for the positions from the number of draws down to 1. -/
def arrange : List ℕ → List α → List α
  | [], l => l
  | d :: draws, l => arrange draws (swap l (draws.length + 1) d)

/-- No draw is after its position. -/
def Bounded : List ℕ → Prop
  | [] => True
  | d :: draws => d ≤ draws.length + 1 ∧ Bounded draws

/-- What can be drawn for the positions from `last` down to 1. -/
def drawn (last : ℕ) : Set (List ℕ) := {draws | draws.length = last ∧ Bounded draws}

variable {draws : List ℕ} {d last : ℕ}

theorem mem_drawn_zero : draws ∈ drawn 0 ↔ draws = [] := by
  constructor
  · rintro ⟨hlength, -⟩
    exact List.length_eq_zero_iff.mp hlength
  · rintro rfl
    exact ⟨rfl, trivial⟩

theorem cons_mem_drawn : d :: draws ∈ drawn (last + 1) ↔ d ≤ last + 1 ∧ draws ∈ drawn last := by
  constructor
  · rintro ⟨hlength, hd, hbounded⟩
    have hlast : draws.length = last := Nat.succ.inj hlength
    exact ⟨hlast ▸ hd, hlast, hbounded⟩
  · rintro ⟨hd, hlast, hbounded⟩
    exact ⟨congrArg Nat.succ hlast, hlast.symm ▸ hd, hbounded⟩

theorem exists_cons_of_mem_drawn (h : draws ∈ drawn (last + 1)) :
    ∃ d rest, draws = d :: rest ∧ d ≤ last + 1 ∧ rest ∈ drawn last := by
  cases draws with
  | nil => exact absurd h.1 (by simp)
  | cons d rest => exact ⟨d, rest, rfl, cons_mem_drawn.mp h⟩

theorem arrange_perm (draws : List ℕ) (l : List α) : (arrange draws l).Perm l := by
  induction draws generalizing l with
  | nil => exact List.Perm.refl l
  | cons d draws ih => exact (ih _).trans (swap_perm l _ d)

theorem drop_arrange (h : draws ∈ drawn last) (hlast : last < l.length) :
    (arrange draws l).drop (last + 1) = l.drop (last + 1) := by
  induction last generalizing draws l with
  | zero =>
    rw [mem_drawn_zero.mp h]
    rfl
  | succ last ih =>
    obtain ⟨d, rest, rfl, hd, hrest⟩ := exists_cons_of_mem_drawn h
    have hlength : rest.length = last := hrest.1
    rw [arrange, hlength, ← List.drop_drop, ih hrest (by rw [length_swap]; omega),
      List.drop_drop, drop_swap hlast hd]

/-- The element at the last position is the one drawn for it. -/
theorem getElem?_arrange (hd : d ≤ last + 1) (h : draws ∈ drawn last)
    (hlast : last + 1 < l.length) : (arrange (d :: draws) l)[last + 1]? = l[d]? := by
  have hlength : draws.length = last := h.1
  have hdrop := drop_arrange h (show last < (swap l (last + 1) d).length by
    rw [length_swap]
    omega)
  have hhead := congrArg List.head? hdrop
  rw [List.head?_drop, List.head?_drop, getElem?_swap_left hlast (by omega)] at hhead
  rw [arrange, hlength, hhead]

/-- The draws can be read off the order they lead to. -/
theorem arrange_injOn (hnodup : l.Nodup) (hlast : last < l.length) :
    Set.InjOn (fun draws => arrange draws l) (drawn last) := by
  induction last generalizing l with
  | zero =>
    intro draws h draws' h' _
    rw [mem_drawn_zero.mp h, mem_drawn_zero.mp h']
  | succ last ih =>
    intro draws h draws' h' heq
    obtain ⟨d, rest, rfl, hd, hrest⟩ := exists_cons_of_mem_drawn h
    obtain ⟨d', rest', rfl, hd', hrest'⟩ := exists_cons_of_mem_drawn h'
    have heads : d = d' := by
      have hget : l[d]? = l[d']? := by
        rw [← getElem?_arrange hd hrest hlast, ← getElem?_arrange hd' hrest' hlast]
        exact congrArg (·[last + 1]?) heq
      exact (List.getElem?_inj (by omega) hnodup).mp hget
    subst heads
    have hrests : rest = rest' := by
      have hlength : rest.length = last := hrest.1
      have hlength' : rest'.length = last := hrest'.1
      have hswapped : (swap l (last + 1) d).Nodup := (swap_perm l _ d).nodup_iff.mpr hnodup
      apply ih hswapped (by rw [length_swap]; omega) hrest hrest'
      simpa only [arrange, hlength, hlength'] using heq
    rw [hrests]

/-- Every order that keeps what comes after the last position is drawn. -/
theorem exists_arrange (hnodup : l.Nodup) (hlast : last < l.length) {order : List α}
    (hperm : order.Perm l) (hdrop : order.drop (last + 1) = l.drop (last + 1)) :
    ∃ draws ∈ drawn last, arrange draws l = order := by
  induction last generalizing l with
  | zero =>
    refine ⟨[], mem_drawn_zero.mpr rfl, ?_⟩
    cases l with
    | nil => exact (List.perm_nil.mp hperm).symm
    | cons a l =>
      cases order with
      | nil => exact absurd hperm.length_eq (by simp)
      | cons b order =>
        have htails : order = l := hdrop
        subst htails
        have hheads : [b].Perm [a] := (List.perm_append_right_iff order).mp hperm
        rw [List.head_eq_of_cons_eq (List.perm_singleton.mp hheads)]
        rfl
  | succ last ih =>
    have horder : last + 1 < order.length := by rwa [hperm.length_eq]
    obtain ⟨d, hd, hget⟩ := List.getElem_of_mem (hperm.subset (List.getElem_mem horder))
    -- The element cannot be among those that stay, since none occurs twice.
    have hle : d ≤ last + 1 := by
      by_contra hlt
      have hget' : l[d]? = order[d]? := by
        have hmoved := congrArg (·[d - (last + 1 + 1)]?) hdrop
        rw [List.getElem?_drop, List.getElem?_drop] at hmoved
        rw [show d = last + 1 + 1 + (d - (last + 1 + 1)) by omega]
        exact hmoved.symm
      rw [List.getElem?_eq_getElem hd, hget, ← List.getElem?_eq_getElem horder] at hget'
      have hsame := (List.getElem?_inj horder (hperm.nodup_iff.mpr hnodup)).mp hget'
      omega
    have hswapped : (swap l (last + 1) d).drop (last + 1) = order.drop (last + 1) := by
      have hlength : last + 1 < (swap l (last + 1) d).length := by rwa [length_swap]
      have hfirst : (swap l (last + 1) d)[last + 1] = order[last + 1] := by
        have hleft := getElem?_swap_left hlast hd
        rw [List.getElem?_eq_getElem hlength, List.getElem?_eq_getElem hd, hget] at hleft
        exact Option.some.inj hleft
      rw [List.drop_eq_getElem_cons hlength, List.drop_eq_getElem_cons horder, hfirst,
        drop_swap hlast hle, hdrop]
    obtain ⟨draws, hdraws, harrange⟩ := ih ((swap_perm l _ d).nodup_iff.mpr hnodup)
      (by rw [length_swap]; omega) (hperm.trans (swap_perm l _ d).symm) hswapped.symm
    refine ⟨d :: draws, cons_mem_drawn.mpr ⟨hle, hdraws⟩, ?_⟩
    rw [arrange, hdraws.1]
    exact harrange

/-- The draws for a whole list correspond to its orders. -/
theorem arrange_bijOn (hnodup : l.Nodup) (hlast : l.length = last + 1) :
    Set.BijOn (fun draws => arrange draws l) (drawn last) {order | order.Perm l} := by
  refine ⟨?_, arrange_injOn hnodup (by omega), ?_⟩
  · intro draws _
    exact arrange_perm draws l
  · intro order hperm
    have hlength : order.length = last + 1 := (List.Perm.length_eq hperm).trans hlast
    have hdrop : order.drop (last + 1) = l.drop (last + 1) := by
      rw [List.drop_of_length_le (by omega), List.drop_of_length_le (by omega)]
    exact exists_arrange hnodup (by omega) hperm hdrop

/-- Each draw is uniform among the positions up to its own, independently of the others. -/
noncomputable def uniformDraws : ℕ → PMF (List ℕ)
  | 0 => PMF.pure []
  | last + 1 =>
    (PMF.uniformOfFinset (Finset.range (last + 2)) (Finset.nonempty_range_iff.mpr (by simp))).bind
      fun d => (uniformDraws last).map (d :: ·)

theorem uniformDraws_cons (d : ℕ) (draws : List ℕ) :
    uniformDraws (last + 1) (d :: draws) =
      (if d ≤ last + 1 then ((last + 2 : ℕ) : ENNReal)⁻¹ else 0) * uniformDraws last draws := by
  rw [uniformDraws, PMF.bind_apply, tsum_eq_single d]
  · congr 1
    · rw [PMF.uniformOfFinset_apply, Finset.card_range]
      simp only [Finset.mem_range, Nat.lt_succ_iff]
    · rw [PMF.map_apply, tsum_eq_single draws]
      · simp
      · intro rest hne
        simp [hne.symm]
  · intro d' hne
    rw [PMF.map_apply, ENNReal.tsum_eq_zero.mpr, mul_zero]
    intro rest
    rw [if_neg]
    intro heq
    exact hne (List.head_eq_of_cons_eq heq).symm

theorem uniformDraws_of_mem (h : draws ∈ drawn last) :
    uniformDraws last draws = ((last + 1).factorial : ENNReal)⁻¹ := by
  induction last generalizing draws with
  | zero =>
    rw [mem_drawn_zero.mp h]
    simp [uniformDraws]
  | succ last ih =>
    obtain ⟨d, rest, rfl, hd, hrest⟩ := exists_cons_of_mem_drawn h
    rw [uniformDraws_cons, if_pos hd, ih hrest, Nat.factorial_succ (last + 1), Nat.cast_mul,
      ENNReal.mul_inv (.inr (by simp)) (.inl (by simp))]

theorem uniformDraws_of_notMem (h : draws ∉ drawn last) : uniformDraws last draws = 0 := by
  induction last generalizing draws with
  | zero =>
    rw [mem_drawn_zero] at h
    simp [uniformDraws, h]
  | succ last ih =>
    cases draws with
    | nil => simp [uniformDraws]
    | cons d rest =>
      rw [uniformDraws_cons]
      by_cases hd : d ≤ last + 1
      · have hrest : rest ∉ drawn last := fun hrest => h (cons_mem_drawn.mpr ⟨hd, hrest⟩)
        rw [ih hrest, mul_zero]
      · rw [if_neg hd, zero_mul]

/-- With uniform draws every order is as likely as the others. -/
theorem map_arrange_apply (hnodup : l.Nodup) (hlast : l.length = last + 1) {order : List α}
    (hperm : order.Perm l) :
    (uniformDraws last).map (fun draws => arrange draws l) order =
      (l.length.factorial : ENNReal)⁻¹ := by
  classical
  have hbij := arrange_bijOn hnodup hlast
  obtain ⟨draws, hdraws, heq⟩ := hbij.surjOn hperm
  have heq : arrange draws l = order := heq
  rw [PMF.map_apply, tsum_eq_single draws, if_pos heq.symm, uniformDraws_of_mem hdraws, hlast]
  intro draws' hne
  split
  · rename_i horder
    apply uniformDraws_of_notMem
    intro hdraws'
    exact hne (hbij.injOn hdraws' hdraws (horder.symm.trans heq.symm))
  · rfl

end Arrangements
