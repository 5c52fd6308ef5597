import Mathlib.Algebra.Order.Floor.Div
import Mathlib.Data.List.Forall2
import Mathlib.Data.List.Iterate
import Mathlib.Order.Lattice

/-!
# Slots with a rest after each

A pacer gives every caller a slot that is neither before the time of the call nor before the
rest after the slot given last. How long the rest is depends on the slot alone.
-/

namespace PacedSlots

/-- The slots for calls at the given times, the first of them not before `next`. -/
def slots (after : ℕ → ℕ) : ℕ → List ℕ → List ℕ
  | _, [] => []
  | next, now :: nows => max next now :: slots after (after (max next now)) nows

/-- No call comes later than the slot that it could have had. -/
def OnTime (after : ℕ → ℕ) : ℕ → List ℕ → Prop
  | _, [] => True
  | next, now :: nows => now ≤ next ∧ OnTime after (after next) nows

variable {after : ℕ → ℕ} {next : ℕ} {nows : List ℕ}

theorem now_le_slots (next : ℕ) (nows : List ℕ) :
    List.Forall₂ (· ≤ ·) nows (slots after next nows) := by
  induction nows generalizing next with
  | nil => exact .nil
  | cons now nows ih => exact .cons (le_max_right next now) (ih _)

theorem next_le_of_mem_slots (hafter : ∀ a, a ≤ after a) {slot : ℕ}
    (h : slot ∈ slots after next nows) : next ≤ slot := by
  induction nows generalizing next with
  | nil => cases h
  | cons now nows ih =>
    obtain rfl | h := List.mem_cons.mp h
    · exact le_max_left next now
    · exact (le_max_left next now).trans ((hafter _).trans (ih h))

/-- A slot rests before all that come after it. -/
theorem pairwise_slots (hafter : ∀ a, a ≤ after a) (next : ℕ) (nows : List ℕ) :
    (slots after next nows).Pairwise fun a b => after a ≤ b := by
  induction nows generalizing next with
  | nil => exact .nil
  | cons now nows ih => exact .cons (fun b hb => next_le_of_mem_slots hafter hb) (ih _)

theorem OnTime.slots (h : OnTime after next nows) :
    slots after next nows = List.iterate after next nows.length := by
  induction nows generalizing next with
  | nil => rfl
  | cons now nows ih =>
    have hslot : max next now = next := max_eq_left h.1
    rw [PacedSlots.slots, hslot, ih h.2]
    rfl

/-- Slots that a gap separates are few in a window. -/
theorem length_mul_lt {gap low high : ℕ} {l : List ℕ} (hlow : low < high + gap)
    (h : l.Pairwise fun a b => a + gap ≤ b) (hwindow : ∀ a ∈ l, low ≤ a ∧ a < high) :
    low + l.length * gap < high + gap := by
  induction l generalizing low with
  | nil => simpa using hlow
  | cons a l ih =>
    obtain ⟨hrest, hpairs⟩ := List.pairwise_cons.mp h
    obtain ⟨ha, htail⟩ := List.forall_mem_cons.mp hwindow
    have hnext : low + gap < high + gap := by omega
    have hl := ih hnext hpairs fun b hb => ⟨(Nat.add_le_add_right ha.1 gap).trans (hrest b hb),
      (htail b hb).2⟩
    rw [List.length_cons, Nat.succ_mul]
    omega

/-- Those in a window of the given width, when any two there are separated by the gap. -/
theorem length_window_mul_lt {gap : ℕ} (low width : ℕ) {l : List ℕ}
    (h : l.Pairwise fun a b => low ≤ a → b < low + width → a + gap ≤ b) (hgap : 0 < gap) :
    (l.filter fun a => low ≤ a ∧ a < low + width).length * gap < width + gap := by
  have hwindow : ∀ a ∈ l.filter fun a => low ≤ a ∧ a < low + width, low ≤ a ∧ a < low + width :=
    fun a ha => of_decide_eq_true (List.mem_filter.mp ha).2
  have hspaced : (l.filter fun a => low ≤ a ∧ a < low + width).Pairwise fun a b => a + gap ≤ b := by
    refine List.Pairwise.imp_of_mem ?_ (h.filter _)
    intro a b ha hb hab
    exact hab (hwindow a ha).1 (hwindow b hb).2
  have hlength := length_mul_lt (by omega) hspaced hwindow
  omega

/-- The iterates are a list in which each element is the one after the element before. -/
theorem iterate_eq_of_isChain {l : List ℕ} (h : (next :: l).IsChain fun a b => after a = b) :
    List.iterate after next (l.length + 1) = next :: l := by
  induction l generalizing next with
  | nil => rfl
  | cons b l ih =>
    obtain ⟨rfl, hrest⟩ := List.isChain_cons_cons.mp h
    rw [List.length_cons, List.iterate, ih hrest]

end PacedSlots
