import Rload.Turns

/-!
# What turns do to counters, limits and queues

The parts of a desk that a turn changes, one lemma for each part: the summary, the progress
of the connection towards its limit, and whether the connection is still active.
-/

namespace Rload
open StatefulPrograms

namespace Connection

/-- How far the connection is with its limit. -/
structure Progress where
  limit : ConnectionLimit
  completed : ℕ
  done : Bool

def progress (c : Connection) : Progress := ⟨c.limit, c.completed, c.done⟩

variable {c c' : Connection}

theorem Reopens.progress_eq {assign : Connection → Connection} {w w' : World}
    (h : Reopens assign w c c' w') (hassign : ∀ c, (assign c).progress = c.progress) :
    c'.progress = c.progress := by
  obtain ⟨addressIndex, now, -, -, rfl⟩ := h
  exact hassign c

theorem ComesBack.progress_eq {assign : Connection → Connection} {k : ℕ} {w w' : World}
    (h : ComesBack assign k w c c' w')
    (hassign : assign = toRetry ∨ assign = toRecover) :
    c'.progress = c.progress := by
  obtain ⟨tried, made, limited, -, hopen⟩ := h.reopens
  apply hopen.progress_eq
  intro c
  cases hassign with
  | inl h => rw [h]; rfl
  | inr h => rw [h]; rfl

theorem progress_of_frame (h : c'.frame = c.frame) : c'.progress = c.progress := by
  have hprogress := congrArg progress h
  exact hprogress

theorem GoesOn.progress_eq {drawn : Drawn} {w w' : World} (h : GoesOn drawn w c c' w') :
    c'.progress = { c.progress with completed := c.progress.completed + 1 } := by
  cases h with
  | reopened h => exact h.progress_eq fun _ => rfl
  | reused h => exact progress_of_frame h.kept

end Connection

namespace Desk
open Connection

variable {token timeout : ℕ} {n : FailureCounts} {d d₁ d' : Desk}

theorem Touches.progress_eq (h : Touches d n d₁) :
    d₁.connection.progress = d.connection.progress := progress_of_frame h.kept

/-- Only `read_bytes` is counted. -/
theorem Touches.summary_eq (h : Touches d n d₁) :
    { d₁.summary with readBytes := 0 } = { d.summary with readBytes := 0 } := by
  induction h with
  | refl => rfl
  | exchange _ hx hw ih => exact ih
  | read _ hr hw ih => exact ih

theorem Touches.active_eq (h : Touches d n d₁) : d₁.active = d.active := by
  induction h with
  | refl => rfl
  | exchange _ hx hw ih => exact ih
  | read _ hr hw ih => exact ih

theorem Touches.deadlines_eq (h : Touches d n d₁) : d₁.deadlines = d.deadlines := by
  induction h with
  | refl => rfl
  | exchange _ hx hw ih => exact ih
  | read _ hr hw ih => exact ih

end Desk

end Rload
