import Rload.StatefulPrograms

/-!
# Programs that lower a counter

A counter is a part of the state that a program may subtract from and does not look at. How
much it subtracts then does not depend on the counter, and says whether the counter is large
enough for it: the subtraction of natural numbers alone would not tell.
-/

namespace Rload.StatefulPrograms

variable {ε σ τ α β : Type}

/-- The counter of the state that is left. -/
def setCounter (put : ℕ → σ → σ) (n : ℕ) : EStateM.Result ε σ α → EStateM.Result ε σ α
  | .ok a s => .ok a (put n s)
  | .error e s => .error e (put n s)

/-- Started in `s` with any counter the program subtracts `k` from it. But for the counter the
result is `r`. -/
def Subtracts (put : ℕ → σ → σ) (m : EStateM ε σ α) (s : σ) (k : ℕ)
    (r : EStateM.Result ε σ α) : Prop :=
  ∀ n, m (put n s) = setCounter put (n - k) r

/-- What the program subtracts and what it results in, as `Q` says. -/
def Lowers (put : ℕ → σ → σ) (m : EStateM ε σ α) (s : σ)
    (Q : ℕ → EStateM.Result ε σ α → Prop) : Prop :=
  ∃ k r, Subtracts put m s k r ∧ Q k r

/-- The program leaves the counter alone. -/
def Spares (put : ℕ → σ → σ) (m : EStateM ε σ α) : Prop :=
  ∀ s, Lowers put m s fun k _ => k = 0

variable {put : ℕ → σ → σ} {m : EStateM ε σ α} {s : σ}
  {Q Q' : ℕ → EStateM.Result ε σ α → Prop}

namespace Lowers

theorem mono (h : Lowers put m s Q) (hQ : ∀ k r, Q k r → Q' k r) : Lowers put m s Q' := by
  obtain ⟨k, r, hm, hr⟩ := h
  exact ⟨k, r, hm, hQ k r hr⟩

theorem pure {a : α} (h : Q 0 (.ok a s)) : Lowers put (Pure.pure a) s Q :=
  ⟨0, .ok a s, fun _ => rfl, h⟩

theorem throw {e : ε} (h : Q 0 (.error e s)) : Lowers put (MonadExcept.throw e) s Q :=
  ⟨0, .error e s, fun _ => rfl, h⟩

theorem bind {f : α → EStateM ε σ β} {R : ℕ → EStateM.Result ε σ β → Prop}
    (hm : Lowers put m s Q)
    (hf : ∀ k a s', Q k (.ok a s') → Lowers put (f a) s' fun j r => R (k + j) r)
    (he : ∀ k e s', Q k (.error e s') → R k (.error e s')) : Lowers put (m >>= f) s R := by
  have hbind : ∀ t, (m >>= f) t = EStateM.bind m f t := fun _ => rfl
  obtain ⟨k, r, hm, hr⟩ := hm
  cases r with
  | error e s' =>
    refine ⟨k, .error e s', fun n => ?_, he k e s' hr⟩
    rw [hbind, EStateM.bind, hm n]
    rfl
  | ok a s' =>
    obtain ⟨j, r, hj, hr⟩ := hf k a s' hr
    refine ⟨k + j, r, fun n => ?_, hr⟩
    rw [hbind, EStateM.bind, hm n, ← Nat.sub_sub]
    exact hj (n - k)

theorem ite {c : Prop} [Decidable c] {n : EStateM ε σ α} (hm : c → Lowers put m s Q)
    (hn : ¬ c → Lowers put n s Q) : Lowers put (if c then m else n) s Q := by
  split
  · rename_i hc
    exact hm hc
  · rename_i hc
    exact hn hc

/-- What leaves the counter alone comes before the rest. -/
theorem after {f : α → EStateM ε σ β} {R : ℕ → EStateM.Result ε σ β → Prop}
    (hm : Spares put m) (hf : ∀ a s', Lowers put (f a) s' R) (he : ∀ e s', R 0 (.error e s')) :
    Lowers put (m >>= f) s R := by
  apply (hm s).bind
  · rintro _ a s' rfl
    exact (hf a s').mono fun k r h => (Nat.zero_add k).symm ▸ h
  · rintro _ e s' rfl
    exact he e s'

end Lowers

namespace Spares

theorem pure (a : α) : Spares put (Pure.pure a : EStateM ε σ α) := fun _ => .pure rfl

theorem throw (e : ε) : Spares put (MonadExcept.throw e : EStateM ε σ α) := fun _ => .throw rfl

theorem bind {f : α → EStateM ε σ β} (hm : Spares put m) (hf : ∀ a, Spares put (f a)) :
    Spares put (m >>= f) := fun _ => .after hm (fun a s' => hf a s') fun _ _ => rfl

theorem ite {c : Prop} [Decidable c] {n : EStateM ε σ α} (hm : Spares put m)
    (hn : Spares put n) : Spares put (if c then m else n) :=
  fun s => .ite (fun _ => hm s) fun _ => hn s

theorem modify {f : σ → σ} (hf : ∀ n s, f (put n s) = put n (f s)) :
    Spares put (modify f : EStateM ε σ PUnit) := fun s =>
  ⟨0, .ok ⟨⟩ (f s), fun n => congrArg (EStateM.Result.ok PUnit.unit) (hf n s), rfl⟩

/-- A program on a part of the state that the counter is no part of. -/
theorem zoom {view : σ → τ} {back : τ → σ → σ} {m : EStateM ε τ α}
    (hview : ∀ n s, view (put n s) = view s)
    (hback : ∀ n t s, back t (put n s) = put n (back t s)) : Spares put (zoom view back m) := by
  intro s
  cases hm : m (view s) with
  | ok a t =>
    refine ⟨0, .ok a (back t s), fun n => ?_, rfl⟩
    simp only [StatefulPrograms.zoom, hview, hm, hback]
    rfl
  | error e t =>
    refine ⟨0, .error e (back t s), fun n => ?_, rfl⟩
    simp only [StatefulPrograms.zoom, hview, hm, hback]
    rfl

end Spares

end Rload.StatefulPrograms
