import Mathlib.Logic.Basic
import Mathlib.Order.Basic

/-!
# Programs over a state that errors do not undo

A program of `EStateM ε σ` reads and writes a state of type `σ` and may end by an error of
type `ε`, which keeps what was written. `Ensures m s Q E` says what holds when `m` is started
in `s`: `Q` of the result and the new state, or `E` of the error and the new state. One rule
for each way of putting programs together.
-/

namespace Rload.StatefulPrograms

variable {ε σ τ α β : Type}

def Ensures (m : EStateM ε σ α) (s : σ) (Q : α → σ → Prop) (E : ε → σ → Prop) : Prop :=
  match m s with
  | .ok a s' => Q a s'
  | .error e s' => E e s'

section Rules

variable {m : EStateM ε σ α} {s : σ} {Q Q' : α → σ → Prop} {E E' : ε → σ → Prop}

theorem Ensures.mono (h : Ensures m s Q E) (hQ : ∀ a s', Q a s' → Q' a s')
    (hE : ∀ e s', E e s' → E' e s') : Ensures m s Q' E' := by
  unfold Ensures at h ⊢
  cases hm : m s with
  | ok a s' =>
    rw [hm] at h
    exact hQ a s' h
  | error e s' =>
    rw [hm] at h
    exact hE e s' h

theorem Ensures.and (h : Ensures m s Q E) (h' : Ensures m s Q' E') :
    Ensures m s (fun a s' => Q a s' ∧ Q' a s') fun e s' => E e s' ∧ E' e s' := by
  unfold Ensures at h h' ⊢
  cases hm : m s with
  | ok a s' =>
    rw [hm] at h h'
    exact ⟨h, h'⟩
  | error e s' =>
    rw [hm] at h h'
    exact ⟨h, h'⟩

theorem Ensures.of_ok (h : Ensures m s Q E) {a : α} {s' : σ} (hm : m s = .ok a s') :
    Q a s' := by
  rwa [Ensures, hm] at h

theorem Ensures.of_error (h : Ensures m s Q E) {e : ε} {s' : σ} (hm : m s = .error e s') :
    E e s' := by
  rwa [Ensures, hm] at h

@[simp] theorem ensures_pure {a : α} : Ensures (pure a) s Q E ↔ Q a s := Iff.rfl

@[simp] theorem ensures_bind {f : α → EStateM ε σ β} {Q : β → σ → Prop} :
    Ensures (m >>= f) s Q E ↔ Ensures m s (fun a s' => Ensures (f a) s' Q E) E := by
  have hbind : (m >>= f) s = EStateM.bind m f s := rfl
  unfold Ensures
  rw [hbind, EStateM.bind]
  cases m s with
  | ok a s' => rfl
  | error e s' => rfl

@[simp] theorem ensures_get {Q : σ → σ → Prop} :
    Ensures (get : EStateM ε σ σ) s Q E ↔ Q s s := Iff.rfl

@[simp] theorem ensures_modify {f : σ → σ} {Q : PUnit → σ → Prop} :
    Ensures (modify f : EStateM ε σ PUnit) s Q E ↔ Q ⟨⟩ (f s) := Iff.rfl

@[simp] theorem ensures_throw {e : ε} : Ensures (throw e) s Q E ↔ E e s := Iff.rfl

@[simp] theorem ensures_ite {c : Prop} [Decidable c] {n : EStateM ε σ α} :
    Ensures (if c then m else n) s Q E ↔
      (c → Ensures m s Q E) ∧ (¬ c → Ensures n s Q E) := by
  split <;> simp [*]

end Rules

/-- Programs that go on in the same way after each result that there is. -/
theorem bind_congr_of_ok {m : EStateM ε σ α} {f g : α → EStateM ε σ β} {s : σ}
    (h : ∀ a s', m s = .ok a s' → f a s' = g a s') : (m >>= f) s = (m >>= g) s := by
  have hbind : ∀ f : α → EStateM ε σ β, (m >>= f) s = EStateM.bind m f s := fun _ => rfl
  rw [hbind, hbind, EStateM.bind, EStateM.bind]
  cases hm : m s with
  | ok a s' => exact h a s' hm
  | error e s' => rfl

/-- The program runs on a part of a larger state. -/
def zoom (view : σ → τ) (put : τ → σ → σ) (m : EStateM ε τ α) : EStateM ε σ α := fun s =>
  match m (view s) with
  | .ok a t => .ok a (put t s)
  | .error e t => .error e (put t s)

@[simp] theorem ensures_zoom {view : σ → τ} {put : τ → σ → σ} {m : EStateM ε τ α} {s : σ}
    {Q : α → σ → Prop} {E : ε → σ → Prop} :
    Ensures (zoom view put m) s Q E ↔
      Ensures m (view s) (fun a t => Q a (put t s)) fun e t => E e (put t s) := by
  unfold Ensures zoom
  cases m (view s) with
  | ok a t => rfl
  | error e t => rfl

/-- The errors that `catches` accepts become results, the others pass. -/
def attempt {δ : Type} (catches : ε → Option δ) (m : EStateM ε σ α) :
    EStateM ε σ (Except δ α) := fun s =>
  match m s with
  | .ok a s' => .ok (.ok a) s'
  | .error e s' =>
    match catches e with
    | some d => .ok (.error d) s'
    | none => .error e s'

theorem ensures_attempt {δ : Type} {catches : ε → Option δ} {m : EStateM ε σ α} {s : σ}
    {Q : Except δ α → σ → Prop} {E : ε → σ → Prop}
    (h : Ensures m s (fun a s' => Q (.ok a) s') fun e s' =>
      (∀ d, catches e = some d → Q (.error d) s') ∧ (catches e = none → E e s')) :
    Ensures (attempt catches m) s Q E := by
  unfold Ensures attempt
  unfold Ensures at h
  cases hm : m s with
  | ok a s' =>
    rw [hm] at h
    exact h
  | error e s' =>
    rw [hm] at h
    cases hc : catches e with
    | some d =>
      simp only [hc]
      exact h.1 d hc
    | none =>
      simp only [hc]
      exact h.2 hc

/-- Started in a state of `I`, the program gives its result in a state of `I` or an error in a
state of `E`. -/
def KeepsOr (I : σ → Prop) (m : EStateM ε σ α) (E : σ → Prop) : Prop :=
  ∀ s, I s → Ensures m s (fun _ s' => I s') fun _ s' => E s'

/-- Errors may leave any state. -/
abbrev Keeps (I : σ → Prop) (m : EStateM ε σ α) : Prop := KeepsOr I m fun _ => True

namespace KeepsOr

variable {I E : σ → Prop}

theorem pure (a : α) : KeepsOr I (Pure.pure a : EStateM ε σ α) E := fun _ h => h

theorem throw (e : ε) : Keeps I (MonadExcept.throw e : EStateM ε σ α) := fun _ _ => ⟨⟩

theorem throw_of (hE : ∀ s, I s → E s) (e : ε) :
    KeepsOr I (MonadExcept.throw e : EStateM ε σ α) E := hE

theorem bind {m : EStateM ε σ α} {f : α → EStateM ε σ β} (hm : KeepsOr I m E)
    (hf : ∀ a, KeepsOr I (f a) E) : KeepsOr I (m >>= f) E := by
  intro s hs
  rw [ensures_bind]
  exact (hm s hs).mono (fun a s' h => hf a s' h) fun _ _ h => h

theorem ite {c : Prop} [Decidable c] {m n : EStateM ε σ α} (hm : KeepsOr I m E)
    (hn : KeepsOr I n E) : KeepsOr I (if c then m else n) E := by
  split
  · exact hm
  · exact hn

theorem modify {f : σ → σ} (h : ∀ s, I s → I (f s)) :
    KeepsOr I (modify f : EStateM ε σ PUnit) E := h

theorem zoom {J F : τ → Prop} {view : σ → τ} {put : τ → σ → σ} {m : EStateM ε τ α}
    (hview : ∀ s, I s → J (view s)) (hput : ∀ s t, I s → J t → I (put t s))
    (herror : ∀ s t, I s → F t → E (put t s)) (hm : KeepsOr J m F) :
    KeepsOr I (zoom view put m) E := by
  intro s hs
  rw [ensures_zoom]
  exact (hm (view s) (hview s hs)).mono (fun _ t ht => hput s t hs ht)
    fun _ t ht => herror s t hs ht

/-- The errors that are caught are left in a state of `I`. -/
theorem attempt {δ : Type} {catches : ε → Option δ} {m : EStateM ε σ α}
    (hm : ∀ s, I s → Ensures m s (fun _ s' => I s') fun e s' =>
      (∀ d, catches e = some d → I s') ∧ (catches e = none → E s')) :
    KeepsOr I (attempt catches m) E := by
  intro s hs
  exact ensures_attempt (hm s hs)

/-- A branch that may deal with everything comes before the rest. -/
theorem branch {dealing : EStateM ε σ Bool} {rest : EStateM ε σ α} (b : Bool) (a : α)
    (hdealing : KeepsOr I dealing E) (hrest : KeepsOr I rest E) :
    KeepsOr I (do if ← if b then dealing else Pure.pure false then Pure.pure a else rest) E :=
  ite (bind hdealing fun _ => ite (pure a) hrest) (bind (pure false) fun _ => ite (pure a) hrest)

end KeepsOr

/-- `I` is kept throughout, and a state that looks like `p` is left by a result for which the
new state looks as `Q` says. -/
def Leads {ρ : Type} (I : σ → Prop) (look : σ → ρ) (p : ρ) (m : EStateM ε σ α)
    (Q : α → ρ → Prop) : Prop :=
  ∀ s, I s → look s = p → Ensures m s (fun a s' => I s' ∧ Q a (look s')) fun _ s' => I s'

namespace Leads

variable {ρ : Type} {I : σ → Prop} {look : σ → ρ} {p : ρ} {m : EStateM ε σ α}
  {Q Q' : α → ρ → Prop}

theorem pure {a : α} (h : Q a p) : Leads I look p (Pure.pure a : EStateM ε σ α) Q := by
  intro s hs hp
  rw [ensures_pure, hp]
  exact ⟨hs, h⟩

theorem throw (e : ε) : Leads I look p (MonadExcept.throw e : EStateM ε σ α) Q :=
  fun _ hs _ => hs

theorem mono (h : Leads I look p m Q) (hQ : ∀ a p', Q a p' → Q' a p') : Leads I look p m Q' := by
  intro s hs hp
  exact (h s hs hp).mono (fun a s' h => ⟨h.1, hQ a _ h.2⟩) fun _ _ h => h

theorem bind {f : α → EStateM ε σ β} {R : β → ρ → Prop} (hm : Leads I look p m Q)
    (hf : ∀ a p', Q a p' → Leads I look p' (f a) R) : Leads I look p (m >>= f) R := by
  intro s hs hp
  rw [ensures_bind]
  exact (hm s hs hp).mono (fun a s' h => hf a _ h.2 s' h.1 rfl) fun _ _ h => h

/-- The first part leaves one view. -/
theorem next {f : α → EStateM ε σ β} {R : β → ρ → Prop} {p' : ρ}
    (hm : Leads I look p m fun _ q => q = p') (hf : ∀ a, Leads I look p' (f a) R) :
    Leads I look p (m >>= f) R := by
  refine hm.bind ?_
  rintro a _ rfl
  exact hf a

theorem ite {c : Prop} [Decidable c] {n : EStateM ε σ α} (hm : c → Leads I look p m Q)
    (hn : ¬ c → Leads I look p n Q) : Leads I look p (if c then m else n) Q := by
  split
  · rename_i hc
    exact hm hc
  · rename_i hc
    exact hn hc

/-- The view stays. -/
theorem of_keeps (h : KeepsOr (fun s => I s ∧ look s = p) m I) :
    Leads I look p m fun _ p' => p' = p := fun s hs hp => h s ⟨hs, hp⟩

theorem modify {f : σ → σ} {p' : ρ} (h : ∀ s, I s → look s = p → I (f s) ∧ look (f s) = p') :
    Leads I look p (modify f : EStateM ε σ PUnit) fun _ q => q = p' := h

theorem zoom {J : τ → Prop} {look' : τ → ρ} {view : σ → τ} {put : τ → σ → σ}
    {m : EStateM ε τ α} (hview : ∀ s, I s → J (view s) ∧ look' (view s) = look s)
    (hput : ∀ s t, J t → I (put t s) ∧ look (put t s) = look' t) (hm : Leads J look' p m Q) :
    Leads I look p (zoom view put m) Q := by
  intro s hs hp
  rw [ensures_zoom]
  apply (hm (view s) (hview s hs).1 ((hview s hs).2.trans hp)).mono
  · intro a t h
    rw [(hput s t h.1).2]
    exact ⟨(hput s t h.1).1, h.2⟩
  · intro _ t h
    exact (hput s t h).1

end Leads

end Rload.StatefulPrograms
