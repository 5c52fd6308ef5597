import Rload.StatefulPrograms

/-!
# Programs that fail in the expected ways

`Safe I good m Q` says that `m`, started in a state of `I`, leaves a state of `I` in any case. It
gives a result of which `Q` holds, or one of the good errors.
-/

namespace Rload.StatefulPrograms

variable {ε σ τ α β : Type}

def Safe (I : σ → Prop) (good : ε → Prop) (m : EStateM ε σ α) (Q : α → Prop) : Prop :=
  ∀ s, I s → Ensures m s (fun a s' => Q a ∧ I s') fun e s' => good e ∧ I s'

namespace Safe

variable {I : σ → Prop} {good : ε → Prop} {m : EStateM ε σ α} {Q : α → Prop}

theorem pure {a : α} (h : Q a) : Safe I good (Pure.pure a) Q := fun _ hs => ⟨h, hs⟩

theorem throw {e : ε} (h : good e) : Safe I good (MonadExcept.throw e : EStateM ε σ α) Q :=
  fun _ hs => ⟨h, hs⟩

theorem bind {f : α → EStateM ε σ β} {R : β → Prop} (hm : Safe I good m Q)
    (hf : ∀ a, Q a → Safe I good (f a) R) : Safe I good (m >>= f) R := by
  intro s hs
  rw [ensures_bind]
  exact (hm s hs).mono (fun a s' h => hf a h.1 s' h.2) fun _ _ h => h

theorem ite {c : Prop} [Decidable c] {n : EStateM ε σ α} (hm : c → Safe I good m Q)
    (hn : ¬ c → Safe I good n Q) : Safe I good (if c then m else n) Q := by
  split
  · rename_i hc
    exact hm hc
  · rename_i hc
    exact hn hc

theorem modify {f : σ → σ} {Q : PUnit → Prop} (h : ∀ s, I s → I (f s)) (hQ : Q ⟨⟩) :
    Safe I good (modify f : EStateM ε σ PUnit) Q := fun s hs => ⟨hQ, h s hs⟩

theorem zoom {J : τ → Prop} {view : σ → τ} {put : τ → σ → σ} {m : EStateM ε τ α} {Q : α → Prop}
    (hview : ∀ s, I s → J (view s)) (hput : ∀ s t, I s → J t → I (put t s))
    (hm : Safe J good m Q) : Safe I good (zoom view put m) Q := by
  intro s hs
  rw [ensures_zoom]
  exact (hm (view s) (hview s hs)).mono (fun _ t h => ⟨h.1, hput s t hs h.2⟩)
    fun _ t h => ⟨h.1, hput s t hs h.2⟩

/-- The result holds what `Q` says of the results, or an error that is caught. -/
theorem attempt {δ : Type} {catches : ε → Option δ} {R : Except δ α → Prop}
    (hm : Safe I good m Q) (hok : ∀ a, Q a → R (.ok a)) (herror : ∀ d, R (.error d)) :
    Safe I good (attempt catches m) R := by
  intro s hs
  exact ensures_attempt ((hm s hs).mono (fun a _ h => ⟨hok a h.1, h.2⟩)
    fun e _ h => ⟨fun d _ => ⟨herror d, h.2⟩, fun _ => h⟩)

/-- A branch that may deal with everything comes before the rest. -/
theorem branch {dealing : EStateM ε σ Bool} {rest : EStateM ε σ α} {a : α} (b : Bool)
    (hdealing : Safe I good dealing fun _ => True) (ha : Q a) (hrest : Safe I good rest Q) :
    Safe I good (do if ← if b then dealing else Pure.pure false then Pure.pure a else rest) Q := by
  apply ite
  · exact fun _ => hdealing.bind fun _ _ => ite (fun _ => pure ha) fun _ => hrest
  · exact fun _ => (pure (Q := fun _ => True) ⟨⟩).bind fun _ _ => ite (fun _ => pure ha)
      fun _ => hrest

end Safe

end Rload.StatefulPrograms
