/-!
# Errors

`RunError` is the error type of the library. A worker can also end by a panic, which its
owner reports as `RunError::WorkerPanic`, or not at all; `Halt` has the three ways.
-/

namespace Rload

/-- The kinds of `std::io::Error` that the code tells apart. -/
inductive ErrorKind where
  | notFound | notConnected | wouldBlock | invalidData | timedOut | writeZero | unexpectedEof
  | other
  deriving DecidableEq, Repr

structure IoError where
  kind : ErrorKind
  message : String
  deriving DecidableEq, Repr

inductive RunError where
  | invalidUrl (message : String)
  | invalidConfig (message : String)
  | invalidAccessLog (message : String)
  | invalidRequestFile (message : String)
  | io (error : IoError)
  | tls (message : String)
  | invalidResponse (message : String)
  | workerPanic
  deriving DecidableEq, Repr

inductive Halt where
  | error (e : RunError)
  | panic (message : String)
  | diverge
  deriving DecidableEq, Repr

def Halt.isIo : Halt → Bool
  | .error (.io _) => true
  | _ => false

def Halt.isRunError : Halt → Bool
  | .error _ => true
  | _ => false

theorem Halt.isIo_of_not_runError {halt : Halt} (h : halt.isRunError = false) :
    halt.isIo = false := by
  cases halt with
  | error e => cases h
  | _ => rfl

variable {α β : Type}

def orHalt (halt : Halt) : Option α → Except Halt α
  | none => .error halt
  | some a => .ok a

theorem ok_of_toOption {ε : Type} {x : Except ε α} {a : α} (h : x.toOption = some a) :
    x = .ok a := by
  cases x with
  | error e => cases h
  | ok b => exact congrArg Except.ok (Option.some.inj h)

theorem ok_of_bind {ε : Type} {x : Except ε α} {f : α → Except ε β} {b : β}
    (h : (x >>= f) = .ok b) : ∃ a, x = .ok a ∧ f a = .ok b := by
  cases x with
  | error e => cases h
  | ok a => exact ⟨a, rfl, h⟩

theorem some_of_orHalt {halt : Halt} {o : Option α} {a : α} (h : orHalt halt o = .ok a) :
    o = some a := by
  cases o with
  | none => cases h
  | some b =>
    cases h
    rfl

theorem ok_bind (a : α) (f : α → Except Halt β) : ((.ok a : Except Halt α) >>= f) = f a := rfl

theorem bind_eq_ok {b : β} {x : Except Halt α} {f : α → Except Halt β} :
    (x >>= f) = .ok b ↔ ∃ a, x = .ok a ∧ f a = .ok b := by
  constructor
  · exact ok_of_bind
  · rintro ⟨a, rfl, h⟩
    exact h

theorem bind_eq_error {halt : Halt} {x : Except Halt α} {f : α → Except Halt β} :
    (x >>= f) = .error halt ↔ x = .error halt ∨ ∃ a, x = .ok a ∧ f a = .error halt := by
  cases x with
  | error e => simp [bind, Except.bind]
  | ok a => simp [bind, Except.bind]

theorem error_of_orHalt {halt halt' : Halt} {o : Option α}
    (h : orHalt halt o = .error halt') : o = none ∧ halt = halt' := by
  cases o with
  | none =>
    cases h
    exact ⟨rfl, rfl⟩
  | some a => cases h

/-- The computation does not end in a way of this kind. -/
def Avoids (kind : Halt → Bool) (x : Except Halt α) : Prop :=
  ∀ halt, x = .error halt → kind halt = false

variable {kind : Halt → Bool}

theorem avoids_ok (a : α) : Avoids kind (.ok a) := by
  intro halt h
  cases h

theorem avoids_error {halt : Halt} (h : kind halt = false) :
    Avoids kind (.error halt : Except Halt α) := by
  intro halt' heq
  cases heq
  exact h

theorem avoids_orHalt {halt : Halt} (h : kind halt = false) (x : Option α) :
    Avoids kind (orHalt halt x) := by
  cases x with
  | none => exact avoids_error h
  | some a => exact avoids_ok a

theorem Avoids.bind {x : Except Halt α} {f : α → Except Halt β} (hx : Avoids kind x)
    (hf : ∀ a, Avoids kind (f a)) : Avoids kind (x >>= f) := by
  cases x with
  | error halt => exact avoids_error (hx halt rfl)
  | ok a => exact hf a

end Rload
