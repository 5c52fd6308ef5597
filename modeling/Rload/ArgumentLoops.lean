/-!
# Loops over arguments

A program reads its arguments one after another. Each argument names an action on the settings, and
an action may take a value: what is attached to its name, or else the next argument.
-/

namespace Rload.ArgumentLoop

/-- What an argument does to the settings. -/
inductive Action (σ : Type) where
  | flag (set : σ → Except String σ)
  | value (missing : String) (set : String → σ → Except String σ)
  | stop

section Loop

variable {σ : Type} (split : String → String × Option String)
  (find : String → Except String (Action σ))

/-- The settings after all arguments, or nothing if one of them stops the program. -/
def run (s : σ) : List String → Except String (Option σ)
  | [] => .ok (some s)
  | argument :: rest =>
    match find (split argument).1 with
    | .error message => .error message
    | .ok .stop => .ok none
    | .ok (.flag set) => do run (← set s) rest
    | .ok (.value missing set) =>
      match (split argument).2, rest with
      | some value, rest => do run (← set value s) rest
      | none, value :: rest => do run (← set value s) rest
      | none, [] => .error missing

end Loop

variable {σ : Type} {split : String → String × Option String}
  {find : String → Except String (Action σ)} {s s' : σ}

/-- What an action keeps if it succeeds. -/
def Action.Keeps (P : σ → Prop) : Action σ → Prop
  | .flag set => ∀ s s', set s = .ok s' → P s → P s'
  | .value _ set => ∀ value s s', set value s = .ok s' → P s → P s'
  | .stop => True

/-- What each action keeps holds of the settings that arguments give. -/
theorem run_keeps {P : σ → Prop} (hfind : ∀ name action, find name = .ok action → action.Keeps P)
    {arguments : List String} (h : run split find s arguments = .ok (some s')) (hs : P s) :
    P s' := by
  fun_induction run split find s arguments with
  | case1 s =>
    cases h
    exact hs
  | case2 => cases h
  | case3 => cases h
  | case4 s argument rest set haction ih =>
    cases hset : set s with
    | error message =>
      rw [hset] at h
      cases h
    | ok next =>
      rw [hset] at h
      exact ih next h (hfind _ _ haction s next hset hs)
  | case5 s argument missing set haction value rest hvalue ih =>
    cases hset : set value s with
    | error message =>
      rw [hset] at h
      cases h
    | ok next =>
      rw [hset] at h
      exact ih next h (hfind _ _ haction value s next hset hs)
  | case6 s argument missing set haction value rest hnone ih =>
    cases hset : set value s with
    | error message =>
      rw [hset] at h
      cases h
    | ok next =>
      rw [hset] at h
      exact ih next h (hfind _ _ haction value s next hset hs)
  | case7 => cases h

section Reads

variable (split find)

/-- The arguments take the settings from one to the other, whatever follows them. -/
def Reads (arguments : List String) (s s' : σ) : Prop :=
  ∀ rest, run split find s (arguments ++ rest) = run split find s' rest

end Reads

theorem reads_nil : Reads split find [] s s := fun _ => rfl

theorem Reads.append {xs ys : List String} {s'' : σ} (h : Reads split find xs s s')
    (h' : Reads split find ys s' s'') : Reads split find (xs ++ ys) s s'' := by
  intro rest
  rw [List.append_assoc, h, h']

theorem Reads.flatten_cons {xs : List String} {xss : List (List String)} {s'' : σ}
    (h : Reads split find xs s s') (h' : Reads split find xss.flatten s' s'') :
    Reads split find (xs :: xss).flatten s s'' :=
  h.append h'

theorem Reads.run_eq {arguments : List String} (h : Reads split find arguments s s') :
    run split find s arguments = .ok (some s') := by
  have hrun := h []
  rwa [List.append_nil] at hrun

theorem reads_flag {argument : String} {set : σ → Except String σ}
    (hfind : find (split argument).1 = .ok (.flag set)) (hset : set s = .ok s') :
    Reads split find [argument] s s' := by
  intro rest
  rw [List.singleton_append, run, hfind]
  simp only [hset]
  rfl

theorem reads_value {argument value missing : String} {set : String → σ → Except String σ}
    (hsplit : split argument = (argument, none))
    (hfind : find argument = .ok (.value missing set)) (hset : set value s = .ok s') :
    Reads split find [argument, value] s s' := by
  intro rest
  rw [List.cons_append, List.singleton_append, run, hsplit]
  simp only [hfind, hset]
  rfl

/-- An option for each element of a list. -/
theorem reads_flatMap {α : Type} {f : α → List String} {l : List α} (put : List α → σ)
    (hstep : ∀ before a after, l = before ++ a :: after →
      Reads split find (f a) (put before) (put (before ++ [a]))) :
    Reads split find (l.flatMap f) (put []) (put l) := by
  have hfrom : ∀ rest before, l = before ++ rest →
      Reads split find (rest.flatMap f) (put before) (put l) := by
    intro rest
    induction rest with
    | nil =>
      intro before hl
      rw [hl, List.append_nil]
      exact reads_nil
    | cons a rest ih =>
      intro before hl
      refine (hstep before a rest hl).append (ih (before ++ [a]) ?_)
      rw [hl, List.append_assoc, List.singleton_append]
  exact hfrom l [] rfl

end Rload.ArgumentLoop
