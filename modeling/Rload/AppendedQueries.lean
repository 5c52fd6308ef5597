import Rload.RequestFile
import Rload.SeparatedTexts

/-!
# The query of a record

The arguments of a record are appended to the URI as its query. The code takes a URI that ends
with a question mark for one whose query is empty. When it is the query itself that ends so, its
last parameter and the first one of the arguments become one parameter.
-/

namespace Rload.RequestFile
open SeparatedTexts

/-- What is before the first question mark. -/
def pathOf (uri : List Char) : List Char := uri.takeWhile (· ≠ '?')

/-- What is behind the first question mark. -/
def queryOf (uri : List Char) : List Char := (uri.dropWhile (· ≠ '?')).drop 1

def parameters (query : List Char) : List (List Char) := pieces '&' query

/-- The arguments less one leading question mark. -/
def withoutMark (args : List Char) : List Char :=
  if args.head? = some '?' then args.drop 1 else args

/-- The URI has kept its path and its parameters and has got those of the arguments. -/
structure HasAppended (uri : List Char) (args : Option (List Char)) (appended : List Char) :
    Prop where
  path : pathOf appended = pathOf uri
  parameters : parameters (queryOf appended) =
    parameters (queryOf uri) ++ parameters (withoutMark (args.getD []))
  unchanged : args.getD [] = [] → appended = uri

variable {path query args uri : List Char}

theorem dropWhile_mark (h : '?' ∉ path) (rest : List Char) :
    (path ++ '?' :: rest).dropWhile (· ≠ '?') = '?' :: rest := by
  rw [TextScanning.dropWhile_append_of_all fun c hc => decide_eq_true (ne_of_mem_of_not_mem hc h)]
  simp

theorem pathOf_mark (h : '?' ∉ path) (query : List Char) :
    pathOf (path ++ '?' :: query) = path := by
  rw [pathOf, List.takeWhile_append_of_pos fun c hc => decide_eq_true (ne_of_mem_of_not_mem hc h)]
  simp

theorem queryOf_mark (h : '?' ∉ path) (query : List Char) :
    queryOf (path ++ '?' :: query) = query := by
  rw [queryOf, dropWhile_mark h]
  rfl

theorem pathOf_plain (h : '?' ∉ uri) : pathOf uri = uri := by
  rw [pathOf, List.takeWhile_eq_self_iff]
  exact fun c hc => decide_eq_true (ne_of_mem_of_not_mem hc h)

theorem queryOf_plain (h : '?' ∉ uri) : queryOf uri = [] := by
  have hdrop : uri.dropWhile (· ≠ '?') = [] :=
    List.dropWhile_eq_nil_iff.mpr fun c hc => decide_eq_true (ne_of_mem_of_not_mem hc h)
  rw [queryOf, hdrop]
  rfl

theorem getLast?_mark (path query : List Char) :
    (path ++ '?' :: query).getLast? = some (query.getLast?.getD '?') := by
  rw [List.getLast?_append, List.getLast?_cons]
  rfl

theorem appendQuery_of_nil (uri : List Char) {args : Option (List Char)} (h : args.getD [] = []) :
    appendQuery uri args = uri := by
  cases args with
  | none => rfl
  | some args =>
    rw [Option.getD_some] at h
    subst h
    rfl

theorem appendQuery_of_ne (uri : List Char) (hargs : args ≠ []) :
    appendQuery uri (some args) =
      if '?' ∈ uri then
        if uri.getLast? = some '?' ∧ args.head? = some '&' then uri ++ args
        else
          let added := if args.head? = some '?' ∨ args.head? = some '&' then args.drop 1 else args
          if uri.getLast? = some '?' ∨ uri.getLast? = some '&' then uri ++ added
          else uri ++ '&' :: added
      else if args.head? = some '?' then uri ++ args
      else uri ++ '?' :: args := by
  have hfilter : (some args).filter (· ≠ []) = some args := by simpa using hargs
  rw [appendQuery, hfilter]

theorem withoutMark_mark (rest : List Char) : withoutMark ('?' :: rest) = rest := rfl

theorem withoutMark_of_ne (h : args.head? ≠ some '?') : withoutMark args = args := if_neg h

/-- The URI has no query yet. -/
theorem appendQuery_plain (huri : '?' ∉ uri) (hargs : args ≠ []) :
    appendQuery uri (some args) = uri ++ '?' :: withoutMark args := by
  rw [appendQuery_of_ne uri hargs, if_neg huri]
  split
  · rename_i hmark
    obtain ⟨rest, rfl⟩ := List.head?_eq_some_iff.mp hmark
    rw [withoutMark_mark]
  · rename_i hmark
    rw [withoutMark_of_ne hmark]

/-- The URI ends with a question mark. -/
theorem appendQuery_marked (hlast : query.getLast?.getD '?' = '?') (hargs : args ≠ []) :
    appendQuery (path ++ '?' :: query) (some args) =
      path ++ '?' :: (query ++ withoutMark args) := by
  have hmem : '?' ∈ path ++ '?' :: query := by simp
  rw [appendQuery_of_ne _ hargs, if_pos hmem, getLast?_mark, hlast]
  by_cases hamp : args.head? = some '&'
  · have hne : args.head? ≠ some '?' := by
      rw [hamp]
      decide
    rw [if_pos ⟨rfl, hamp⟩, withoutMark_of_ne hne, List.append_assoc, List.cons_append]
  · rw [if_neg fun h => hamp h.2]
    simp only [hamp, or_false]
    rw [List.append_assoc, List.cons_append]
    rfl

/-- One separator less changes no parameter. -/
theorem parameters_stripped (args : List Char) :
    parameters (if args.head? = some '?' ∨ args.head? = some '&' then args.drop 1 else args) =
      parameters (withoutMark args) := by
  by_cases hmark : args.head? = some '?'
  · rw [if_pos (.inl hmark), withoutMark, if_pos hmark]
  · rw [withoutMark_of_ne hmark]
    by_cases hamp : args.head? = some '&'
    · obtain ⟨rest, rfl⟩ := List.head?_eq_some_iff.mp hamp
      rw [if_pos (.inr hamp)]
      exact (pieces_cons_sep rest).symm
    · rw [if_neg (not_or.mpr ⟨hmark, hamp⟩)]

/-- The URI ends with something else. -/
theorem appendQuery_unmarked (path : List Char) (hlast : query.getLast?.getD '?' ≠ '?')
    (hargs : args ≠ []) :
    ∃ appended, appendQuery (path ++ '?' :: query) (some args) = path ++ '?' :: appended ∧
      parameters appended = parameters query ++ parameters (withoutMark args) := by
  have hmem : '?' ∈ path ++ '?' :: query := by simp
  have hne : some (query.getLast?.getD '?') ≠ some '?' := fun h => hlast (Option.some.inj h)
  rw [appendQuery_of_ne _ hargs, if_pos hmem, getLast?_mark, if_neg fun h => hne h.1,
    ← parameters_stripped]
  simp only [hne, false_or]
  split
  · rename_i hamp
    refine ⟨query ++ _, by rw [List.append_assoc, List.cons_append], ?_⟩
    refine EndsFresh.pieces_append (.inr ?_) _
    cases hquery : query.getLast? with
    | none =>
      rw [hquery] at hlast
      exact absurd rfl hlast
    | some c =>
      rw [hquery] at hamp
      exact hamp
  · exact ⟨query ++ '&' :: _, by rw [List.append_assoc, List.cons_append], pieces_separated _ _⟩

theorem hasAppended_mark_iff (hpath : '?' ∉ path) (hargs : args ≠ []) (appended : List Char) :
    HasAppended (path ++ '?' :: query) (some args) (path ++ '?' :: appended) ↔
      parameters appended = parameters query ++ parameters (withoutMark args) := by
  constructor
  · intro h
    have hparameters := h.parameters
    rwa [queryOf_mark hpath, queryOf_mark hpath] at hparameters
  · intro h
    constructor
    · rw [pathOf_mark hpath, pathOf_mark hpath]
    · rwa [queryOf_mark hpath, queryOf_mark hpath]
    · exact fun hnil => absurd hnil hargs

/-- The path and all parameters are kept where the query does not end with a question mark, or
else the arguments, less a leading question mark, are empty or begin with a separator. -/
theorem hasAppended_iff (uri : List Char) (args : Option (List Char)) :
    HasAppended uri args (appendQuery uri args) ↔
      ((queryOf uri).getLast? = some '?' → OpensFresh '&' (withoutMark (args.getD []))) := by
  obtain hnil | hne := eq_or_ne (args.getD []) []
  · -- nothing is appended
    rw [appendQuery_of_nil uri hnil, hnil]
    refine iff_of_true ⟨rfl, ?_, fun _ => rfl⟩ fun _ => .inl rfl
    rw [hnil]
    exact (List.append_nil _).symm
  · obtain ⟨args, rfl⟩ : ∃ text, args = some text := by
      cases args with
      | none => exact absurd rfl hne
      | some text => exact ⟨text, rfl⟩
    rw [Option.getD_some] at hne ⊢
    by_cases hmark : '?' ∈ uri
    · obtain ⟨path, query, rfl, hpath⟩ := List.eq_append_cons_of_mem hmark
      rw [queryOf_mark hpath]
      by_cases hlast : query.getLast?.getD '?' = '?'
      · rw [appendQuery_marked hlast hne, hasAppended_mark_iff hpath hne, parameters, parameters,
          parameters, pieces_append_iff]
        cases hquery : query.getLast? with
        | none => simp [EndsFresh, List.getLast?_eq_none_iff.mp hquery]
        | some c =>
          rw [hquery] at hlast
          obtain rfl : c = '?' := hlast
          have hends : ¬ EndsFresh '&' query := by
            rintro (rfl | hamp)
            · cases hquery
            · rw [hquery] at hamp
              exact absurd hamp (by decide)
          simp [hends]
      · obtain ⟨appended, happended, hparameters⟩ :=
          appendQuery_unmarked path hlast hne
        rw [happended, hasAppended_mark_iff hpath hne]
        refine iff_of_true hparameters fun h => ?_
        rw [h] at hlast
        exact absurd rfl hlast
    · rw [appendQuery_plain hmark hne, queryOf_plain hmark]
      refine iff_of_true ⟨?_, ?_, fun hnil => absurd hnil hne⟩ fun h => by cases h
      · rw [pathOf_mark hmark, pathOf_plain hmark]
      · rw [queryOf_mark hmark, queryOf_plain hmark]
        rfl

/-- Of `/p?q=?` and `a=1` one parameter `q=?a=1` is made. -/
theorem parameters_joined :
    ¬ HasAppended ['/', 'p', '?', 'q', '=', '?'] (some ['a', '=', '1'])
      (appendQuery ['/', 'p', '?', 'q', '=', '?'] (some ['a', '=', '1'])) := by
  intro h
  have hlength := congrArg List.length h.parameters
  revert hlength
  decide

end Rload.RequestFile
