import Mathlib.Data.List.Infix

/-!
# Script data

The states in which an HTML tokenizer reads the text of a script element. A comment in the text
that contains the start of a script element hides the next end tag. Without end tags in the text,
the state is determined by the characters that were read.
-/

namespace ScriptData

/-- The names are those of the states of the tokenizer. The name of a tag is read in lower case.
`closed` is no state of script data: the end tag of the element was read up to the character after
its name. -/
inductive State where
  | scriptData
  | lessThan
  | endTagOpen
  | endTagName (name : List Char)
  | escapeStart
  | escapeStartDash
  | escaped
  | escapedDash
  | escapedDashDash
  | escapedLessThan
  | escapedEndTagOpen
  | escapedEndTagName (name : List Char)
  | doubleEscapeStart (name : List Char)
  | doubleEscaped
  | doubleEscapedDash
  | doubleEscapedDashDash
  | doubleEscapedLessThan
  | doubleEscapeEnd (name : List Char)
  | closed
  deriving DecidableEq, Repr

def scriptName : List Char := ['s', 'c', 'r', 'i', 'p', 't']

/-- What ends the name of a tag: white space, a slash or a greater-than sign. -/
def endsName (c : Char) : Bool :=
  c = '\t' || c = '\n' || c = '\x0c' || c = ' ' || c = '/' || c = '>'

def scriptData (c : Char) : State := if c = '<' then .lessThan else .scriptData

def escaped (c : Char) : State :=
  if c = '-' then .escapedDash else if c = '<' then .escapedLessThan else .escaped

def doubleEscaped (c : Char) : State :=
  if c = '-' then .doubleEscapedDash
  else if c = '<' then .doubleEscapedLessThan
  else .doubleEscaped

def step : State → Char → State
  | .scriptData, c => scriptData c
  | .lessThan, c =>
    if c = '/' then .endTagOpen else if c = '!' then .escapeStart else scriptData c
  | .endTagOpen, c => if c.isAlpha then .endTagName [c.toLower] else scriptData c
  | .endTagName name, c =>
    if endsName c && name = scriptName then .closed
    else if c.isAlpha then .endTagName (name ++ [c.toLower])
    else scriptData c
  | .escapeStart, c => if c = '-' then .escapeStartDash else scriptData c
  | .escapeStartDash, c => if c = '-' then .escapedDashDash else scriptData c
  | .escaped, c => escaped c
  | .escapedDash, c => if c = '-' then .escapedDashDash else escaped c
  | .escapedDashDash, c =>
    if c = '-' then .escapedDashDash else if c = '>' then .scriptData else escaped c
  | .escapedLessThan, c =>
    if c = '/' then .escapedEndTagOpen
    else if c.isAlpha then .doubleEscapeStart [c.toLower]
    else escaped c
  | .escapedEndTagOpen, c => if c.isAlpha then .escapedEndTagName [c.toLower] else escaped c
  | .escapedEndTagName name, c =>
    if endsName c && name = scriptName then .closed
    else if c.isAlpha then .escapedEndTagName (name ++ [c.toLower])
    else escaped c
  | .doubleEscapeStart name, c =>
    if endsName c then if name = scriptName then .doubleEscaped else .escaped
    else if c.isAlpha then .doubleEscapeStart (name ++ [c.toLower])
    else escaped c
  | .doubleEscaped, c => doubleEscaped c
  | .doubleEscapedDash, c => if c = '-' then .doubleEscapedDashDash else doubleEscaped c
  | .doubleEscapedDashDash, c =>
    if c = '-' then .doubleEscapedDashDash
    else if c = '>' then .scriptData
    else doubleEscaped c
  | .doubleEscapedLessThan, c => if c = '/' then .doubleEscapeEnd [] else doubleEscaped c
  | .doubleEscapeEnd name, c =>
    if endsName c then if name = scriptName then .escaped else .doubleEscaped
    else if c.isAlpha then .doubleEscapeEnd (name ++ [c.toLower])
    else doubleEscaped c
  | .closed, _ => .closed

def run (s : State) (text : List Char) : State := text.foldl step s

theorem run_cons (s : State) (c : Char) (text : List Char) :
    run s (c :: text) = run (step s c) text := rfl

theorem run_append (s : State) (a b : List Char) : run s (a ++ b) = run (run s a) b :=
  List.foldl_append

/-- The number of characters up to the one that ends the element. -/
def endOf (s : State) : List Char → Option ℕ
  | [] => none
  | c :: text =>
    if step s c = .closed then some 1 else (endOf (step s c) text).map (· + 1)

theorem run_closed (text : List Char) : run .closed text = .closed := by
  induction text with
  | nil => rfl
  | cons c text ih => exact ih

/-- A text that does not end the element is passed over. -/
theorem endOf_append {s : State} {a : List Char} (h : run s a ≠ .closed) (b : List Char) :
    endOf s (a ++ b) = (endOf (run s a) b).map (· + a.length) := by
  induction a generalizing s with
  | nil => simp [run]
  | cons c a ih =>
    have hstep : step s c ≠ .closed := by
      intro hclosed
      rw [run_cons, hclosed, run_closed] at h
      exact h rfl
    rw [List.cons_append, endOf, if_neg hstep, ih h, Option.map_map]
    congr 1

theorem endOf_eq_none {s : State} {text : List Char} (h : run s text ≠ .closed) :
    endOf s text = none := by
  have happend := endOf_append h []
  rwa [List.append_nil] at happend

/-- The last characters, the last one first, open a comment. -/
def opens (c : Char) (r : List Char) : Bool := c = '-' && r.take 3 = ['-', '!', '<']

/-- They close one. -/
def closes (c : Char) (r : List Char) : Bool := c = '>' && r.take 2 = ['-', '-']

/-- The name of the tag whose letters were read last. -/
def openName : List Char → Option (List Char)
  | [] => none
  | c :: r =>
    if c = '<' then some []
    else if c.isAlpha then (openName r).map (· ++ [c.toLower])
    else none

/-- The state outside of comments. -/
def plainState (r : List Char) : State :=
  if r.take 1 = ['<'] then .lessThan
  else if r.take 2 = ['!', '<'] then .escapeStart
  else if r.take 3 = ['-', '!', '<'] then .escapeStartDash
  else .scriptData

/-- The state in a comment. -/
def escapedState (r : List Char) : State :=
  if r.take 2 = ['-', '-'] then .escapedDashDash
  else if r.take 1 = ['-'] then .escapedDash
  else if r.take 1 = ['<'] then .escapedLessThan
  else match openName r with
    | some name => .doubleEscapeStart name
    | none => .escaped

/-- The state in a script element of a comment. -/
def doubleEscapedState (r : List Char) : State :=
  if r.take 2 = ['-', '-'] then .doubleEscapedDashDash
  else if r.take 1 = ['-'] then .doubleEscapedDash
  else if r.take 1 = ['<'] then .doubleEscapedLessThan
  else .doubleEscaped

theorem step_plainState {c : Char} {r : List Char} (h : ¬ (c = '/' ∧ r.take 1 = ['<'])) :
    step (plainState r) c = if opens c r then .escapedDashDash else plainState (c :: r) := by
  -- three characters decide
  rcases r with _ | ⟨a, _ | ⟨b, _ | ⟨d, r⟩⟩⟩ <;> simp [plainState, opens] at h ⊢ <;>
    split_ifs <;> simp_all [step, scriptData]

theorem step_doubleEscapedState {c : Char} {r : List Char}
    (h : ¬ (c = '/' ∧ r.take 1 = ['<'])) :
    step (doubleEscapedState r) c =
      if closes c r then .scriptData else doubleEscapedState (c :: r) := by
  rcases r with _ | ⟨a, _ | ⟨b, r⟩⟩ <;> simp [doubleEscapedState, closes] at h ⊢ <;>
    split_ifs <;> simp_all [step, doubleEscaped]

theorem openName_cons (c : Char) (r : List Char) :
    openName (c :: r) =
      if c = '<' then some []
      else if c.isAlpha then (openName r).map (· ++ [c.toLower])
      else none := rfl

theorem isAlpha_of_endsName {c : Char} (h : endsName c = true) :
    c.isAlpha = false ∧ c ≠ '-' ∧ c ≠ '<' := by
  simp only [endsName, Bool.or_eq_true, decide_eq_true_eq] at h
  obtain ((((rfl | rfl) | rfl) | rfl) | rfl) | rfl := h <;> decide

/-- What is no letter. -/
theorem ne_of_isAlpha {c : Char} (h : c.isAlpha = true) :
    c ≠ '-' ∧ c ≠ '<' ∧ c ≠ '>' ∧ c ≠ '/' ∧ endsName c = false := by
  refine ⟨?_, ?_, ?_, ?_, ?_⟩
  · rintro rfl
    cases h
  · rintro rfl
    cases h
  · rintro rfl
    cases h
  · rintro rfl
    cases h
  · by_contra hends
    rw [(isAlpha_of_endsName (eq_true_of_ne_false hends)).1] at h
    cases h

theorem openName_dash {r : List Char} (h : r.take 1 = ['-']) : openName r = none := by
  cases r with
  | nil => cases h
  | cons a r =>
    obtain rfl : a = '-' := by simpa using h
    rfl

theorem openName_lessThan {r : List Char} (h : r.take 1 = ['<']) : openName r = some [] := by
  cases r with
  | nil => cases h
  | cons a r =>
    obtain rfl : a = '<' := by simpa using h
    rfl

theorem take_one_of_take_two {a b : Char} {r : List Char} (h : r.take 2 = [a, b]) :
    r.take 1 = [a] := by
  have htake := congrArg (List.take 1) h
  rwa [List.take_take] at htake

/-- What the escaped states make of a character that is no letter. -/
theorem escapedState_cons {c : Char} {r : List Char} (h : c.isAlpha = false) :
    escapedState (c :: r) =
      if c = '-' then if r.take 1 = ['-'] then .escapedDashDash else .escapedDash
      else escaped c := by
  rw [escapedState, openName_cons, h, escaped]
  simp only [List.take_succ_cons, List.cons.injEq, List.take_zero, and_true]
  split_ifs <;> simp_all

theorem escapedState_letter {c : Char} {r : List Char} (h : c.isAlpha = true) :
    escapedState (c :: r) = match openName r with
      | some name => .doubleEscapeStart (name ++ [c.toLower])
      | none => .escaped := by
  obtain ⟨hdash, hlt, -⟩ := ne_of_isAlpha h
  rw [escapedState, openName_cons, h]
  simp only [List.take_succ_cons, List.cons.injEq, hdash, hlt, false_and, if_false, if_true]
  cases openName r with
  | none => rfl
  | some name => rfl

/-- The escaped states. -/
theorem escapedState_cases (r : List Char) :
    (r.take 2 = ['-', '-'] ∧ openName r = none ∧ escapedState r = .escapedDashDash) ∨
    (r.take 1 = ['-'] ∧ r.take 2 ≠ ['-', '-'] ∧ openName r = none ∧
      escapedState r = .escapedDash) ∨
    (r.take 1 = ['<'] ∧ openName r = some [] ∧ escapedState r = .escapedLessThan) ∨
    (r.take 1 ≠ ['-'] ∧ ∃ name, openName r = some name ∧
      escapedState r = .doubleEscapeStart name) ∨
    (r.take 1 ≠ ['-'] ∧ openName r = none ∧ escapedState r = .escaped) := by
  by_cases hdashes : r.take 2 = ['-', '-']
  · exact .inl ⟨hdashes, openName_dash (take_one_of_take_two hdashes), if_pos hdashes⟩
  · refine .inr ?_
    rw [escapedState, if_neg hdashes]
    by_cases hdash : r.take 1 = ['-']
    · exact .inl ⟨hdash, hdashes, openName_dash hdash, if_pos hdash⟩
    · refine .inr ?_
      rw [if_neg hdash]
      by_cases hlt : r.take 1 = ['<']
      · exact .inl ⟨hlt, openName_lessThan hlt, if_pos hlt⟩
      · refine .inr ?_
        rw [if_neg hlt]
        cases hname : openName r with
        | none => exact .inr ⟨hdash, rfl, rfl⟩
        | some name => exact .inl ⟨hdash, name, rfl, rfl⟩

theorem step_escapedState {c : Char} {r : List Char} (h : ¬ (c = '/' ∧ r.take 1 = ['<'])) :
    step (escapedState r) c =
      if closes c r then .scriptData
      else if endsName c ∧ openName r = some scriptName then .doubleEscaped
      else escapedState (c :: r) := by
  by_cases hletter : c.isAlpha = true
  · obtain ⟨hdash, hlt, hgt, hslash, hends⟩ := ne_of_isAlpha hletter
    have hcloses : closes c r = false := by
      simp [closes, hgt]
    rw [escapedState_letter hletter, hcloses, hends]
    obtain ⟨-, hname, hstate⟩ | ⟨-, -, hname, hstate⟩ | ⟨-, hname, hstate⟩ |
      ⟨-, name, hname, hstate⟩ | ⟨-, hname, hstate⟩ := escapedState_cases r <;>
      simp [hname, hstate, step, escaped, hends, hletter, hdash, hlt, hgt, hslash]
  · rw [Bool.not_eq_true] at hletter
    rw [escapedState_cons hletter, closes]
    obtain ⟨hdashes, hname, hstate⟩ | ⟨hdash, hdashes, hname, hstate⟩ | ⟨hlt, hname, hstate⟩ |
      ⟨hdash, name, hname, hstate⟩ | ⟨hdash, hname, hstate⟩ := escapedState_cases r
    · have hdash := take_one_of_take_two hdashes
      by_cases hc : c = '-' <;> simp [hc, hdashes, hdash, hname, hstate, step, scriptName]
    · simp [hdashes, hdash, hname, hstate, step, scriptName]
    · have hdash : r.take 1 ≠ ['-'] := by simp [hlt]
      have hdashes : r.take 2 ≠ ['-', '-'] := fun h => hdash (take_one_of_take_two h)
      have hslash : c ≠ '/' := fun hc => h ⟨hc, hlt⟩
      by_cases hc : c = '-' <;>
        simp [hc, hslash, hletter, hdash, hdashes, hname, hstate, step, escaped, scriptName]
    · have hdashes : r.take 2 ≠ ['-', '-'] := fun h => hdash (take_one_of_take_two h)
      by_cases hends : endsName c = true
      · have hc := isAlpha_of_endsName hends
        by_cases hscript : name = scriptName <;>
          simp [hc, hends, hscript, hdashes, hname, hstate, step, escaped]
      · by_cases hc : c = '-' <;>
          simp_all [step, escaped]
    · have hdashes : r.take 2 ≠ ['-', '-'] := fun h => hdash (take_one_of_take_two h)
      by_cases hc : c = '-' <;> simp [hc, hdash, hdashes, hname, hstate, step, escaped]

def commented : List Char → Bool
  | [] => false
  | c :: r => opens c r || (!closes c r && commented r)

def doubled : List Char → Bool
  | [] => false
  | c :: r =>
    !closes c r && (doubled r || (commented r && endsName c && openName r = some scriptName))

def behind (r : List Char) : State :=
  if doubled r then doubleEscapedState r
  else if commented r then escapedState r
  else plainState r

theorem step_behind {c : Char} {r : List Char} (h : ¬ (c = '/' ∧ r.take 1 = ['<'])) :
    step (behind r) c = behind (c :: r) := by
  rw [behind]
  split_ifs with hdoubled hcommented
  · rw [step_doubleEscapedState h]
    split_ifs with hcloses
    · obtain ⟨rfl, hdashes⟩ : c = '>' ∧ r.take 2 = ['-', '-'] := by simpa [closes] using hcloses
      simp [behind, doubled, commented, hcloses, opens, plainState]
    · simp [behind, doubled, hcloses, hdoubled]
  · rw [step_escapedState h]
    split_ifs with hcloses hscript
    · obtain ⟨rfl, hdashes⟩ : c = '>' ∧ r.take 2 = ['-', '-'] := by simpa [closes] using hcloses
      simp [behind, doubled, commented, hcloses, opens, plainState]
    · obtain ⟨-, hdash, hlt⟩ := isAlpha_of_endsName hscript.1
      simp [behind, doubled, hcloses, hcommented, hscript, doubleEscapedState, hdash, hlt]
    · simp only [behind, doubled, commented, hcloses, hdoubled, hcommented]
      simp
      intro hends hname
      exact absurd ⟨hends, hname⟩ hscript
  · rw [step_plainState h]
    split_ifs with hopens
    · obtain ⟨rfl, hopener⟩ : c = '-' ∧ r.take 3 = ['-', '!', '<'] := by
        simpa [opens] using hopens
      have hdash : r.take 1 = ['-'] := by
        have htake := congrArg (List.take 1) hopener
        rwa [List.take_take] at htake
      simp [behind, doubled, commented, hopens, hdoubled, hcommented, escapedState, hdash]
    · simp [behind, doubled, commented, hopens, hdoubled, hcommented]

theorem run_behind {r text : List Char} (h : ¬ ['<', '/'] <:+: r.reverse ++ text) :
    run (behind r) text = behind (text.reverse ++ r) := by
  induction text generalizing r with
  | nil => rfl
  | cons c text ih =>
    have hslash : ¬ (c = '/' ∧ r.take 1 = ['<']) := by
      rintro ⟨rfl, hlt⟩
      cases r with
      | nil => cases hlt
      | cons a r =>
        obtain rfl : a = '<' := by simpa using hlt
        exact h ⟨r.reverse, text, by simp⟩
    rw [run_cons, step_behind hslash, ih (by simpa using h), List.reverse_cons, List.append_assoc]
    rfl

def opener : List Char := ['<', '!', '-', '-']

def closer : List Char := ['-', '-', '>']

/-- The comment that `opener` opens is not closed by what follows. -/
def NotClosed (text : List Char) : Prop := ¬ closer <:+: '-' :: '-' :: text

/-- The start of a script element inside of a comment. -/
def IsScriptTag (tag : List Char) : Prop :=
  ∃ name c, tag = '<' :: name ++ [c] ∧ name.map Char.toLower = scriptName ∧ endsName c = true

/-- A comment is opened and not closed again. -/
def StaysCommented (text : List Char) : Prop :=
  ∃ a b, text = a ++ opener ++ b ∧ NotClosed b

/-- In the comment a script element is started. -/
def StaysDoubled (text : List Char) : Prop :=
  ∃ a b tag d, text = a ++ opener ++ b ++ tag ++ d ∧ IsScriptTag tag ∧ NotClosed (b ++ tag ++ d)

theorem take_reverse_eq_iff {p l : List Char} :
    l.reverse.take p.length = p.reverse ↔ p <:+ l := by
  rw [← List.reverse_prefix, List.prefix_iff_eq_take, List.length_reverse, eq_comm]

theorem opens_reverse {c : Char} {t : List Char} :
    opens c t.reverse = true ↔ opener <:+ t ++ [c] := by
  rw [← take_reverse_eq_iff, opens]
  simp [opener]

theorem closes_reverse {c : Char} {t : List Char} :
    closes c t.reverse = true ↔ closer <:+ t ++ [c] := by
  rw [← take_reverse_eq_iff, closes]
  simp [closer]

theorem openName_reverse {t name : List Char} (h : openName t.reverse = some name) :
    ∃ u letters, t = u ++ '<' :: letters ∧ (∀ l ∈ letters, l.isAlpha = true) ∧
      letters.map Char.toLower = name := by
  induction t using List.reverseRecOn generalizing name with
  | nil => cases h
  | append_singleton t c ih =>
    rw [List.reverse_append, List.reverse_singleton, List.singleton_append, openName_cons] at h
    split_ifs at h with hlt hletter
    · subst hlt
      cases h
      exact ⟨t, [], rfl, by simp, rfl⟩
    · obtain ⟨name', hname', rfl⟩ := Option.map_eq_some_iff.mp h
      obtain ⟨u, letters, rfl, hletters, rfl⟩ := ih hname'
      refine ⟨u, letters ++ [c], by simp, ?_, by simp⟩
      intro l hl
      obtain hl | hl := List.mem_append.mp hl
      · exact hletters l hl
      · rwa [List.mem_singleton.mp hl]

theorem openName_append {u letters : List Char} (h : ∀ l ∈ letters, l.isAlpha = true) :
    openName (u ++ '<' :: letters).reverse = some (letters.map Char.toLower) := by
  induction letters using List.reverseRecOn with
  | nil => simp [openName_cons]
  | append_singleton letters c ih =>
    have hc : c.isAlpha = true := h c (by simp)
    obtain ⟨-, hlt, -⟩ := ne_of_isAlpha hc
    have ih := ih fun l hl => h l (List.mem_append_left [c] hl)
    have hreverse : (u ++ '<' :: (letters ++ [c])).reverse =
        c :: (u ++ '<' :: letters).reverse := by
      simp
    rw [hreverse, openName_cons, if_neg hlt, if_pos hc, ih]
    simp

theorem isAlpha_of_toLower {c : Char} (h : c.toLower ∈ scriptName) : c.isAlpha = true := by
  have hcases : (c.isUpper || c.isLower) = true := by
    rw [Bool.or_eq_true]
    by_cases hupper : c.val ≥ 'A'.val ∧ c.val ≤ 'Z'.val
    · exact .inl (decide_eq_true hupper)
    · have hsame : c.toLower = c := dif_neg hupper
      have hall : ∀ l ∈ scriptName, l.isLower = true := List.all_eq_true.mp rfl
      rw [hsame] at h
      exact .inr (hall c h)
  exact hcases

theorem notClosed_concat (a : List Char) {b : List Char} {c : Char} :
    NotClosed (b ++ [c]) ↔ ¬ closer <:+ a ++ opener ++ b ++ [c] ∧ NotClosed b := by
  have hsplit : a ++ opener ++ b ++ [c] = (a ++ ['<', '!']) ++ ('-' :: '-' :: b ++ [c]) := by
    simp [opener]
  have hsuffix : closer <:+ a ++ opener ++ b ++ [c] ↔ closer <:+ '-' :: '-' :: b ++ [c] := by
    rw [hsplit]
    constructor
    · intro hclose
      refine List.suffix_of_suffix_length_le hclose (List.suffix_append _ _) ?_
      simp [closer]
    · exact List.suffix_append_of_suffix
  rw [NotClosed, NotClosed, hsuffix, ← not_or, ← List.infix_concat_iff]
  rfl

theorem commented_concat {t : List Char} {c : Char} :
    StaysCommented (t ++ [c]) ↔
      opener <:+ t ++ [c] ∨ ¬ closer <:+ t ++ [c] ∧ StaysCommented t := by
  constructor
  · rintro ⟨a, b, htext, hopen⟩
    obtain rfl | ⟨b, c', rfl⟩ := List.eq_nil_or_concat' b
    · refine .inl ⟨a, ?_⟩
      rw [htext, List.append_nil]
    · rw [← List.append_assoc] at htext
      obtain ⟨rfl, hc⟩ := List.append_inj' htext rfl
      obtain rfl := List.singleton_inj.mp hc
      obtain ⟨hclose, hopen⟩ := (notClosed_concat a).mp hopen
      exact .inr ⟨hclose, a, b, rfl, hopen⟩
  · rintro (⟨a, htext⟩ | ⟨hclose, a, b, rfl, hopen⟩)
    · refine ⟨a, [], ?_, by unfold NotClosed; decide⟩
      rw [← htext, List.append_nil]
    · refine ⟨a, b ++ [c], by simp, (notClosed_concat a).mpr ⟨hclose, hopen⟩⟩

theorem commented_reverse {t : List Char} : commented t.reverse = true ↔ StaysCommented t := by
  induction t using List.reverseRecOn with
  | nil =>
    constructor
    · intro h
      cases h
    · rintro ⟨a, b, htext, -⟩
      simp [opener] at htext
  | append_singleton t c ih =>
    rw [List.reverse_append, List.reverse_singleton, List.singleton_append, commented,
      commented_concat, ← opens_reverse, ← closes_reverse, ← ih]
    simp

theorem doubled_concat {t : List Char} {c : Char} :
    StaysDoubled (t ++ [c]) ↔ ¬ closer <:+ t ++ [c] ∧
      (StaysDoubled t ∨ StaysCommented t ∧ endsName c = true ∧
        openName t.reverse = some scriptName) := by
  constructor
  · rintro ⟨a, b, tag, d, htext, htag, hopen⟩
    obtain rfl | ⟨d, c', rfl⟩ := List.eq_nil_or_concat' d
    · obtain ⟨name, c', rfl, hname, hends⟩ := htag
      have hsplit : t ++ [c] = (a ++ opener ++ (b ++ '<' :: name)) ++ [c'] := by
        rw [htext]
        simp
      obtain ⟨rfl, hc⟩ := List.append_inj' hsplit rfl
      obtain rfl := List.singleton_inj.mp hc
      have hopen : NotClosed ((b ++ '<' :: name) ++ [c]) := by simpa using hopen
      obtain ⟨hclose, hopen⟩ := (notClosed_concat a).mp hopen
      refine ⟨hclose, .inr ⟨⟨a, b ++ '<' :: name, rfl, hopen⟩, hends, ?_⟩⟩
      rw [← List.append_assoc, openName_append, hname]
      intro l hl
      apply isAlpha_of_toLower
      rw [← hname]
      exact List.mem_map_of_mem hl
    · rw [← List.append_assoc] at htext
      obtain ⟨rfl, hc⟩ := List.append_inj' htext rfl
      obtain rfl := List.singleton_inj.mp hc
      rw [← List.append_assoc] at hopen
      obtain ⟨hclose, hopen⟩ := (notClosed_concat a).mp hopen
      refine ⟨by simpa using hclose, .inl ⟨a, b, tag, d, rfl, htag, hopen⟩⟩
  · rintro ⟨hclose, ⟨a, b, tag, d, rfl, htag, hopen⟩ | ⟨⟨a, b, rfl, hopen⟩, hends, hname⟩⟩
    · refine ⟨a, b, tag, d ++ [c], by simp, htag, ?_⟩
      rw [← List.append_assoc]
      refine (notClosed_concat a).mpr ⟨by simpa using hclose, hopen⟩
    · obtain ⟨u, letters, hsplit, hletters, hlower⟩ := openName_reverse hname
      have hsuffix : '<' :: letters <:+ b := by
        have hdash : '-' :: b <:+ a ++ opener ++ b := ⟨a ++ ['<', '!', '-'], by simp [opener]⟩
        have htag : '<' :: letters <:+ a ++ opener ++ b := ⟨u, hsplit.symm⟩
        obtain hshort | hlong := List.suffix_or_suffix_of_suffix htag hdash
        · obtain heq | hsuffix := List.suffix_cons_iff.mp hshort
          · cases heq
          · exact hsuffix
        · have hmem : '-' ∈ '<' :: letters := hlong.subset List.mem_cons_self
          obtain heq | hmem := List.mem_cons.mp hmem
          · cases heq
          · exact absurd (hletters '-' hmem) (by decide)
      obtain ⟨b, rfl⟩ := hsuffix
      refine ⟨a, b, '<' :: letters ++ [c], [], by simp, ⟨letters, c, rfl, hlower, hends⟩, ?_⟩
      have hopen := (notClosed_concat a).mpr ⟨hclose, hopen⟩
      simpa using hopen

theorem doubled_reverse {t : List Char} : doubled t.reverse = true ↔ StaysDoubled t := by
  induction t using List.reverseRecOn with
  | nil =>
    constructor
    · intro h
      cases h
    · rintro ⟨a, b, tag, d, htext, -⟩
      simp [opener] at htext
  | append_singleton t c ih =>
    rw [List.reverse_append, List.reverse_singleton, List.singleton_append, doubled,
      doubled_concat, ← closes_reverse, ← ih, ← commented_reverse]
    simp [and_assoc]

/-- The last characters, as far as they may begin a comment or end one. -/
def marks (r : List Char) : List Char := r.takeWhile fun c => c = '-' || c = '!' || c = '<'

/-- What was read before makes no difference for the states to come. -/
structure Alike (r r' : List Char) : Prop where
  commented : commented r = commented r'
  doubled : doubled r = doubled r'
  openName : openName r = openName r'
  marks : marks r = marks r'

theorem take_eq_iff_marks {p r : List Char} (hp : ∀ c ∈ p, c = '-' ∨ c = '!' ∨ c = '<') :
    r.take p.length = p ↔ p <+: marks r := by
  rw [eq_comm, ← List.prefix_iff_eq_take, marks]
  constructor
  · rintro ⟨rest, rfl⟩
    rw [List.takeWhile_append_of_pos]
    · exact List.prefix_append p _
    · intro c hc
      simpa [or_assoc] using hp c hc
  · exact fun h => h.trans (List.takeWhile_prefix _)

namespace Alike

variable {r r' : List Char}

theorem refl (r : List Char) : Alike r r := ⟨rfl, rfl, rfl, rfl⟩

theorem take_iff (h : Alike r r') {p : List Char} (hp : ∀ c ∈ p, c = '-' ∨ c = '!' ∨ c = '<') :
    r.take p.length = p ↔ r'.take p.length = p := by
  rw [take_eq_iff_marks hp, take_eq_iff_marks hp, h.marks]

theorem cons (h : Alike r r') (c : Char) : Alike (c :: r) (c :: r') := by
  have hopens : opens c r = opens c r' := by
    have htake : r.take 3 = ['-', '!', '<'] ↔ r'.take 3 = ['-', '!', '<'] :=
      h.take_iff (p := ['-', '!', '<']) (by simp)
    rw [opens, opens, decide_eq_decide.mpr htake]
  have hcloses : closes c r = closes c r' := by
    have htake : r.take 2 = ['-', '-'] ↔ r'.take 2 = ['-', '-'] :=
      h.take_iff (p := ['-', '-']) (by simp)
    rw [closes, closes, decide_eq_decide.mpr htake]
  constructor
  · rw [ScriptData.commented, ScriptData.commented, hopens, hcloses, h.commented]
  · rw [ScriptData.doubled, ScriptData.doubled, hcloses, h.doubled, h.commented, h.openName]
  · rw [openName_cons, openName_cons, h.openName]
  · rw [ScriptData.marks, ScriptData.marks, List.takeWhile_cons, List.takeWhile_cons]
    split
    · exact congrArg _ h.marks
    · rfl

end Alike

end ScriptData
