import Rload.CommandArguments

/-!
# What arguments can say

The loop over the arguments keeps its settings well-formed: counts and durations are positive, texts
are trimmed, methods are not repeated. Conversely, well-formed settings have arguments that give
them.
-/

namespace Rload.Profiles
open TextScanning FloatingSeconds ArgumentLoop

/-- A positive number of 64 bits. -/
def IsCount (n : ℕ) : Prop := 0 < n ∧ n < 2 ^ 64

/-- A number of milliseconds. -/
def IsMillis (duration : ℕ) : Prop := ∃ millis, IsCount millis ∧ duration = millis * 10 ^ 6

def IsStage (stage : ReplayStage) : Prop := IsMillis stage.duration ∧ IsCount stage.rate

def AreStages (stages : List ReplayStage) : Prop := stages ≠ [] ∧ ∀ stage ∈ stages, IsStage stage

def IsTrimmed (text : List Char) : Prop := trim text = text

def IsHeader (header : String × String) : Prop :=
  ':' ∉ header.1.toList ∧ IsTrimmed header.1.toList ∧ IsTrimmed header.2.toList

/-- A text between commas. -/
def IsListed (text : List Char) : Prop := text ≠ [] ∧ ',' ∉ text ∧ IsTrimmed text

structure CommandLine.WellFormed (cli : CommandLine) : Prop where
  assertions : ∀ assertion ∈ cli.assertions, assertion.message = none
  requests : ∀ n ∈ cli.requests, IsCount n
  duration : ∀ d ∈ cli.duration, IsMillis d
  connections : ∀ n ∈ cli.connections, IsCount n
  threads : ∀ n ∈ cli.threads, IsCount n
  timeout : ∀ d ∈ cli.timeout, IsMillis d
  url : ∀ url ∈ cli.url, ['-'].isPrefixOf url.toList = false
  replayRate : ∀ n ∈ cli.replayRate, IsCount n
  replaySpeed : ∀ x ∈ cli.replaySpeed, 0 < x ∧ IsF64 x
  stages : ∀ stages ∈ cli.stages, AreStages stages
  replayStages : ∀ stages ∈ cli.replayStages, AreStages stages
  replayRounds : ∀ n ∈ cli.replayRounds, IsCount n
  outputFormat : cli.outputFormat ≠ some .beauty
  headers : ∀ header ∈ cli.headers, IsHeader header
  dataBinary : ∀ path ∈ cli.dataBinary, path.toList ≠ []
  allowedMethods : cli.allowedMethods.Nodup
  allowedUris : ∀ uri ∈ cli.allowedUris, IsListed uri.toList

theorem parseInteger_lt {what value : String} {n : ℕ} (h : parseInteger what value = .ok n) :
    n < 2 ^ 64 := by
  unfold parseInteger at h
  split at h
  · rename_i m hparse
    cases h
    exact of_decide_eq_true (Option.filter_eq_some_iff.mp hparse).2
  · cases h

theorem isCount_of_parse {what value : String} {n : ℕ} (h : parseCount what value = .ok n) :
    IsCount n := by
  obtain ⟨m, hinteger, h⟩ := ok_of_bind h
  split at h
  · cases h
  · rename_i hpos
    cases h
    exact ⟨Nat.pos_of_ne_zero hpos, parseInteger_lt hinteger⟩

theorem isMillis_of_parse {value : String} {d : ℕ} (h : parseDuration value = .ok d) :
    IsMillis d := by
  unfold parseDuration at h
  dsimp only at h
  split at h
  · split at h
    · rename_i hbounds
      cases h
      exact ⟨_, ⟨hbounds.2, hbounds.1⟩, rfl⟩
    · cases h
  · cases h

theorem isTrimmed_trim (text : List Char) : IsTrimmed (trim text) := by
  rw [IsTrimmed, trim, trim]
  cases hdrop : text.dropWhile isWhitespace with
  | nil => rfl
  | cons c cs =>
    have hc : isWhitespace c = false := by
      have hne : text.dropWhile isWhitespace ≠ [] := by
        rw [hdrop]
        exact List.cons_ne_nil c cs
      have hhead := List.head_dropWhile_not isWhitespace hne
      simpa only [hdrop, List.head_cons] using hhead
    have hprefix := List.rdropWhile_prefix isWhitespace (l := c :: cs)
    cases htrim : (c :: cs).rdropWhile isWhitespace with
    | nil => rfl
    | cons d ds =>
      rw [htrim] at hprefix
      obtain ⟨rfl, -⟩ := List.cons_prefix_cons.mp hprefix
      rw [List.dropWhile_cons_of_neg (by simp [hc]), ← htrim, List.rdropWhile_idempotent]

theorem mem_of_mem_trim {text : List Char} {c : Char} (h : c ∈ trim text) : c ∈ text :=
  (List.dropWhile_suffix _).subset ((List.rdropWhile_prefix _ _).subset h)

theorem listed_of_commaSeparated {value option : String} {values : List (List Char)}
    (h : commaSeparated value option = .ok values) :
    values ≠ [] ∧ ∀ text ∈ values, IsListed text := by
  unfold commaSeparated at h
  dsimp only at h
  split at h
  · cases h
  · rename_i hnotEmpty
    cases h
    refine ⟨?_, fun text htext => ⟨?_, ?_, ?_⟩⟩
    · exact fun hnil => List.splitOn_ne_nil _ _ (List.map_eq_nil_iff.mp hnil)
    · rintro rfl
      exact hnotEmpty (List.any_eq_true.mpr ⟨[], htext, rfl⟩)
    · obtain ⟨piece, hpiece, rfl⟩ := List.mem_map.mp htext
      intro hmem
      have hcomma := (mem_of_mem_splitOnP hpiece (mem_of_mem_trim hmem)).1
      simp at hcomma
    · obtain ⟨piece, -, rfl⟩ := List.mem_map.mp htext
      exact isTrimmed_trim piece

theorem isStage_of_parse {name : String} {text : List Char} {stage : ReplayStage}
    (h : parseStage name text = .ok stage) : IsStage stage := by
  unfold parseStage at h
  split at h
  · cases h
  · obtain ⟨d, hduration, h⟩ := ok_of_bind h
    obtain ⟨n, hrate, h⟩ := ok_of_bind h
    split at h
    · cases h
    · rename_i hpos
      cases h
      exact ⟨isMillis_of_parse hduration,
        ⟨Nat.pos_of_ne_zero fun hzero => hpos (Or.inr hzero), parseInteger_lt hrate⟩⟩

theorem forall_of_mapM {α β : Type} {f : α → Except String β} {P : β → Prop}
    (hf : ∀ a b, f a = .ok b → P b) {l : List α} {l' : List β} (h : l.mapM f = .ok l') :
    l'.length = l.length ∧ ∀ b ∈ l', P b := by
  induction l generalizing l' with
  | nil =>
    cases h
    exact ⟨rfl, List.forall_mem_nil _⟩
  | cons a l ih =>
    rw [List.mapM_cons] at h
    obtain ⟨b, hb, h⟩ := ok_of_bind h
    obtain ⟨bs, hbs, h⟩ := ok_of_bind h
    cases h
    obtain ⟨hlength, hall⟩ := ih hbs
    exact ⟨congrArg (· + 1) hlength, List.forall_mem_cons.mpr ⟨hf a b hb, hall⟩⟩

theorem areStages_of_parse {value option : String} {stages : List ReplayStage}
    (h : parseStages value option = .ok stages) : AreStages stages := by
  obtain ⟨texts, htexts, h⟩ := ok_of_bind h
  obtain ⟨hlength, hall⟩ := forall_of_mapM (fun _ _ => isStage_of_parse) h
  refine ⟨?_, hall⟩
  rintro rfl
  exact (listed_of_commaSeparated htexts).1 (List.length_eq_zero_iff.mp hlength.symm)

theorem isHeader_of_parse {value : String} {header : String × String}
    (h : parseHeader value = .ok header) : IsHeader header := by
  unfold parseHeader at h
  split at h
  · rename_i name text hsplit
    cases h
    simp only [IsHeader, String.toList_ofList]
    refine ⟨fun hmem => ?_, isTrimmed_trim _, isTrimmed_trim _⟩
    exact (splitOnce_eq_some hsplit).2 (mem_of_mem_trim hmem)
  · cases h

theorem speed_of_parse {value : String} {x : ℚ} (h : parseReplaySpeed value = .ok x) :
    0 < x ∧ IsF64 x := by
  unfold parseReplaySpeed at h
  split at h
  · cases h
  · rename_i speed hparse
    split at h
    · rename_i x' hfilter
      cases h
      obtain ⟨rfl, hpos⟩ := Option.filter_eq_some_iff.mp hfilter
      exact ⟨of_decide_eq_true hpos, isF64_of_parse hparse⟩
    · cases h

theorem ne_nil_of_parseDataBinary {value path : String} (h : parseDataBinary value = .ok path) :
    path.toList ≠ [] := by
  unfold parseDataBinary at h
  split at h
  · rename_i text hfilter
    cases h
    rw [String.toList_ofList]
    exact of_decide_eq_true (Option.filter_eq_some_iff.mp hfilter).2
  · cases h

theorem nodup_of_addMethods {methods methods' : List Method} {values : List (List Char)}
    (h : addMethods methods values = .ok methods') (hmethods : methods.Nodup) :
    methods'.Nodup := by
  induction values generalizing methods with
  | nil =>
    cases h
    exact hmethods
  | cons value values ih =>
    obtain ⟨method, -, h⟩ := ok_of_bind h
    refine ih h ?_
    split
    · exact hmethods
    · rename_i hnew
      rw [← List.concat_eq_append]
      exact hmethods.concat hnew

def Given.WellFormed (given : Given) : Prop := given.options.WellFormed

theorem keeps_switch {set : CommandLine → CommandLine}
    (h : ∀ cli, cli.WellFormed → (set cli).WellFormed) : (switch set).Keeps Given.WellFormed := by
  intro given given' hset hgiven
  cases hset
  exact h _ hgiven

theorem keeps_parsed {α : Type} {missing : String} {parse : String → Except String α}
    {set : α → CommandLine → CommandLine} {P : α → Prop}
    (hparse : ∀ value a, parse value = .ok a → P a)
    (h : ∀ a, P a → ∀ cli, cli.WellFormed → (set a cli).WellFormed) :
    (parsed missing parse set).Keeps Given.WellFormed := by
  intro value given given' hset hgiven
  obtain ⟨a, ha, hset⟩ := ok_of_bind hset
  cases hset
  exact h a (hparse value a ha) _ hgiven

theorem forall_mem_concat {α : Type} {P : α → Prop} {l : List α} {a : α} (hl : ∀ b ∈ l, P b)
    (ha : P a) : ∀ b ∈ l ++ [a], P b :=
  List.forall_mem_append.mpr ⟨hl, List.forall_mem_singleton.mpr ha⟩

theorem forall_mem_some {α : Type} {P : α → Prop} {a : α} (ha : P a) : ∀ b ∈ some a, P b := by
  rintro _ ⟨⟩
  exact ha

/-- An option with any text. -/
theorem keeps_text {missing : String} {set : String → CommandLine → CommandLine}
    (h : ∀ text cli, cli.WellFormed → (set text cli).WellFormed) :
    (parsed missing .ok set).Keeps Given.WellFormed :=
  keeps_parsed (P := fun _ => True) (fun _ _ _ => trivial) fun text _ => h text

theorem keeps_optionActions :
    ∀ entry ∈ optionActions, entry.2.Keeps Given.WellFormed := by
  simp only [optionActions, List.forall_mem_cons]
  refine ⟨?profile, ?assert, ?requests, ?accessLog, ?requestFile, ?requestSchema,
    ?skipInvalidRecords, ?replayOrder, ?seed, ?replayRate, ?replayTimestamps, ?replaySpeed, ?stages,
    ?replayStages, ?replayRounds, ?outputFormat, ?outputBeauty, ?outputHtml, ?request, ?header,
    ?data, ?dataBinary, ?allowedMethods, ?allowedUris, ?duration, ?timeout, ?latency, ?connections,
    ?threads, ?help, ?version, List.forall_mem_nil _⟩
  case profile =>
    intro path given given' hset hgiven
    cases hset
    exact hgiven
  case assert =>
    exact keeps_text fun _ _ h => { h with assertions := forall_mem_concat h.assertions rfl }
  case requests =>
    exact keeps_parsed (fun _ _ => isCount_of_parse) fun _ ha _ h =>
      { h with requests := forall_mem_some ha }
  case accessLog => exact keeps_text fun _ _ h => { h with }
  case requestFile => exact keeps_text fun _ _ h => { h with }
  case requestSchema => exact keeps_text fun _ _ h => { h with }
  case skipInvalidRecords => exact keeps_switch fun _ h => { h with }
  case replayOrder =>
    exact keeps_parsed (P := fun _ => True) (fun _ _ _ => trivial) fun _ _ _ h => { h with }
  case seed =>
    exact keeps_parsed (P := fun _ => True) (fun _ _ _ => trivial) fun _ _ _ h => { h with }
  case replayRate =>
    exact keeps_parsed (fun _ _ => isCount_of_parse) fun _ ha _ h =>
      { h with replayRate := forall_mem_some ha }
  case replayTimestamps => exact keeps_switch fun _ h => { h with }
  case replaySpeed =>
    exact keeps_parsed (fun _ _ => speed_of_parse) fun _ ha _ h =>
      { h with replaySpeed := forall_mem_some ha }
  case stages =>
    exact keeps_parsed (fun _ _ => areStages_of_parse) fun _ ha _ h =>
      { h with stages := forall_mem_some ha }
  case replayStages =>
    exact keeps_parsed (fun _ _ => areStages_of_parse) fun _ ha _ h =>
      { h with replayStages := forall_mem_some ha }
  case replayRounds =>
    exact keeps_parsed (fun _ _ => isCount_of_parse) fun _ ha _ h =>
      { h with replayRounds := forall_mem_some ha }
  case outputFormat =>
    refine keeps_parsed (P := fun format => format ≠ .beauty) (fun value format hparse => ?_)
      fun format ha _ h => { h with outputFormat := fun hsome => ha (Option.some.inj hsome) }
    unfold parseCommandOutputFormat at hparse
    split at hparse
    · cases hparse
      exact OutputFormat.noConfusion
    · cases hparse
      exact OutputFormat.noConfusion
    · cases hparse
  case outputBeauty => exact keeps_switch fun _ h => { h with }
  case outputHtml => exact keeps_text fun _ _ h => { h with }
  case request =>
    exact keeps_parsed (P := fun _ => True) (fun _ _ _ => trivial) fun _ _ _ h => { h with }
  case header =>
    exact keeps_parsed (fun _ _ => isHeader_of_parse) fun _ ha _ h =>
      { h with headers := forall_mem_concat h.headers ha }
  case data => exact keeps_text fun _ _ h => { h with }
  case dataBinary =>
    intro value given given' hset hgiven
    obtain ⟨path, hpath, hset⟩ := ok_of_bind hset
    unfold setDataBinary at hset
    split at hset
    · cases hset
    · cases hset
      exact { hgiven with dataBinary := forall_mem_some (ne_nil_of_parseDataBinary hpath) }
  case allowedMethods =>
    intro value given given' hset hgiven
    obtain ⟨texts, -, hset⟩ := ok_of_bind hset
    obtain ⟨methods, hmethods, hset⟩ := ok_of_bind hset
    cases hset
    exact { hgiven with allowedMethods := nodup_of_addMethods hmethods hgiven.allowedMethods }
  case allowedUris =>
    refine keeps_parsed (fun _ _ => listed_of_commaSeparated) fun texts htexts _ h =>
      { h with allowedUris := List.forall_mem_append.mpr ⟨h.allowedUris, fun uri huri => ?_⟩ }
    obtain ⟨text, htext, rfl⟩ := List.mem_map.mp huri
    rw [String.toList_ofList]
    exact htexts.2 text htext
  case duration =>
    exact keeps_parsed (fun _ _ => isMillis_of_parse) fun _ ha _ h =>
      { h with duration := forall_mem_some ha }
  case timeout =>
    exact keeps_parsed (fun _ _ => isMillis_of_parse) fun _ ha _ h =>
      { h with timeout := forall_mem_some ha }
  case latency => exact keeps_switch fun _ h => h
  case connections =>
    exact keeps_parsed (fun _ _ => isCount_of_parse) fun _ ha _ h =>
      { h with connections := forall_mem_some ha }
  case threads =>
    exact keeps_parsed (fun _ _ => isCount_of_parse) fun _ ha _ h =>
      { h with threads := forall_mem_some ha }
  case help => trivial
  case version => exact keeps_switch fun _ h => { h with }

theorem keeps_findOption {name : String} {action : Action Given}
    (h : findOption name = .ok action) : action.Keeps Given.WellFormed := by
  unfold findOption at h
  split at h
  · cases h
  · split at h
    · rename_i hfind
      cases h
      exact keeps_optionActions _ (List.mem_of_find?_eq_some hfind)
    · split at h
      · cases h
      · rename_i hurl
        cases h
        intro given given' hset hgiven
        unfold setUrl at hset
        split at hset
        · cases hset
        · cases hset
          exact { hgiven with url := forall_mem_some (Bool.eq_false_iff.mpr hurl) }

theorem wellFormed_empty : Given.WellFormed {} where
  assertions := List.forall_mem_nil _
  requests := nofun
  duration := nofun
  connections := nofun
  threads := nofun
  timeout := nofun
  url := nofun
  replayRate := nofun
  replaySpeed := nofun
  stages := nofun
  replayStages := nofun
  replayRounds := nofun
  outputFormat := nofun
  headers := List.forall_mem_nil _
  dataBinary := nofun
  allowedMethods := List.nodup_nil
  allowedUris := List.forall_mem_nil _

theorem wellFormed_of_parse {arguments : List String} {given : Given}
    (h : parseArguments arguments = .ok (some given)) : given.WellFormed :=
  run_keeps (fun _ _ => keeps_findOption) h wellFormed_empty

end Rload.Profiles
