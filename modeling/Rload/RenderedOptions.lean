import Rload.ExpressibleOptions

/-!
# Arguments for options

Settings that are well-formed are written as arguments, an option for each setting, and the loop
over these arguments gives the settings back.
-/

namespace Rload.Profiles
open TextScanning FloatingSeconds ArgumentLoop

def millisText (duration : ℕ) : String := (duration / 10 ^ 6).repr ++ "ms"

def stageText (stage : ReplayStage) : String :=
  millisText stage.duration ++ ":" ++ stage.rate.repr

def stagesText (stages : List ReplayStage) : String :=
  String.ofList ([','].intercalate (stages.map fun stage => (stageText stage).toList))

def speedText (x : ℚ) : String := String.ofList (decimalText x)

def headerText (header : String × String) : String := header.1 ++ ":" ++ header.2

def orderText : ReplayOrder → String
  | .sequential => "sequential"
  | .shuffle => "shuffle"
  | .random => "random"

def formatText : OutputFormat → String
  | .json => "json"
  | _ => "text"

def methodText (method : Method) : String := String.ofList method.asStr

section Values

theorem parseInteger_repr {what : String} {n : ℕ} (h : n < 2 ^ 64) :
    parseInteger what n.repr = .ok n := by
  rw [parseInteger, parseUnsigned_of_numeral (numeral_repr n) h]

theorem parseCount_repr {what : String} {n : ℕ} (h : IsCount n) :
    parseCount what n.repr = .ok n := by
  rw [parseCount, parseInteger_repr h.2]
  exact if_neg h.1.ne'

theorem stripSuffix_append (text last : List Char) :
    stripSuffix last (text ++ last) = some text := by
  rw [stripSuffix, List.reverse_append, stripPrefix,
    if_pos (List.isPrefixOf_iff_prefix.mpr (List.prefix_append _ _)), List.drop_left,
    Option.map_some, List.reverse_reverse]

theorem millisText_toList (millis : ℕ) :
    (millisText (millis * 10 ^ 6)).toList = millis.repr.toList ++ ['m', 's'] := by
  have hunit : "ms".toList = ['m', 's'] := by decide
  have hpos : 0 < 10 ^ 6 := by decide
  rw [millisText, Nat.mul_div_cancel millis hpos, String.toList_append, hunit]

theorem durationUnit_millisText (millis : ℕ) :
    durationUnit (millisText (millis * 10 ^ 6)).toList = (millis.repr.toList, 1) := by
  rw [millisText_toList, durationUnit, stripSuffix_append]

theorem parseDuration_millisText {duration : ℕ} (h : IsMillis duration) :
    parseDuration (millisText duration) = .ok duration := by
  obtain ⟨millis, hcount, rfl⟩ := h
  have hnumber := parseUnsigned_of_numeral (numeral_repr millis) hcount.2
  have hbounds : millis < 2 ^ 64 ∧ 0 < millis := ⟨hcount.2, hcount.1⟩
  rw [parseDuration, durationUnit_millisText]
  simp only [hnumber, mul_one, if_pos hbounds]

theorem isTrimmed_of_none {text : List Char} (h : ∀ c ∈ text, ¬ isWhitespace c) :
    IsTrimmed text := by
  have htrim := trim_word (l := []) (r := []) (by simp) h (by simp)
  rwa [List.nil_append, List.append_nil] at htrim

theorem isWhitespace_of_isDigit {c : Char} (hc : c.isDigit = true) : isWhitespace c = false := by
  rw [Char.isDigit, Bool.and_eq_true, decide_eq_true_eq, decide_eq_true_eq] at hc
  have hlow : 48 ≤ c.toNat := UInt32.le_iff_toNat_le.mp hc.1
  have hhigh : c.toNat ≤ 57 := UInt32.le_iff_toNat_le.mp hc.2
  simp only [isWhitespace]
  simp
  omega

theorem millisText_chars {duration : ℕ} {c : Char} (hc : c ∈ (millisText duration).toList) :
    c.isDigit = true ∨ c ∈ ['m', 's'] := by
  rw [millisText, String.toList_append, List.mem_append] at hc
  exact hc.imp_left isDigit_of_repr

theorem stageText_chars {stage : ReplayStage} {c : Char} (hc : c ∈ (stageText stage).toList) :
    c.isDigit = true ∨ c ∈ ['m', 's', ':'] := by
  simp only [stageText, String.toList_append, List.mem_append] at hc
  obtain (hc | hc) | hc := hc
  · exact (millisText_chars hc).imp_right fun hletter => List.mem_append_left [':'] hletter
  · exact Or.inr (List.mem_append_right ['m', 's'] hc)
  · exact Or.inl (isDigit_of_repr hc)

theorem isListed_stageText (stage : ReplayStage) : IsListed (stageText stage).toList := by
  refine ⟨?_, ?_, isTrimmed_of_none fun c hc => ?_⟩
  · simp [stageText, millisText]
  · intro hmem
    obtain hdigit | hletter := stageText_chars hmem
    · exact absurd hdigit (by decide)
    · exact absurd hletter (by decide)
  · have hletters : ∀ c ∈ ['m', 's', ':'], isWhitespace c = false :=
      List.forall_mem_cons.mpr ⟨rfl, List.forall_mem_cons.mpr ⟨rfl,
        List.forall_mem_singleton.mpr rfl⟩⟩
    obtain hdigit | hletter := stageText_chars hc
    · rw [isWhitespace_of_isDigit hdigit]
      exact Bool.false_ne_true
    · rw [hletters c hletter]
      exact Bool.false_ne_true

/-- Listed texts are read back from between the commas. -/
theorem commaSeparated_intercalate {texts : List (List Char)} {option : String}
    (hne : texts ≠ []) (h : ∀ text ∈ texts, IsListed text) :
    commaSeparated (String.ofList ([','].intercalate texts)) option = .ok texts := by
  have hsplit : ([','].intercalate texts).splitOn ',' = texts :=
    List.splitOn_intercalate ',' (fun text htext => (h text htext).2.1) hne
  have htrim : texts.map trim = texts :=
    (List.map_congr_left fun text htext => (h text htext).2.2).trans (List.map_id' _)
  rw [commaSeparated, String.toList_ofList, hsplit, htrim]
  refine if_neg fun hnil => ?_
  obtain ⟨text, htext, hempty⟩ := List.any_eq_true.mp hnil
  exact (h text htext).1 (List.isEmpty_iff.mp hempty)

theorem parseStage_stageText {name : String} {stage : ReplayStage} (h : IsStage stage) :
    parseStage name (stageText stage).toList = .ok stage := by
  have hsplit : splitOnce ':' (stageText stage).toList =
      some ((millisText stage.duration).toList, stage.rate.repr.toList) := by
    rw [stageText, String.toList_append, String.toList_append, List.append_assoc]
    refine splitOnce_append fun hmem => ?_
    obtain hdigit | hletter := millisText_chars hmem
    · exact absurd hdigit (by decide)
    · exact absurd hletter (by decide)
  simp only [parseStage, hsplit, String.ofList_toList, parseDuration_millisText h.1,
    parseInteger_repr h.2.2]
  refine if_neg ?_
  rintro (hzero | hzero)
  · obtain ⟨millis, hcount, hmillis⟩ := h.1
    have hpos := hcount.1
    omega
  · exact h.2.1.ne' hzero

theorem parseStages_stagesText {option : String} {stages : List ReplayStage}
    (h : AreStages stages) : parseStages (stagesText stages) option = .ok stages := by
  have htexts : commaSeparated (stagesText stages) option =
      .ok (stages.map fun stage => (stageText stage).toList) := by
    refine commaSeparated_intercalate (fun hnil => h.1 (List.map_eq_nil_iff.mp hnil)) ?_
    intro text htext
    obtain ⟨stage, -, rfl⟩ := List.mem_map.mp htext
    exact isListed_stageText stage
  have hparse : ∀ (name : String) (l : List ReplayStage), (∀ stage ∈ l, IsStage stage) →
      (l.map fun stage => (stageText stage).toList).mapM (parseStage name) = .ok l := by
    intro name l hl
    induction l with
    | nil => rfl
    | cons stage l ih =>
      rw [List.forall_mem_cons] at hl
      rw [List.map_cons, List.mapM_cons, parseStage_stageText hl.1, ih hl.2]
      rfl
  rw [parseStages, htexts]
  exact hparse _ stages h.2

theorem parseReplaySpeed_speedText {x : ℚ} (hpos : 0 < x) (hx : IsF64 x) :
    parseReplaySpeed (speedText x) = .ok x := by
  have hfilter : (some x).filter (0 < ·) = some x := by
    rw [Option.filter_some, if_pos (decide_eq_true hpos)]
  simp only [parseReplaySpeed, speedText, String.toList_ofList, parseF64_decimalText hx hpos.le,
    hfilter]

theorem parseHeader_headerText {header : String × String} (h : IsHeader header) :
    parseHeader (headerText header) = .ok header := by
  obtain ⟨hcolon, hname, hvalue⟩ := h
  have hsplit : splitOnce ':' (headerText header).toList =
      some (header.1.toList, header.2.toList) := by
    rw [headerText, String.toList_append, String.toList_append, List.append_assoc]
    exact splitOnce_append hcolon
  rw [IsTrimmed] at hname hvalue
  simp only [parseHeader, hsplit, hname, hvalue, String.ofList_toList]

theorem parseDataBinary_path {path : String} (h : path.toList ≠ []) :
    parseDataBinary ("@" ++ path) = .ok path := by
  have hstrip : stripPrefix ['@'] ("@" ++ path).toList = some path.toList := by
    rw [String.toList_append]
    exact if_pos rfl
  have hfilter : (some path.toList).filter (· ≠ []) = some path.toList := by
    rw [Option.filter_some, if_pos (decide_eq_true h)]
  simp only [parseDataBinary, hstrip, hfilter, String.ofList_toList]

theorem commaSeparated_listed {text : String} {option : String} (h : IsListed text.toList) :
    commaSeparated text option = .ok [text.toList] := by
  have hread : commaSeparated (String.ofList ([','].intercalate [text.toList])) option =
      .ok [text.toList] :=
    commaSeparated_intercalate (List.cons_ne_nil _ _) (List.forall_mem_singleton.mpr h)
  rwa [List.intercalate_singleton, String.ofList_toList] at hread

theorem isListed_asStr (method : Method) : IsListed method.asStr := by
  cases method <;> exact ⟨by decide, by decide, rfl⟩

theorem parseReplayOrder_orderText (order : ReplayOrder) :
    parseReplayOrder (orderText order) = .ok order := by
  cases order <;> rfl

theorem parseCommandOutputFormat_formatText {format : OutputFormat} (h : format ≠ .beauty) :
    parseCommandOutputFormat (formatText format) = .ok format := by
  cases format with
  | text => rfl
  | beauty => exact absurd rfl h
  | json => rfl

theorem parseMethod_methodText (method : Method) :
    parseMethod (methodText method) = .ok method := by
  cases method <;> rfl

end Values

def optionArguments {α : Type} (name : String) (render : α → String) : Option α → List String
  | some a => [name, render a]
  | none => []

def switchArguments (name : String) (given : Bool) : List String := if given then [name] else []

def repeatedArguments {α : Type} (name : String) (render : α → String) (l : List α) :
    List String :=
  l.flatMap fun a => [name, render a]

/-- An option for each setting that there is. -/
def Given.arguments (given : Given) : List String :=
  let cli := given.options
  List.flatten [
    optionArguments "--profile" id given.profilePath,
    repeatedArguments "--assert" Assertion.expression cli.assertions,
    optionArguments "--requests" Nat.repr cli.requests,
    optionArguments "--duration" millisText cli.duration,
    optionArguments "--connections" Nat.repr cli.connections,
    optionArguments "--threads" Nat.repr cli.threads,
    optionArguments "--timeout" millisText cli.timeout,
    cli.url.toList,
    optionArguments "--access-log" id cli.accessLog,
    optionArguments "--request-file" id cli.requestFile,
    optionArguments "--request-schema" id cli.requestSchema,
    switchArguments "--skip-invalid-records" cli.skipInvalidRecords,
    optionArguments "--replay-order" orderText cli.replayOrder,
    optionArguments "--seed" (fun seed => seed.toNat.repr) cli.seed,
    optionArguments "--replay-rate" Nat.repr cli.replayRate,
    switchArguments "--replay-timestamps" cli.replayTimestamps,
    optionArguments "--replay-speed" speedText cli.replaySpeed,
    optionArguments "--stages" stagesText cli.stages,
    optionArguments "--replay-stages" stagesText cli.replayStages,
    optionArguments "--replay-rounds" Nat.repr cli.replayRounds,
    optionArguments "--output-format" formatText cli.outputFormat,
    switchArguments "--output-beauty" cli.outputBeauty,
    optionArguments "--output-html" id cli.outputHtml,
    switchArguments "--version" cli.version,
    optionArguments "--request" methodText cli.method,
    repeatedArguments "--header" headerText cli.headers,
    repeatedArguments "--data" id cli.data,
    optionArguments "--data-binary" ("@" ++ ·) cli.dataBinary,
    repeatedArguments "--allowed-methods" methodText cli.allowedMethods,
    repeatedArguments "--allowed-uris" id cli.allowedUris]

/-- The loop goes through the arguments and changes the settings so. -/
abbrev Gives (arguments : List String) (given given' : Given) : Prop :=
  Reads splitAttached findOption arguments given given'

section Options

variable {name missing : String} {given : Given}

theorem gives_option {α : Type} {parse : String → Except String α} {render : α → String}
    {value : Option α} (put : Option α → CommandLine → CommandLine)
    (hfind : findOption name = .ok (parsed missing parse fun a => put (some a)))
    (hsplit : splitAttached name = (name, none)) (hnone : put none given.options = given.options)
    (hparse : ∀ a ∈ value, parse (render a) = .ok a) :
    Gives (optionArguments name render value) given
      { given with options := put value given.options } := by
  cases value with
  | none =>
    rw [hnone]
    exact reads_nil
  | some a =>
    refine reads_value hsplit hfind ?_
    rw [hparse a rfl]
    rfl

theorem gives_switch {value : Bool} (put : Bool → CommandLine → CommandLine)
    (hfind : findOption (splitAttached name).1 = .ok (switch (put true)))
    (hnone : put false given.options = given.options) :
    Gives (switchArguments name value) given { given with options := put value given.options } := by
  cases value with
  | false =>
    rw [hnone]
    exact reads_nil
  | true => exact reads_flag hfind rfl

theorem gives_repeated {α : Type} {set : String → Given → Except String Given}
    {render : α → String} {l : List α} (put : List α → CommandLine → CommandLine)
    (hfind : findOption name = .ok (.value missing set))
    (hsplit : splitAttached name = (name, none)) (hnone : put [] given.options = given.options)
    (hset : ∀ before a after, l = before ++ a :: after →
      set (render a) { given with options := put before given.options } =
        .ok { given with options := put (before ++ [a]) given.options }) :
    Gives (repeatedArguments name render l) given
      { given with options := put l given.options } := by
  have hreads := reads_flatMap (fun l => { given with options := put l given.options })
    fun before a after hl => reads_value hsplit hfind (hset before a after hl)
  rwa [hnone] at hreads

end Options

section Special

variable {given : Given}

theorem gives_profile {path : Option String} (hnone : { given with profilePath := none } = given) :
    Gives (optionArguments "--profile" id path) given { given with profilePath := path } := by
  cases path with
  | none =>
    rw [hnone]
    exact reads_nil
  | some path => exact reads_value rfl rfl rfl

/-- A text that does not start as an option is no option. -/
theorem findOption_url {url : String} (h : ['-'].isPrefixOf url.toList = false) :
    splitAttached url = (url, none) ∧ findOption url = .ok (.flag (setUrl url)) := by
  have hnot : ∀ text : List Char, ['-'].isPrefixOf text = true → ¬ text <+: url.toList := by
    intro text htext hprefix
    have hdash := (List.isPrefixOf_iff_prefix.mp htext).trans hprefix
    rw [List.isPrefixOf_iff_prefix.mpr hdash] at h
    cases h
  have hattachable : ∀ option ∈ attachable, ['-'].isPrefixOf option.toList = true := by decide
  have hnames : ∀ entry ∈ optionActions, ∀ name ∈ entry.1,
      ['-'].isPrefixOf name.toList = true := by
    decide +kernel
  constructor
  · have hnone : attachable.findSome? (fun option =>
        ((stripPrefix option.toList url.toList).filter (· ≠ [])).map fun value =>
          (option, some (String.ofList value))) = none := by
      rw [List.findSome?_eq_none_iff]
      intro option hoption
      have hstrip : stripPrefix option.toList url.toList = none :=
        if_neg fun hprefix => hnot _ (hattachable option hoption)
          (List.isPrefixOf_iff_prefix.mp hprefix)
      rw [hstrip]
      rfl
    rw [splitAttached, hnone]
  · have hscript : isScript url.toList = false := by
      have hfirst : "--script=".toList.isPrefixOf url.toList = false :=
        Bool.eq_false_iff.mpr fun hprefix => hnot _ (by decide)
          (List.isPrefixOf_iff_prefix.mp hprefix)
      have hshort : "-s".toList.isPrefixOf url.toList = false :=
        Bool.eq_false_iff.mpr fun hprefix => hnot _ (by decide)
          (List.isPrefixOf_iff_prefix.mp hprefix)
      have hwhole : url.toList ≠ "--script".toList := fun heq =>
        hnot "--script".toList (by decide) (heq ▸ List.prefix_rfl)
      rw [isScript, hfirst, hshort, decide_eq_false hwhole]
      rfl
    rw [findOption, hscript, if_neg Bool.false_ne_true]
    split
    · rename_i names action hfound
      have hcontains := List.find?_some hfound
      change names.contains url = true at hcontains
      exact absurd List.prefix_rfl (hnot _ (hnames _ (List.mem_of_find?_eq_some hfound) url
        (List.contains_iff_mem.mp hcontains)))
    · simp only [h, Bool.false_eq_true, if_false]

theorem gives_url {url : Option String}
    (hnone : { given with options := { given.options with url := none } } = given)
    (hurl : ∀ text ∈ url, ['-'].isPrefixOf text.toList = false) :
    Gives url.toList given { given with options := { given.options with url := url } } := by
  cases url with
  | none =>
    rw [hnone]
    exact reads_nil
  | some text =>
    obtain ⟨hsplit, hfind⟩ := findOption_url (hurl text rfl)
    have hflag : findOption (splitAttached text).1 = .ok (.flag (setUrl text)) := by
      rw [hsplit]
      exact hfind
    have hset : setUrl text given =
        .ok { given with options := { given.options with url := some text } } := by
      rw [setUrl, if_neg]
      rw [← hnone]
      exact Bool.false_ne_true
    exact reads_flag hflag hset

theorem gives_seed {seed : Option UInt64}
    (hnone : { given with options := { given.options with seed := none } } = given) :
    Gives (optionArguments "--seed" (fun seed => seed.toNat.repr) seed) given
      { given with options := { given.options with seed := seed } } := by
  cases seed with
  | none =>
    rw [hnone]
    exact reads_nil
  | some seed =>
    refine reads_value rfl rfl ?_
    rw [parseInteger_repr seed.toNat_lt]
    change Except.ok { given with
      options := { given.options with seed := some (UInt64.ofNat seed.toNat) } } = _
    rw [UInt64.ofNat_toNat]

theorem gives_dataBinary {path : Option String}
    (hnone : { given with options := { given.options with dataBinary := none } } = given)
    (hpath : ∀ text ∈ path, text.toList ≠ []) :
    Gives (optionArguments "--data-binary" ("@" ++ ·) path) given
      { given with options := { given.options with dataBinary := path } } := by
  cases path with
  | none =>
    rw [hnone]
    exact reads_nil
  | some path =>
    refine reads_value rfl rfl ?_
    rw [parseDataBinary_path (hpath path rfl)]
    change setDataBinary path given = _
    rw [setDataBinary, if_neg]
    rw [← hnone]
    exact Bool.false_ne_true

theorem gives_assertions {assertions : List Assertion}
    (hnone : { given.options with assertions := [] } = given.options)
    (h : ∀ assertion ∈ assertions, assertion.message = none) :
    Gives (repeatedArguments "--assert" Assertion.expression assertions) given
      { given with options := { given.options with assertions := assertions } } := by
  refine gives_repeated (fun l cli => { cli with assertions := l }) rfl rfl hnone
    fun before a after hl => ?_
  have ha : a = ⟨a.expression, none⟩ := by
    rw [← h a (hl ▸ List.mem_append_right before List.mem_cons_self)]
  rw [ha]
  rfl

theorem gives_headers {headers : List (String × String)}
    (hnone : { given.options with headers := [] } = given.options)
    (h : ∀ header ∈ headers, IsHeader header) :
    Gives (repeatedArguments "--header" headerText headers) given
      { given with options := { given.options with headers := headers } } := by
  refine gives_repeated (fun l cli => { cli with headers := l }) rfl rfl hnone
    fun before a after hl => ?_
  rw [parseHeader_headerText (h a (hl ▸ List.mem_append_right before List.mem_cons_self))]
  rfl

theorem gives_allowedUris {uris : List String}
    (hnone : { given.options with allowedUris := [] } = given.options)
    (h : ∀ uri ∈ uris, IsListed uri.toList) :
    Gives (repeatedArguments "--allowed-uris" id uris) given
      { given with options := { given.options with allowedUris := uris } } := by
  refine gives_repeated (fun l cli => { cli with allowedUris := l }) rfl rfl hnone
    fun before a after hl => ?_
  have hread : commaSeparated a "--allowed-uris" = .ok [a.toList] :=
    commaSeparated_listed (h a (hl ▸ List.mem_append_right before List.mem_cons_self))
  rw [id]
  dsimp only
  rw [hread]
  change Except.ok { given with options :=
    { given.options with allowedUris := before ++ [String.ofList a.toList] } } = _
  rw [String.ofList_toList]

/-- A method that is not there yet is added. -/
theorem gives_allowedMethods {methods : List Method}
    (hnone : { given.options with allowedMethods := [] } = given.options) (h : methods.Nodup) :
    Gives (repeatedArguments "--allowed-methods" methodText methods) given
      { given with options := { given.options with allowedMethods := methods } } := by
  refine gives_repeated (fun l cli => { cli with allowedMethods := l }) rfl rfl hnone
    fun before a after hl => ?_
  have hread : commaSeparated (methodText a) "--allowed-methods" = .ok [a.asStr] := by
    have hlisted : IsListed (methodText a).toList := by
      rw [methodText, String.toList_ofList]
      exact isListed_asStr a
    rw [commaSeparated_listed hlisted, methodText, String.toList_ofList]
  have hnew : a ∉ before := by
    rw [hl] at h
    exact fun hmem => (List.nodup_cons.mp (List.nodup_middle.mp h)).1
      (List.mem_append_left after hmem)
  have hadd : addMethods before [a.asStr] = .ok (before ++ [a]) := by
    have hparse : parseMethod (String.ofList a.asStr) = .ok a := parseMethod_methodText a
    rw [addMethods, hparse]
    change addMethods (if a ∈ before then before else before ++ [a]) [] = _
    rw [if_neg hnew]
    rfl
  rw [hread]
  change (do
    let methods ← addMethods before [a.asStr]
    return { given with options := { given.options with allowedMethods := methods } }) = _
  rw [hadd]
  rfl

end Special

theorem Given.gives (given : Given) (h : given.WellFormed) : Gives given.arguments {} given := by
  unfold Gives Given.arguments
  refine Reads.flatten_cons (gives_profile rfl) ?_
  refine Reads.flatten_cons (gives_assertions rfl h.assertions) ?_
  refine Reads.flatten_cons (gives_option (fun v cli => { cli with requests := v }) rfl rfl rfl
    fun _ ha => parseCount_repr (h.requests _ ha)) ?_
  refine Reads.flatten_cons (gives_option (fun v cli => { cli with duration := v }) rfl rfl rfl
    fun _ ha => parseDuration_millisText (h.duration _ ha)) ?_
  refine Reads.flatten_cons (gives_option (fun v cli => { cli with connections := v }) rfl rfl rfl
    fun _ ha => parseCount_repr (h.connections _ ha)) ?_
  refine Reads.flatten_cons (gives_option (fun v cli => { cli with threads := v }) rfl rfl rfl
    fun _ ha => parseCount_repr (h.threads _ ha)) ?_
  refine Reads.flatten_cons (gives_option (fun v cli => { cli with timeout := v }) rfl rfl rfl
    fun _ ha => parseDuration_millisText (h.timeout _ ha)) ?_
  refine Reads.flatten_cons (gives_url rfl h.url) ?_
  refine Reads.flatten_cons (gives_option (fun v cli => { cli with accessLog := v }) rfl rfl rfl
    fun _ _ => rfl) ?_
  refine Reads.flatten_cons (gives_option (fun v cli => { cli with requestFile := v }) rfl rfl rfl
    fun _ _ => rfl) ?_
  refine Reads.flatten_cons (gives_option (fun v cli => { cli with requestSchema := v }) rfl rfl
    rfl fun _ _ => rfl) ?_
  refine Reads.flatten_cons (gives_switch (fun v cli => { cli with skipInvalidRecords := v }) rfl
    rfl) ?_
  refine Reads.flatten_cons (gives_option (fun v cli => { cli with replayOrder := v }) rfl rfl
    rfl fun order _ => parseReplayOrder_orderText order) ?_
  refine Reads.flatten_cons (gives_seed rfl) ?_
  refine Reads.flatten_cons (gives_option (fun v cli => { cli with replayRate := v }) rfl rfl rfl
    fun _ ha => parseCount_repr (h.replayRate _ ha)) ?_
  refine Reads.flatten_cons (gives_switch (fun v cli => { cli with replayTimestamps := v }) rfl
    rfl) ?_
  refine Reads.flatten_cons (gives_option (fun v cli => { cli with replaySpeed := v }) rfl rfl rfl
    fun _ ha => parseReplaySpeed_speedText (h.replaySpeed _ ha).1 (h.replaySpeed _ ha).2) ?_
  refine Reads.flatten_cons (gives_option (fun v cli => { cli with stages := v }) rfl rfl rfl
    fun _ ha => parseStages_stagesText (h.stages _ ha)) ?_
  refine Reads.flatten_cons (gives_option (fun v cli => { cli with replayStages := v }) rfl rfl rfl
    fun _ ha => parseStages_stagesText (h.replayStages _ ha)) ?_
  refine Reads.flatten_cons (gives_option (fun v cli => { cli with replayRounds := v }) rfl rfl rfl
    fun _ ha => parseCount_repr (h.replayRounds _ ha)) ?_
  refine Reads.flatten_cons (gives_option (fun v cli => { cli with outputFormat := v }) rfl rfl rfl
    fun _ ha => parseCommandOutputFormat_formatText fun hbeauty => h.outputFormat (hbeauty ▸ ha)) ?_
  refine Reads.flatten_cons (gives_switch (fun v cli => { cli with outputBeauty := v }) rfl rfl) ?_
  refine Reads.flatten_cons (gives_option (fun v cli => { cli with outputHtml := v }) rfl rfl rfl
    fun _ _ => rfl) ?_
  refine Reads.flatten_cons (gives_switch (fun v cli => { cli with version := v }) rfl rfl) ?_
  refine Reads.flatten_cons (gives_option (fun v cli => { cli with method := v }) rfl rfl rfl
    fun method _ => parseMethod_methodText method) ?_
  refine Reads.flatten_cons (gives_headers rfl h.headers) ?_
  refine Reads.flatten_cons (gives_repeated (fun l cli => { cli with data := l }) rfl rfl rfl
    fun _ _ _ _ => rfl) ?_
  refine Reads.flatten_cons (gives_dataBinary rfl h.dataBinary) ?_
  refine Reads.flatten_cons (gives_allowedMethods rfl h.allowedMethods) ?_
  refine Reads.flatten_cons (gives_allowedUris rfl h.allowedUris) ?_
  exact reads_nil

/-- The settings that arguments give are the well-formed ones, and the arguments of such settings
give them back. -/
theorem settings_read_back (given : Given) :
    ((∃ arguments, parseArguments arguments = .ok (some given)) ↔ given.WellFormed) ∧
      (given.WellFormed → parseArguments given.arguments = .ok (some given)) := by
  have hgives : given.WellFormed → parseArguments given.arguments = .ok (some given) :=
    fun h => (given.gives h).run_eq
  exact ⟨⟨fun ⟨_, h⟩ => wellFormed_of_parse h, fun h => ⟨given.arguments, hgives h⟩⟩, hgives⟩

theorem settings_read_back_sample :
    ∃ given, parseArguments ["-n2", "-T", "1500ms", "http://localhost/"] = .ok (some given) ∧
      given.options.timeout = some 1500000000 ∧
      parseArguments given.arguments = .ok (some given) := by
  have htimeout : (parseArguments ["-n2", "-T", "1500ms", "http://localhost/"]).toOption.map
      (Option.map (·.options.timeout)) = some (some (some 1500000000)) := by
    decide +kernel
  obtain ⟨_, hsome, htimeout⟩ := Option.map_eq_some_iff.mp htimeout
  obtain ⟨given, rfl, htimeout⟩ := Option.map_eq_some_iff.mp htimeout
  have hparse := ok_of_toOption hsome
  obtain ⟨hwellFormed, hread⟩ := settings_read_back given
  exact ⟨given, hparse, Option.some.inj htimeout, hread (hwellFormed.mp ⟨_, hparse⟩)⟩

end Rload.Profiles
