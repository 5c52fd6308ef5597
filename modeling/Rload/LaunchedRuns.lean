import Rload.CheckedPlans
import Rload.PanicFreeRuns

/-!
# Runs from the command line

From the arguments and the files to the workers: the plan that the program makes of its arguments
is prepared as a run, and what it prepares has all that the workers rely on.
-/

namespace Rload

namespace TextScanning

theorem sublist_of_mem_splitOnP {α : Type} {p : α → Bool} {l piece : List α}
    (h : piece ∈ l.splitOnP p) : piece.Sublist l := by
  induction l generalizing piece with
  | nil =>
    rw [List.splitOnP_nil, List.mem_singleton] at h
    rw [h]
  | cons b l ih =>
    rw [List.splitOnP_cons_eq_if_modifyHead] at h
    split at h
    · obtain rfl | h := List.mem_cons.mp h
      · exact List.nil_sublist _
      · exact (ih h).cons b
    · obtain ⟨first, pieces, hl⟩ := List.exists_cons_of_ne_nil (List.splitOnP_ne_nil p l)
      rw [hl] at h ih
      obtain rfl | h := List.mem_cons.mp h
      · exact (ih List.mem_cons_self).cons_cons b
      · exact (ih (List.mem_cons_of_mem _ h)).cons b

theorem length_encodeUtf8_le {cs ds : List Char} (h : cs.Sublist ds) :
    (encodeUtf8 cs).length ≤ (encodeUtf8 ds).length := (h.flatMap _).length_le

end TextScanning

open TextScanning

namespace AccessLog
open RequestFile (rawLines)

theorem sublist_of_enclosed {opening closing : Char} {line text : List Char}
    (h : enclosed opening closing line = some text) : text.Sublist line := by
  obtain ⟨⟨before, remainder⟩, hopening, h⟩ := Option.bind_eq_some_iff.mp h
  obtain ⟨⟨text', after⟩, hclosing, rfl⟩ := Option.map_eq_some_iff.mp h
  obtain ⟨rfl, -⟩ := splitOnce_eq_some hopening
  obtain ⟨rfl, -⟩ := splitOnce_eq_some hclosing
  exact ((List.sublist_append_left _ _).trans (List.sublist_cons_self _ _)).trans
    (List.sublist_append_right _ _)

/-- The path of a request stands in its line. -/
theorem sublist_of_parseLine {checks : Bool} {line : List Char} {lineNumber : ℕ}
    {r : ReplayRequest} (h : parseLine checks line lineNumber = .ok (.request r)) :
    r.path.Sublist line := by
  obtain ⟨request, hrequest, h⟩ := ok_of_bind h
  obtain ⟨timestampMicros, -, h⟩ := ok_of_bind h
  have hfields : ∀ method fields,
      parseFields lineNumber timestampMicros method fields = .ok (.request r) →
        r.path ∈ fields := by
    intro method fields h
    obtain ⟨path, hpath, h⟩ := ok_of_bind h
    obtain ⟨version, -, h⟩ := ok_of_bind h
    have hhead := (Option.filter_eq_some_iff.mp (some_of_orHalt hpath)).1
    split at h
    · cases h
    · cases h
      exact List.mem_of_mem_head? hhead
  have hwords : ∀ word ∈ splitWhitespace request, word.Sublist line := fun word hword =>
    (sublist_of_mem_splitOnP (List.mem_filter.mp hword).1).trans
      (sublist_of_enclosed (some_of_orHalt hrequest))
  split at h
  · cases h
  · rename_i method fields hsplit
    rw [hsplit] at hwords
    split at h
    · exact hwords _ (List.mem_cons_of_mem _ (hfields _ _ h))
    · split at h
      · exact hwords _ (List.mem_cons_of_mem _ (hfields _ _ h))
      · cases h

theorem sublist_withoutBreak (raw : List UInt8) : (withoutBreak raw).Sublist raw := by
  unfold withoutBreak
  split
  · dsimp only
    split
    · exact (List.dropLast_sublist _).trans (List.dropLast_sublist _)
    · exact List.dropLast_sublist _
  · exact List.Sublist.refl _

theorem path_le_of_entryOf {checks : Bool} {raw : List UInt8} {lineNumber : ℕ} {r : ReplayRequest}
    (h : entryOf checks raw lineNumber = .ok (some (.request r))) :
    (encodeUtf8 r.path).length ≤ raw.length := by
  obtain ⟨line, hline, h⟩ := ok_of_bind h
  split at h
  · cases h
  · cases hparse : parseLine checks line lineNumber with
    | error halt =>
      rw [hparse] at h
      cases h
    | ok entry =>
      rw [hparse] at h
      cases h
      have hbytes := encodeUtf8_of_decodeUtf8 (some_of_orHalt hline)
      calc (encodeUtf8 r.path).length ≤ (encodeUtf8 line).length :=
            length_encodeUtf8_le (sublist_of_parseLine hparse)
        _ = (withoutBreak raw).length := by rw [hbytes]
        _ ≤ raw.length := (sublist_withoutBreak raw).length_le

theorem path_le_of_entries {checks : Bool} {index : ℕ} {lines : List (List UInt8)}
    {entries : List ParsedLine} (h : Entries checks index lines entries) :
    ∀ r ∈ (collect entries).requests, ∃ raw ∈ lines, (encodeUtf8 r.path).length ≤ raw.length := by
  intro r hr
  obtain ⟨entry, hentry, hrequest⟩ := List.mem_filterMap.mp hr
  have hmem : ParsedLine.request r ∈ entries := by
    cases entry with
    | request r' =>
      cases hrequest
      exact hentry
    | skippedMethod method => cases hrequest
  clear hr hentry hrequest
  induction h with
  | nil => cases hmem
  | blank hraw h ih =>
    obtain ⟨raw', hraw', hle⟩ := ih hmem
    exact ⟨raw', List.mem_cons_of_mem _ hraw', hle⟩
  | parsed hraw h ih =>
    obtain rfl | hmem := List.mem_cons.mp hmem
    · exact ⟨_, List.mem_cons_self, path_le_of_entryOf hraw⟩
    · obtain ⟨raw', hraw', hle⟩ := ih hmem
      exact ⟨raw', List.mem_cons_of_mem _ hraw', hle⟩

theorem fits_of_read {checks : Bool} {file : Except IoError (List UInt8)}
    {replay : AccessLogReplay} (hlines : ∀ bytes, file = .ok bytes →
      ∀ raw ∈ rawLines bytes, raw.length + 8 < 2 ^ 32) (h : read checks file = .ok replay) :
    ∀ r ∈ replay.requests, FitsEntry r.path := by
  intro r hr
  cases file with
  | error e => cases h
  | ok bytes =>
    obtain ⟨entries, hentries, rfl, -⟩ := read_eq_ok_iff.mp h
    obtain ⟨raw, hraw, hle⟩ := path_le_of_entries hentries r hr
    have hlt := hlines bytes rfl raw hraw
    rw [FitsEntry]
    omega

end AccessLog

theorem fits_requestPath {before suffix : List Char} (hne : before ≠ [])
    (h : FitsEntry (before ++ suffix)) : FitsEntry (requestPath suffix) := by
  have hone : 1 ≤ (encodeUtf8 before).length :=
    List.length_pos_of_ne_nil (encodeUtf8_ne_nil hne)
  have hcons : ∀ cs : List Char, (encodeUtf8 ('/' :: cs)).length = 1 + (encodeUtf8 cs).length := by
    intro cs
    have hsplit : encodeUtf8 ('/' :: cs) = encodeUtf8 ['/'] ++ encodeUtf8 cs :=
      encodeUtf8_append ['/'] cs
    have hslash : (encodeUtf8 ['/']).length = 1 := by decide
    rw [hsplit, List.length_append, hslash]
  have hcut : ((splitOnce '#' suffix).map Prod.fst).getD suffix |>.Sublist suffix := by
    cases hsplit : splitOnce '#' suffix with
    | none => exact List.Sublist.refl _
    | some parts =>
      obtain ⟨rfl, -⟩ := splitOnce_eq_some hsplit
      exact List.sublist_append_left _ _
  have hle := length_encodeUtf8_le hcut
  rw [FitsEntry, encodeUtf8_append, List.length_append] at h
  rw [FitsEntry, requestPath]
  split
  · omega
  · rw [hcons]
    omega
  · rw [hcons, encodeUtf8_nil, List.length_nil]
    omega

theorem fits_of_parse {validServerName : List Char → Bool} {url : List Char} {t : Target}
    (hurl : FitsEntry url) (h : Target.parse validServerName url = .ok t) : FitsEntry t.path := by
  obtain ⟨name, -, suffix, hparts, hhost, -, -, hpath⟩ := Target.parse_eq_ok h
  rw [hpath]
  rw [hparts] at hurl
  exact fits_requestPath (List.append_ne_nil_of_right_ne_nil name hhost) hurl

namespace Profiles

/-- What the program reads, and what it takes from libraries. -/
structure Environment where
  overflowChecks : Bool
  readBodyFile : String → Except String (List UInt8)
  readProfile : String → Except String Profile
  openFile : String → Except IoError (List UInt8)
  readSchema : String → Except RequestFile.SchemaFault RequestFile.RequestSchema
  json : RequestFile.JsonLibrary
  times : RequestFile.TimeLibrary
  validServerName : List Char → Bool

/-- The input that the library makes of a workload. -/
def Workload.input (env : Environment) : Workload → Except InputFault RequestInput
  | .plain stages => do
    (validateStages stages).mapError .run
    return .default stages
  | .request headers body stages => do
    (validateStages stages).mapError .run
    return .single (headers.map fun (name, value) => (name.toList, value.toList)) body stages
  | .accessLog path replay rounds filter =>
    RequestInput.ofAccessLog env.overflowChecks (env.openFile path) replay rounds filter
  | .requestFile path replay rounds schema skipInvalidRecords filter =>
    RequestInput.ofRequestFile (fun timestamps => RequestFile.read env.json env.times
      (env.openFile path) (schema.map env.readSchema) timestamps skipInvalidRecords) replay rounds
      filter

/-- The run that is prepared for a plan. -/
def Plan.prepare (env : Environment) (plan : Plan) (seed : UInt64) (now : ℕ) :
    Except InputFault (Option PreparedRun) := do
  let input ← plan.workload.input env
  let t ← (Target.parse env.validServerName plan.url.toList).mapError .run
  prepareRun t plan.config plan.method input seed now

/-- The options of a workload; a workload without a replay has the default order. -/
def Workload.options (workload : Workload) : ReplayOptions :=
  ((workload.replay?.map Prod.fst).getD { stages := workload.stages })

/-- The URL and the lines of an access log fit an entry, whose places have 32 bits. -/
structure Environment.Fits (env : Environment) (plan : Plan) : Prop where
  url : FitsEntry plan.url.toList
  lines : ∀ path bytes, plan.workload.source = some ("nginx", path) →
    env.openFile path = .ok bytes →
    ∀ raw ∈ RequestFile.rawLines bytes, raw.length + 8 < 2 ^ 32

variable {env : Environment} {arguments : List String} {plan : Plan}

/-- The inputs of plans are checked. -/
theorem checked_of_plan {t : Target} {input : RequestInput}
    (hplan : planOf env.readBodyFile env.readProfile arguments = .ok (some plan))
    (hfits : env.Fits plan) (hinput : plan.workload.input env = .ok input)
    (ht : Target.parse env.validServerName plan.url.toList = .ok t) :
    input.Checked t ∧ input.options = plan.workload.options := by
  obtain ⟨given, s, body, -, hs, -, hplanned⟩ := sound_planOf hplan
  have hrate : ∀ options rounds, plan.workload.replay? = some (options, rounds) →
      options.rate ≠ some 0 := by
    intro options rounds hreplay
    rw [hplanned.workload] at hreplay
    obtain ⟨rfl, -⟩ := replay_workload hreplay
    exact hs.rate
  cases hworkload : plan.workload with
  | plain stages =>
    rw [hworkload] at hinput
    obtain ⟨_, -, hinput⟩ := ok_of_bind hinput
    cases hinput
    exact ⟨fits_of_parse hfits.url ht, rfl⟩
  | request headers body stages =>
    rw [hworkload] at hinput
    obtain ⟨_, -, hinput⟩ := ok_of_bind hinput
    cases hinput
    exact ⟨trivial, rfl⟩
  | accessLog path replay rounds filter =>
    rw [hworkload] at hinput hrate
    have hmade : RequestInput.ofRequests .accessLog _ replay rounds filter = .ok input := hinput
    refine RequestInput.checked_ofRequests (fun requests hread => ?_) (hrate replay rounds rfl)
      hmade
    cases hlog : AccessLog.read env.overflowChecks (env.openFile path) with
    | error halt =>
      rw [hlog] at hread
      cases hread
    | ok log =>
      rw [hlog] at hread
      cases hread
      have hsource : plan.workload.source = some ("nginx", path) := by
        rw [hworkload]
        rfl
      exact AccessLog.fits_of_read (fun bytes => hfits.lines path bytes hsource) hlog
  | requestFile path replay rounds schema skip filter =>
    rw [hworkload] at hinput hrate
    have hmade : RequestInput.ofRequests .requestFile _ replay rounds filter = .ok input := hinput
    refine RequestInput.checked_ofRequests (fun requests hread => ?_) (hrate replay rounds rfl)
      hmade
    dsimp only at hread
    cases hfile : RequestFile.read env.json env.times (env.openFile path)
        (schema.map env.readSchema) replay.timestamps skip with
    | error fault =>
      rw [hfile] at hread
      cases hread
    | ok file =>
      rw [hfile] at hread
      cases hread
      exact fun r hr => fitsEntry_of_validate (RequestFile.valid_of_read hfile r hr)

/-- Whatever the arguments, the profile and the files are, and whatever the server does, workers
end by errors of the library alone, and what they index and slice is there. -/
theorem launched_runs_do_not_panic (input : RunInput) {seed : UInt64} {now : ℕ}
    (hplan : planOf env.readBodyFile env.readProfile arguments = .ok (some plan))
    (hfits : env.Fits plan) (hprepared : plan.prepare env seed now = .ok (some input.prepared))
    (schedule : List ℕ) :
    (∀ w ∈ (input.after schedule).components,
      (∀ halt, w.phase = .finished (.error halt) →
        (∃ e, halt = .error e) ∨ plan.workload.options.MayHalt halt) ∧
      ∀ c ∈ w.connections, c.writeOffset ≤ c.request.length ∧ IsText c.request c.uri) ∧
    (input.after schedule).shared.Ready plan.workload.options := by
  obtain ⟨request, hinput, hprepared⟩ := ok_of_bind hprepared
  obtain ⟨t, ht, hprepared⟩ := ok_of_bind hprepared
  obtain ⟨hchecked, hoptions⟩ := checked_of_plan hplan hfits hinput
    (RequestFile.mapError_eq_ok.mp ht)
  rw [← hoptions]
  exact input.safe_of_ready (ready_prepareRun hchecked hprepared) schedule

/-- One log for every path, and libraries that are not asked. -/
def quietEnvironment : Environment where
  overflowChecks := true
  readBodyFile := fun _ => .error "no file"
  readProfile := fun _ => .error "no profile"
  openFile := fun _ => .ok AccessLog.rootLog
  readSchema := fun _ => .error (.invalid "no schema")
  json := ⟨fun _ => none, fun _ => true⟩
  times := ⟨fun _ _ => true, fun _ _ => none⟩
  validServerName := fun _ => true

def replayArguments : List String := ["--access-log", "requests.log", "-n2", "http://localhost/"]

theorem launched_runs_do_not_panic_sample :
    ∃ plan prepared,
      planOf quietEnvironment.readBodyFile quietEnvironment.readProfile replayArguments =
        .ok (some plan) ∧
      plan.prepare quietEnvironment 0 0 = .ok (some prepared) ∧
      ∀ w ∈ (({ RunInput.unservedRun with prepared } : RunInput).after [0]).components,
        ∀ halt, w.phase = .finished (.error halt) → ∃ e, halt = .error e := by
  have hvalues : ((planOf quietEnvironment.readBodyFile quietEnvironment.readProfile
      replayArguments).toOption.join).map (fun plan => (plan.url, plan.workload.options.order,
        plan.workload.options.timestamps, plan.workload.options.rate,
        plan.workload.options.stages.length,
        ((plan.prepare quietEnvironment 0 0).toOption.join).isSome)) =
      some ("http://localhost/", .sequential, false, none, 0, true) := by decide +kernel
  obtain ⟨plan, hplan, hvalues⟩ := Option.map_eq_some_iff.mp hvalues
  simp only [Prod.mk.injEq] at hvalues
  obtain ⟨hurl, horder, htimestamps, hrate, hstages, hsome⟩ := hvalues
  obtain ⟨prepared, hprepared⟩ := Option.isSome_iff_exists.mp hsome
  have hfits : quietEnvironment.Fits plan := by
    refine ⟨?_, fun path bytes _ hbytes => ?_⟩
    · rw [hurl]
      decide +kernel
    · cases hbytes
      decide +kernel
  have hplan := ok_of_toOption (Option.join_eq_some_iff.mp hplan)
  have hprepared := ok_of_toOption (Option.join_eq_some_iff.mp hprepared)
  refine ⟨plan, prepared, hplan, hprepared, ?_⟩
  intro w hw halt hphase
  have hpanics := launched_runs_do_not_panic { RunInput.unservedRun with prepared }
    hplan hfits hprepared [0]
  obtain herror | ⟨hrandom, -⟩ | ⟨htimed, -⟩ | ⟨hpaced, -⟩ := (hpanics.1 w hw).1 halt hphase
  · exact herror
  · exact absurd horder hrandom
  · rw [htimestamps] at htimed
    cases htimed
  · simp [ReplayOptions.IsPaced, hrate, htimestamps, List.length_eq_zero_iff.mp hstages] at hpaced

end Profiles

end Rload
