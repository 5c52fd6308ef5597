import Rload.AccessLogFiles
import Rload.PreparedSequences
import Rload.RecordTimes
import Rload.ReplayFilter
import Rload.SingleRequests

/-!
# What runs are made of

A run sends the one request of its target, a request of the command line, or the requests of a
replay. Each way of starting a run checks what the engine relies on, whence the sequence that is
prepared is ready for any number of draws.
-/

namespace Rload
open RequestFile (mapError_eq_ok)

/-- The methods and the records that a replay skipped are only reported and are left out. -/
inductive RequestInput where
  | default (stages : List ReplayStage)
  | single (headers : List (List Char × List Char)) (body : Option (List UInt8))
    (stages : List ReplayStage)
  | replay (requests : List ReplayRequest) (options : ReplayOptions) (rounds : Option ℕ)
    (filteredEntries : ℕ)

/-- Why a run does not start. -/
inductive InputFault where
  | halt (halt : Halt)
  | file (fault : RequestFile.ReadFault)
  | filter (fault : ReplayFilter.Fault)
  | request (fault : RequestFault)
  deriving DecidableEq, Repr

def InputFault.run (e : RunError) : InputFault := .halt (.error e)

namespace RequestInput

/-- The options of the replay; the other inputs have their default order. -/
def options : RequestInput → ReplayOptions
  | default stages => { stages := stages }
  | single _ _ stages => { stages := stages }
  | replay _ options _ _ => options

def checkTimestamps (options : ReplayOptions) (source : TimestampSource)
    (requests : List ReplayRequest) : Except InputFault Unit :=
  if options.timestamps then (validateTimestamps requests source).mapError .run else .ok ()

/-- What both files of requests go through. -/
def ofRequests (source : TimestampSource) (read : Except InputFault (List ReplayRequest))
    (options : ReplayOptions) (rounds : Option ℕ) (filter : ReplayFilter) :
    Except InputFault RequestInput := do
  (validateReplayOptions options rounds).mapError .run
  let requests ← read
  let (requests, filtered) ← (ReplayFilter.apply requests filter).mapError .filter
  checkTimestamps options source requests
  .ok (.replay requests options rounds filtered)

/-- The input of `run_access_log_with_run_options`. -/
def ofAccessLog (overflowChecks : Bool) (file : Except IoError (List UInt8)) :
    ReplayOptions → Option ℕ → ReplayFilter → Except InputFault RequestInput :=
  ofRequests .accessLog (((AccessLog.read overflowChecks file).mapError .halt).map (·.requests))

/-- The input of `run_request_file_with_run_options`. `read` reads the file, with times or without
them. -/
def ofRequestFile (read : Bool → Except RequestFile.ReadFault RequestFile.TimedReplay)
    (options : ReplayOptions) :
    Option ℕ → ReplayFilter → Except InputFault RequestInput :=
  ofRequests .requestFile (((read options.timestamps).mapError .file).map (·.requests)) options

end RequestInput

/-- A run of one entry. -/
def prepareEntry (config : RunConfig) (entry : EncodedRequest) (stages : List ReplayStage) :
    Option PreparedRun :=
  (RequestSequence.new [entry] .sequential 0).map fun sequence => {
    config := config
    sequence := sequence.withStages stages
    filteredReplayEntries := 0
    replayRate := none
    replayEntries := 0
    configuredReplayRounds := none }

/-- The checks of the callers come first. `none` stands for a first shuffle that does not end. -/
def prepareRun (t : Target) (config : RunConfig) (method : Method) (input : RequestInput)
    (seed : UInt64) (now : ℕ) : Except InputFault (Option PreparedRun) :=
  match input with
  | .replay requests options rounds filtered =>
    (prepareReplay config (requests.map t.encodedReplayRequest) options rounds filtered seed
      now).mapError .run
  | .single headers body stages => do
    (validateStages stages).mapError .run
    config.validate.mapError .run
    let entry ← (t.encodedSingleRequest method headers body).mapError .request
    return prepareEntry config entry stages
  | .default stages => do
    (validateStages stages).mapError .run
    config.validate.mapError .run
    return prepareEntry config (t.encodedDefaultRequest method) stages

/-- What the engine relies on. A path of 4 GiB does not fit an entry, and a rate of zero, which
the command line refuses, has no interval. -/
def RequestInput.Checked (t : Target) : RequestInput → Prop
  | .default _ => FitsEntry t.path
  | .single _ _ _ => True
  | .replay requests options _ _ =>
    requests ≠ [] ∧ (∀ r ∈ requests, FitsEntry r.path) ∧ options.rate ≠ some 0 ∧
      (options.timestamps = true → ∀ r ∈ requests, r.timestampMicros.isSome)

theorem timestamped_of_validateFrom {source : TimestampSource} {previous : Option ℤ}
    {requests : List ReplayRequest} (h : validateTimestampsFrom source previous requests = .ok ()) :
    ∀ r ∈ requests, r.timestampMicros.isSome := by
  induction requests generalizing previous with
  | nil => exact List.forall_mem_nil _
  | cons request requests ih =>
    rw [validateTimestampsFrom] at h
    split at h
    · cases h
    · rename_i timestamp htimestamp
      split at h
      · cases h
      · exact List.forall_mem_cons.mpr ⟨by rw [htimestamp]; rfl, ih h⟩

/-- The requests that pass are some of those that were read. -/
theorem ReplayFilter.apply_passing {requests passing : List ReplayRequest} {filter : ReplayFilter}
    {filtered : ℕ} (h : ReplayFilter.apply requests filter = .ok (passing, filtered)) :
    passing ≠ [] ∧ ∀ r ∈ passing, r ∈ requests := by
  unfold ReplayFilter.apply at h
  split at h
  · cases h
  · dsimp only at h
    split at h
    · cases h
    · rename_i hsome
      cases h
      exact ⟨hsome, fun r hr => List.mem_of_mem_filter hr⟩

namespace RequestInput

/-- Files give inputs that are checked, if their paths fit. -/
theorem checked_ofRequests {t : Target} {source : TimestampSource} {input : RequestInput}
    {read : Except InputFault (List ReplayRequest)} {options : ReplayOptions} {rounds : Option ℕ}
    {filter : ReplayFilter} (hfits : ∀ requests, read = .ok requests → ∀ r ∈ requests,
      FitsEntry r.path) (hrate : options.rate ≠ some 0)
    (h : ofRequests source read options rounds filter = .ok input) :
    input.Checked t ∧ input.options = options := by
  obtain ⟨_, -, h⟩ := ok_of_bind h
  obtain ⟨requests, hread, h⟩ := ok_of_bind h
  obtain ⟨⟨passing, filtered⟩, hfilter, h⟩ := ok_of_bind h
  obtain ⟨_, htimestamps, h⟩ := ok_of_bind h
  cases h
  obtain ⟨hsome, hmem⟩ := ReplayFilter.apply_passing (mapError_eq_ok.mp hfilter)
  refine ⟨⟨hsome, fun r hr => hfits requests hread r (hmem r hr), hrate, fun hasked => ?_⟩, rfl⟩
  rw [checkTimestamps, if_pos hasked] at htimestamps
  exact timestamped_of_validateFrom (mapError_eq_ok.mp htimestamps)

end RequestInput

/-- A request that is valid has a path that fits. -/
theorem fitsEntry_of_validate {r : ReplayRequest} (h : validateRequest r = .ok ()) :
    FitsEntry r.path := by
  have hle := (ReplayRequest.isValid_of_validate h).path_le
  have hmax : maxUriBytes = 8192 := rfl
  rw [FitsEntry]
  omega

namespace RequestFile

/-- Requests that are read from records were decoded. -/
theorem decoded_of_settle {decode : List Char → ℕ → Except InvalidRecord ReplayRequest}
    {skip : Bool} {lineNumber : ℕ} {lines : List (List UInt8)} {requests : List ReplayRequest}
    {skipped : SkippedRecords} {replay : RequestFileReplay}
    (h : settle skip lineNumber (verdictsFrom decode lineNumber lines) requests skipped =
      .ok replay) :
    ∀ r ∈ replay.requests, r ∈ requests ∨ ∃ line n, decode line n = .ok r := by
  induction lines generalizing lineNumber requests skipped with
  | nil =>
    rw [verdictsFrom, settle, finishRequests] at h
    split at h
    · cases h
    · cases h
      exact fun r hr => Or.inl hr
  | cons raw lines ih =>
    rw [verdictsFrom, verdict] at h
    split at h
    · cases h
    · rename_i line hline
      split at h
      · exact ih h
      · split at h
        · rw [settle] at h
          split at h
          · exact ih h
          · cases h
        · rename_i request hrequest
          intro r hr
          obtain hold | hdecoded := ih h r hr
          · obtain hold | hnew := List.mem_append.mp hold
            · exact Or.inl hold
            · rw [List.mem_singleton.mp hnew]
              exact Or.inr ⟨line, _, hrequest⟩
          · exact Or.inr hdecoded

theorem valid_of_validate {request : JsonRequest} {line : ℕ} {r : ReplayRequest}
    (h : validate request line = .ok r) : validateRequest r = .ok () := by
  unfold validate at h
  dsimp only at h
  split at h
  · cases h
  · split at h
    · cases h
    · rename_i hvalid
      cases h
      exact hvalid

section Valid

variable {json : JsonLibrary} {times : TimeLibrary} {bytes : List UInt8} {skip : Bool}

theorem valid_of_readFrom {replay : RequestFileReplay} (h : readFrom json bytes skip = .ok replay) :
    ∀ r ∈ replay.requests, validateRequest r = .ok () := by
  intro r hr
  rw [readFrom, decodeRecords_eq] at h
  obtain hnone | ⟨line, n, hdecode⟩ := decoded_of_settle h r hr
  · cases hnone
  · unfold decodeRequest at hdecode
    split at hdecode
    · cases hdecode
    · exact valid_of_validate hdecode

theorem valid_of_readRecords {schema : CompiledSchema} {replay : RequestFileReplay}
    (h : readRecords json bytes schema skip = .ok replay) :
    ∀ r ∈ replay.requests, validateRequest r = .ok () := by
  intro r hr
  rw [readRecords, decodeRecords_eq] at h
  obtain hnone | ⟨line, n, hdecode⟩ := decoded_of_settle h r hr
  · cases hnone
  · unfold decodeValue at hdecode
    split at hdecode
    · cases hdecode
    · rw [validateValue_fields] at hdecode
      obtain ⟨request, -, hdecode⟩ := ok_of_bind hdecode
      exact valid_of_validate hdecode

/-- Requests with times are valid as they are without. -/
theorem valid_of_readTimed {schema : TimedSchema} {asked : Bool} {replay : TimedReplay}
    (h : readTimed json times bytes schema asked skip = .ok replay) :
    ∀ r ∈ replay.requests, validateRequest r = .ok () := by
  intro r hr
  rw [readTimed_eq] at h
  have hempty : ([] : List ReplayRequest).length + (0 : Multiset TimedFault).card =
      ([] : List ReplayRequest).length + (0 : SkippedRecords).card := rfl
  obtain ⟨untimed, huntimed, hsublist, -⟩ :=
    settle_of_settleTimed h (List.Sublist.refl []) hempty
  have hplain : readRecords json bytes schema.fields skip = .ok untimed := by
    rw [readRecords, decodeRecords_eq]
    exact huntimed
  have hvalid := valid_of_readRecords hplain (withoutTime r)
    (hsublist.subset (List.mem_map_of_mem hr))
  exact hvalid

/-- The requests of a file are valid, however it is read. -/
theorem valid_of_read {file : Except IoError (List UInt8)}
    {schema : Option (Except SchemaFault RequestSchema)} {timestamps : Bool} {replay : TimedReplay}
    (h : read json times file schema timestamps skip = .ok replay) :
    ∀ r ∈ replay.requests, validateRequest r = .ok () := by
  obtain ⟨bytes, -, h⟩ := ok_of_bind h
  cases schema with
  | some schema =>
    obtain ⟨schema, -, h⟩ := ok_of_bind h
    exact valid_of_readTimed h
  | none =>
    dsimp only at h
    split at h
    · exact valid_of_readTimed h
    · cases hread : readFrom json bytes skip with
      | error e =>
        rw [hread] at h
        cases h
      | ok untimed =>
        rw [hread] at h
        cases h
        exact valid_of_readFrom hread

end Valid

end RequestFile

theorem ready_prepareEntry {config : RunConfig} {entry : EncodedRequest}
    {stages : List ReplayStage} {prepared : PreparedRun} {options : ReplayOptions}
    (horder : options.order = .sequential) (hentry : entry.Sound)
    (hsame : options.stages = stages) (hstages : validateStages stages = .ok ())
    (h : prepareEntry config entry stages = some prepared) :
    prepared.sequence.Ready options := by
  subst hsame
  obtain ⟨sequence, hnew, rfl⟩ := Option.map_eq_some_iff.mp h
  rw [← horder] at hnew
  have hready := RequestSequence.ready_new (List.cons_ne_nil _ _)
    (List.forall_mem_singleton.mpr hentry) hnew
  exact hready.withStages (rates_of_validateStages hstages)

theorem ready_prepareReplay {config : RunConfig} {requests : List EncodedRequest}
    {options : ReplayOptions} {rounds : Option ℕ} {filtered now : ℕ} {seed : UInt64}
    {prepared : PreparedRun} (hnonempty : requests ≠ []) (hentries : ∀ r ∈ requests, r.Sound)
    (hrate : options.rate ≠ some 0)
    (htimestamps : options.timestamps = true → ∀ r ∈ requests, r.timestampMicros.isSome)
    (h : prepareReplay config requests options rounds filtered seed now = .ok (some prepared)) :
    prepared.sequence.Ready options := by
  unfold prepareReplay at h
  split at h
  · cases h
  · cases h
  · cases h
  · rename_i config' hoptions hvalid hlimit
    injection h with h
    obtain ⟨sequence, hnew, rfl⟩ := Option.map_eq_some_iff.mp h
    have hplain := RequestSequence.ready_new hnonempty hentries hnew
    have hready := (hplain.withRate hrate now).withStages
      (rates_of_validateStages (stages_of_validate hoptions))
    dsimp only
    split
    · rename_i hasked
      refine hready.withTimestamps hasked ?_ _ _
      rw [RequestSequence.withStages_requests]
      have hkept : (sequence.withRate options.rate now).requests = sequence.requests := rfl
      rw [hkept, RequestSequence.new_requests hnew]
      exact htimestamps hasked
    · exact hready

/-- The sequence of a run that is prepared from a checked input is ready. -/
theorem ready_prepareRun {t : Target} {config : RunConfig} {method : Method} {input : RequestInput}
    {seed : UInt64} {now : ℕ} {prepared : PreparedRun} (hchecked : input.Checked t)
    (h : prepareRun t config method input seed now = .ok (some prepared)) :
    prepared.sequence.Ready input.options := by
  cases input with
  | default stages =>
    obtain ⟨_, hstages, h⟩ := ok_of_bind h
    obtain ⟨_, -, h⟩ := ok_of_bind h
    exact ready_prepareEntry rfl (sound_encodedDefaultRequest method hchecked) rfl
      (mapError_eq_ok.mp hstages) (Except.ok.inj h)
  | single headers body stages =>
    obtain ⟨_, hstages, h⟩ := ok_of_bind h
    obtain ⟨_, -, h⟩ := ok_of_bind h
    obtain ⟨entry, hentry, h⟩ := ok_of_bind h
    obtain ⟨_, hvalid, hentry⟩ := ok_of_bind (mapError_eq_ok.mp hentry)
    cases hentry
    exact ready_prepareEntry rfl (sound_encodedReplayRequest t (fitsEntry_of_validate hvalid)) rfl
      (mapError_eq_ok.mp hstages) (Except.ok.inj h)
  | replay requests options rounds filtered =>
    obtain ⟨hnonempty, hfits, hrate, htimestamps⟩ := hchecked
    refine ready_prepareReplay ?_ ?_ hrate ?_ (mapError_eq_ok.mp h)
    · exact fun hnil => hnonempty (List.map_eq_nil_iff.mp hnil)
    · intro entry hentry
      obtain ⟨r, hr, rfl⟩ := List.mem_map.mp hentry
      exact sound_encodedReplayRequest t (hfits r hr)
    · intro hasked entry hentry
      obtain ⟨r, hr, rfl⟩ := List.mem_map.mp hentry
      exact htimestamps hasked r hr

end Rload
