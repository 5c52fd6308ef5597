import Rload.CommandLine

/-!
# Which setting is effective

A setting that the command line gives overrides the profile, which overrides the default. The
workload that a profile runs is the section that its mode names. The program keeps to this as long
as the command line does not replace a workload that sets something else.
-/

namespace Rload.Profiles
open TextScanning

section Effective

variable {α : Type} {given : Option α} {inProfile : Option (Except String α)} {default actual : α}

/-- The value that the command line gives, or that of the profile, or the default. -/
def Effective (given : Option α) (inProfile : Option (Except String α)) (default actual : α) :
    Prop :=
  match given, inProfile with
  | some a, _ => actual = a
  | none, some r => r = .ok actual
  | none, none => actual = default

/-- Without the profile the value is effective where the profile has the default. -/
theorem effective_getD :
    Effective given inProfile default (given.getD default) ↔
      (given = none → ∀ r, inProfile = some r → r = .ok default) := by
  cases given with
  | some a => simp [Effective]
  | none => cases inProfile <;> simp [Effective]

/-- What the program makes of a variable with its flag. -/
theorem mergeValue_eq_ok :
    mergeValue given.isSome (given.getD default) inProfile = .ok actual ↔
      Effective given inProfile default actual := by
  cases given with
  | some a => cases inProfile <;> simp [mergeValue, Effective, eq_comm]
  | none => cases inProfile <;> simp [mergeValue, Effective, eq_comm]

theorem effective_ite {inProfile : Option α} :
    Effective given (inProfile.map .ok) default
      (if given.isSome then given.getD default else inProfile.getD default) := by
  cases given with
  | some a => rfl
  | none => cases inProfile <;> rfl

end Effective

def given {α : Type} (l : List α) : Option (List α) := if l.isEmpty then none else some l

theorem given_getD {α : Type} (l : List α) : (given l).getD [] = l := by
  cases l <;> rfl

theorem given_eq_none {α : Type} {l : List α} : given l = none ↔ l = [] := by
  cases l <;> simp [given]

namespace CommandLine

variable (cli : CommandLine)

def replaysLog : Bool := cli.accessLog.isSome || cli.requestFile.isSome

def allStages : List ReplayStage := (cli.stages.or cli.replayStages).getD []

def givesPacing : Bool :=
  cli.replayRate.isSome || cli.replayTimestamps || !cli.allStages.isEmpty

def givesBody : Bool := !cli.data.isEmpty || cli.dataBinary.isSome

end CommandLine

/-- Rate, timestamps and stages of a pacing. -/
def Pacing.values (pacing : Pacing) : Except String (Option ℕ × Bool × List ReplayStage) :=
  match pacing.mode with
  | "rate" => .ok (pacing.rate, false, [])
  | "timestamp" => .ok (none, true, [])
  | "stages" => (fun stages => (none, false, stages)) <$> pacing.stages.mapM PacingStage.parse
  | _ => .ok (none, false, [])

/-- The speed of a timestamp pacing. -/
def Pacing.timestampSpeed (pacing : Pacing) : Option ℚ :=
  if pacing.mode = "timestamp" then pacing.speed.map Float64.value else none

section Rules

variable (readBodyFile : String → Except String (List UInt8)) (cli : CommandLine)

structure RespectsSettings (profile : Profile) (plan : Plan) : Prop where
  url : plan.url = cli.url.getD profile.targetUrl
  limit : match cli.requests with
    | some n => plan.config.limit = .requests n
    | none => ∃ d, plan.config.limit = .duration d ∧
      Effective cli.duration (profile.runner.duration.map parseDuration) (10 * 10 ^ 9) d
  connections :
    Effective cli.connections (some (.ok profile.runner.connections)) 10 plan.config.connections
  threads : Effective cli.threads (some (.ok profile.runner.threads)) 2 plan.config.threads
  timeout :
    Effective cli.timeout (some (parseDuration profile.runner.timeout)) (2 * 10 ^ 9)
      plan.config.timeout
  outputFormat :
    Effective (if cli.outputBeauty then some .beauty else cli.outputFormat)
      (profile.observability.outputFormat.map parseOutputFormat) .text plan.outputFormat
  outputHtml : plan.outputHtml = cli.outputHtml.or profile.observability.outputHtml

structure RespectsRequest (inProfile : Option StaticRequest) (method : Method)
    (headers : List (String × String)) (body : Option (List UInt8)) : Prop where
  method :
    Effective cli.method (inProfile.map fun r => parseMethod r.method)
      (if body.isSome then .post else .get) method
  headers : Effective (given cli.headers) (inProfile.map fun r => .ok r.headers) [] headers
  body :
    if cli.givesBody then cli.settings.body readBodyFile = .ok body
    else body = (inProfile.bind (·.body)).map fun body => encodeUtf8 body.toList

structure RespectsReplay (inProfile : Option LogReplay) (replay : ReplayOptions)
    (rounds : Option ℕ) (filter : ReplayFilter) : Prop where
  order :
    Effective cli.replayOrder ((inProfile.bind (·.order)).map parseOrder) .sequential replay.order
  seed : replay.seed = cli.seed.or (inProfile.bind (·.seed))
  rounds : rounds = cli.replayRounds.or (inProfile.bind (·.rounds))
  allowedMethods :
    Effective (given cli.allowedMethods)
      (inProfile.map fun r => r.filter.allowedMethods.mapM parseMethod) [] filter.allowedMethods
  allowedUris :
    Effective (given (cli.allowedUris.map String.toList))
      (inProfile.map fun r => .ok (r.filter.allowedUris.map String.toList)) [] filter.allowedUris
  pacing :
    Effective
      (if cli.givesPacing then some (cli.replayRate, cli.replayTimestamps, cli.allStages) else none)
      ((inProfile.bind (·.pacing)).map Pacing.values) (none, false, [])
      (replay.rate, replay.timestamps, replay.stages)
  speed : replay.timestamps = true →
    Effective cli.replaySpeed
      (((inProfile.bind (·.pacing)).bind Pacing.timestampSpeed).map .ok) 1 replay.speed

/-- The format and the path of a log. -/
def Workload.source : Workload → Option (String × String)
  | .plain _ => none
  | .request _ _ _ => none
  | .accessLog path _ _ _ => some ("nginx", path)
  | .requestFile path _ _ _ _ _ => some ("jsonl", path)

/-- The workload is that of the command line, or the section that the mode names. -/
structure Selected (load : LoadProfile) (workload : Workload) : Prop where
  accessLog : ∀ path, cli.accessLog = some path → workload.source = some ("nginx", path)
  requestFile : ∀ path, cli.requestFile = some path → workload.source = some ("jsonl", path)
  request : cli.ordinaryRequestWasSet = true → workload.source = none
  named : cli.replaysLog = false → cli.ordinaryRequestWasSet = false →
    (load.mode = some "static" → workload.source = none) ∧
    (load.mode = some "log_replay" →
      workload.source = load.logReplay.map fun replay => (replay.format, replay.path))

def RespectsValues (load : LoadProfile) (method : Method) : Workload → Prop
  | .plain stages =>
    RespectsRequest readBodyFile cli load.staticRequest method [] none ∧ stages = cli.allStages
  | .request headers body stages =>
    RespectsRequest readBodyFile cli load.staticRequest method headers body ∧
      stages = cli.allStages
  | .accessLog _ replay rounds filter => RespectsReplay cli load.logReplay replay rounds filter
  | .requestFile _ replay rounds schema skipInvalidRecords filter =>
    RespectsReplay cli load.logReplay replay rounds filter ∧
      schema = cli.requestSchema.or (load.logReplay.bind (·.schema)) ∧
      skipInvalidRecords = (cli.skipInvalidRecords || load.logReplay.any (·.skipInvalidRecords))

structure Respects (profile : Profile) (plan : Plan) : Prop where
  settings : RespectsSettings cli profile plan
  selected : Selected cli profile.loadProfile plan.workload
  values : RespectsValues readBodyFile cli profile.loadProfile plan.method plan.workload

end Rules

section Conditions

variable (cli : CommandLine)

/-- A timestamp pacing has another speed than the default, which the command line does not
change. -/
def KeepsSpeed (replay : LogReplay) : Prop :=
  cli.replayTimestamps = true → cli.replaySpeed = none →
    ((replay.pacing.bind Pacing.timestampSpeed).getD 1) = 1

/-- What the command line does not give has its default in the section. -/
structure RequestAtDefaults (request : StaticRequest) : Prop where
  method : cli.method = none →
    parseMethod request.method = .ok (if cli.givesBody then .post else .get)
  headers : cli.headers = [] → request.headers = []
  body : cli.givesBody = false → request.body = none

structure ReplayAtDefaults (replay : LogReplay) : Prop where
  order : cli.replayOrder = none → ∀ order, replay.order = some order →
    parseOrder order = .ok .sequential
  seed : cli.seed = none → replay.seed = none
  rounds : cli.replayRounds = none → replay.rounds = none
  allowedMethods : cli.allowedMethods = [] → replay.filter.allowedMethods = []
  allowedUris : cli.allowedUris = [] → replay.filter.allowedUris = []
  pacing : cli.givesPacing = false → ∀ pacing, replay.pacing = some pacing →
    pacing.values = .ok (none, false, [])
  speed : KeepsSpeed cli replay

structure RecordsAtDefaults (replay : LogReplay) : Prop where
  schema : cli.requestSchema = none → replay.schema = none
  skipInvalidRecords : cli.skipInvalidRecords = false → replay.skipInvalidRecords = false

/-- The command line replaces no section that sets more than it gives. Where it replaces none,
there is no static section beside the mode `log_replay`, and the speed is kept. -/
structure Compatible (load : LoadProfile) : Prop where
  replay : cli.replaysLog = true → ∀ replay, load.logReplay = some replay →
    ReplayAtDefaults cli replay
  records : cli.requestFile.isSome = true → ∀ replay, load.logReplay = some replay →
    RecordsAtDefaults cli replay
  request : cli.replaysLog = false → cli.ordinaryRequestWasSet = true →
    ∀ request, load.staticRequest = some request → RequestAtDefaults cli request
  mode : cli.replaysLog = false → cli.ordinaryRequestWasSet = false →
    load.mode = some "log_replay" → load.staticRequest = none
  speed : cli.replaysLog = false → cli.ordinaryRequestWasSet = false →
    load.staticRequest = none → ∀ replay, load.logReplay = some replay → KeepsSpeed cli replay

end Conditions

theorem map_eq_ok {ε α β : Type} {x : Except ε α} {f : α → β} {b : β} :
    f <$> x = .ok b ↔ ∃ a, x = .ok a ∧ f a = b := by
  cases x with
  | error e => simp [Functor.map, Except.map]
  | ok a => simp [Functor.map, Except.map]

variable {readBodyFile : String → Except String (List UInt8)} {cli : CommandLine}
  {profile : Profile} {plan : Plan} {s : Settings}

/-- What a plan is made of. -/
structure Planned (readBodyFile : String → Except String (List UInt8)) (s : Settings)
    (body : Option (List UInt8)) (plan : Plan) : Prop where
  early : ∀ r ∈ s.earlyRefusals, r.1 = false
  late : ∀ r ∈ s.lateRefusals, r.1 = false
  reads : s.body readBodyFile = .ok body
  url : s.url = some plan.url
  method : plan.method = s.requestMethod body
  config : plan.config = ⟨s.limit, s.connections, s.threads, s.timeout⟩
  workload : plan.workload = s.workload body
  outputFormat : plan.outputFormat = if s.outputBeauty then .beauty else s.outputFormat
  outputHtml : plan.outputHtml = s.outputHtml

theorem exists_planned (h : s.plan readBodyFile = .ok plan) :
    ∃ body, Planned readBodyFile s body plan := by
  rw [Settings.plan] at h
  obtain ⟨_, hearly, h⟩ := ok_of_bind h
  obtain ⟨body, hbody, h⟩ := ok_of_bind h
  obtain ⟨_, hlate, h⟩ := ok_of_bind h
  obtain ⟨url, hurl, h⟩ := ok_of_bind h
  cases h
  refine ⟨body, refuse_eq_ok.mp hearly, refuse_eq_ok.mp hlate, hbody, ?_, rfl, rfl, rfl, rfl, rfl⟩
  rw [Settings.target] at hurl
  cases hs : s.url with
  | none =>
    rw [hs] at hurl
    cases hurl
  | some url' =>
    rw [hs] at hurl
    cases hurl
    rfl

/-- The variables other than those of the workload. -/
structure MergedSettings (cli : CommandLine) (profile : Profile) (s : Settings) : Prop where
  url : s.url = some (cli.url.getD profile.targetUrl)
  requests : s.requestsWereSet = cli.requests.isSome ∧ s.requests = cli.requests.getD 1
  duration : cli.requests = none →
    Effective cli.duration (profile.runner.duration.map parseDuration) (10 * 10 ^ 9)
      (s.duration.getD (10 * 10 ^ 9))
  connections :
    Effective cli.connections (some (.ok profile.runner.connections)) 10 s.connections
  threads : Effective cli.threads (some (.ok profile.runner.threads)) 2 s.threads
  timeout :
    Effective cli.timeout (some (parseDuration profile.runner.timeout)) (2 * 10 ^ 9) s.timeout
  outputBeauty : s.outputBeauty = cli.outputBeauty
  outputFormat :
    Effective cli.outputFormat (profile.observability.outputFormat.map parseOutputFormat) .text
      s.outputFormat
  outputHtml : s.outputHtml = cli.outputHtml.or profile.observability.outputHtml

theorem MergedSettings.respects {body : Option (List UInt8)} (h : MergedSettings cli profile s)
    (hplan : Planned readBodyFile s body plan) : RespectsSettings cli profile plan where
  url := by
    have hurl := hplan.url
    rw [h.url] at hurl
    exact (Option.some.inj hurl).symm
  limit := by
    rw [hplan.config]
    obtain ⟨hset, hrequests⟩ := h.requests
    cases hcli : cli.requests with
    | some n =>
      rw [hcli] at hset hrequests
      simp [Settings.limit, hset, hrequests]
    | none =>
      rw [hcli] at hset
      exact ⟨_, by simp [Settings.limit, hset], h.duration hcli⟩
  connections := by
    rw [hplan.config]
    exact h.connections
  threads := by
    rw [hplan.config]
    exact h.threads
  timeout := by
    rw [hplan.config]
    exact h.timeout
  outputFormat := by
    rw [hplan.outputFormat, h.outputBeauty]
    cases cli.outputBeauty with
    | true => rfl
    | false => exact h.outputFormat
  outputHtml := by
    rw [hplan.outputHtml, h.outputHtml]

/-- The other variables are as the command line sets them. -/
def KeepsWorkload (cli : CommandLine) (s : Settings) : Prop :=
  ∃ assertions url duration connections threads timeout outputFormat outputHtml,
    s = { cli.settings with
      assertions, url, duration, connections, threads, timeout, outputFormat, outputHtml }

/-- A duration may be left out also in the variable. -/
theorem effective_duration {given duration : Option ℕ} {inProfile : Option String} {default : ℕ}
    (h : mergeValue given.isSome given (inProfile.map fun value => some <$> parseDuration value) =
      .ok duration) :
    Effective given (inProfile.map parseDuration) default (duration.getD default) := by
  cases given with
  | some d =>
    have hduration : duration = some d := by
      cases inProfile <;> simp_all [mergeValue]
    rw [hduration]
    rfl
  | none =>
    cases inProfile with
    | none =>
      have hduration : duration = none := by
        simpa [mergeValue, eq_comm] using h
      rw [hduration]
      rfl
    | some value =>
      obtain ⟨d, hd, rfl⟩ := map_eq_ok.mp h
      exact hd

/-- The first two steps leave the variables of the workload alone. -/
theorem merged_settings {s₁ s₂ : Settings} (h₁ : mergeRunner profile cli.settings = .ok s₁)
    (h₂ : mergeOutput profile.observability s₁ = .ok s₂) :
    MergedSettings cli profile s₂ ∧ KeepsWorkload cli s₂ := by
  rw [mergeRunner] at h₁
  obtain ⟨duration, hduration, h₁⟩ := ok_of_bind h₁
  obtain ⟨timeout, htimeout, h₁⟩ := ok_of_bind h₁
  cases h₁
  rw [mergeOutput] at h₂
  obtain ⟨outputFormat, hformat, h₂⟩ := ok_of_bind h₂
  cases h₂
  refine ⟨?_, _, _, _, _, _, _, _, _, rfl⟩
  exact
    { url := by
        cases hurl : cli.url <;> simp [CommandLine.settings, hurl]
      requests := ⟨rfl, rfl⟩
      duration := by
        intro hrequests
        have hset : cli.settings.requestsWereSet = false := by
          simp [CommandLine.settings, hrequests]
        rw [hset, Bool.false_or] at hduration
        exact effective_duration hduration
      connections := by
        cases h : cli.connections <;> simp [CommandLine.settings, h, Effective]
      threads := by
        cases h : cli.threads <;> simp [CommandLine.settings, h, Effective]
      timeout := mergeValue_eq_ok.mp htimeout
      outputBeauty := rfl
      outputFormat := mergeValue_eq_ok.mp hformat
      outputHtml := rfl }

theorem eq_or_iff {α : Type} {given inProfile : Option α} :
    given = given.or inProfile ↔ (given = none → inProfile = none) := by
  cases given <;> simp [eq_comm]

theorem given_isSome {α : Type} (l : List α) : (given l).isSome = !l.isEmpty := by
  cases l <;> rfl

theorem mapM_eq_nil {α β : Type} {f : α → Except String β} {l : List α} :
    l.mapM f = .ok [] ↔ l = [] := by
  cases l with
  | nil => simp [pure, Except.pure]
  | cons a l =>
    rw [List.mapM_cons]
    cases f a with
    | error e => simp [bind, Except.bind]
    | ok b => cases l.mapM f <;> simp [bind, Except.bind, pure, Except.pure]

/-- A list that the command line sets is effective where the profile has nothing in it. -/
theorem effective_list {α β : Type} {l : List α} {inProfile : Option β}
    {f : β → Except String (List α)} :
    Effective (given l) (inProfile.map f) [] l ↔
      (l = [] → ∀ b, inProfile = some b → f b = .ok []) := by
  have h : Effective (given l) (inProfile.map f) [] ((given l).getD []) ↔ _ := effective_getD
  rw [given_getD, given_eq_none] at h
  rw [h]
  cases inProfile <;> simp

theorem effective_pacing {inProfile : Option Pacing} :
    Effective
        (if cli.givesPacing then some (cli.replayRate, cli.replayTimestamps, cli.allStages)
          else none)
        (inProfile.map Pacing.values) (none, false, [])
        (cli.replayRate, cli.replayTimestamps, cli.allStages) ↔
      (cli.givesPacing = false → ∀ pacing, inProfile = some pacing →
        pacing.values = .ok (none, false, [])) := by
  cases hgives : cli.givesPacing with
  | true => simp [Effective]
  | false =>
    have hvalues : (cli.replayRate, cli.replayTimestamps, cli.allStages) = (none, false, []) := by
      simp_all [CommandLine.givesPacing]
    rw [hvalues]
    cases inProfile <;> simp [Effective]

/-- The speed of the command line, of the profile or of the default, if it is the first or the
last. -/
theorem effective_speed {speed : Option ℚ} :
    Effective cli.replaySpeed (speed.map .ok) 1 (cli.replaySpeed.getD 1) ↔
      (cli.replaySpeed = none → speed.getD 1 = 1) := by
  rw [effective_getD]
  cases speed <;> simp

/-- The replay that runs is that of the command line. -/
theorem respectsReplay_cli_iff {inProfile : Option LogReplay} :
    RespectsReplay cli inProfile cli.settings.replayOptions cli.settings.replayRounds
        cli.settings.replayFilter ↔
      ∀ replay, inProfile = some replay → ReplayAtDefaults cli replay := by
  constructor
  · intro h replay hreplay
    rw [hreplay] at h
    exact
      { order := by
          intro hgiven order horder
          have hread := effective_getD.mp h.order hgiven
          rw [Option.bind_some, horder] at hread
          exact hread _ rfl
        seed := eq_or_iff.mp h.seed
        rounds := eq_or_iff.mp h.rounds
        allowedMethods := by
          intro hgiven
          exact mapM_eq_nil.mp (effective_list.mp h.allowedMethods hgiven replay rfl)
        allowedUris := by
          intro hgiven
          have hread := effective_list.mp h.allowedUris (by rw [hgiven]; rfl) replay rfl
          simpa using hread
        pacing := effective_pacing.mp h.pacing
        speed := by
          intro htimestamps hgiven
          exact effective_speed.mp (h.speed htimestamps) hgiven }
  · intro h
    exact
      { order := by
          refine effective_getD.mpr ?_
          intro hgiven r hr
          obtain ⟨order, horder, rfl⟩ := Option.map_eq_some_iff.mp hr
          obtain ⟨replay, hreplay, horder⟩ := Option.bind_eq_some_iff.mp horder
          exact (h replay hreplay).order hgiven order horder
        seed := by
          refine eq_or_iff.mpr ?_
          intro hgiven
          cases hreplay : inProfile with
          | none => rfl
          | some replay => exact (h replay hreplay).seed hgiven
        rounds := by
          refine eq_or_iff.mpr ?_
          intro hgiven
          cases hreplay : inProfile with
          | none => rfl
          | some replay => exact (h replay hreplay).rounds hgiven
        allowedMethods := by
          refine effective_list.mpr ?_
          intro hgiven replay hreplay
          exact mapM_eq_nil.mpr ((h replay hreplay).allowedMethods hgiven)
        allowedUris := by
          refine effective_list.mpr ?_
          intro hgiven replay hreplay
          rw [(h replay hreplay).allowedUris (List.map_eq_nil_iff.mp hgiven)]
          rfl
        pacing := by
          refine effective_pacing.mpr ?_
          intro hgives pacing hpacing
          obtain ⟨replay, hreplay, hpacing⟩ := Option.bind_eq_some_iff.mp hpacing
          exact (h replay hreplay).pacing hgives pacing hpacing
        speed := by
          intro htimestamps
          refine effective_speed.mpr ?_
          intro hgiven
          cases hreplay : inProfile with
          | none => rfl
          | some replay => exact (h replay hreplay).speed htimestamps hgiven }

theorem body_isSome {body : Option (List UInt8)}
    (h : cli.settings.body readBodyFile = .ok body) : body.isSome = cli.givesBody := by
  rw [Settings.body] at h
  rw [CommandLine.givesBody]
  have hsettings : cli.settings.dataBinary = cli.dataBinary ∧ cli.settings.data = cli.data :=
    ⟨rfl, rfl⟩
  rw [hsettings.1, hsettings.2] at h
  cases hbinary : cli.dataBinary with
  | some path =>
    rw [hbinary] at h
    obtain ⟨bytes, -, rfl⟩ := map_eq_ok.mp h
    simp
  | none =>
    rw [hbinary] at h
    cases hdata : cli.data with
    | nil => simp_all
    | cons text texts =>
      rw [hdata] at h
      cases h
      simp

theorem effective_method {body : Option (List UInt8)} {inProfile : Option (Except String Method)} :
    Effective cli.method inProfile (if body.isSome then .post else .get)
        (cli.settings.requestMethod body) ↔
      (cli.method = none → ∀ r, inProfile = some r →
        r = .ok (if body.isSome then .post else .get)) := by
  rw [← effective_getD]
  have hmethod : cli.settings.requestMethod body =
      cli.method.getD (if body.isSome then .post else .get) := by
    cases hgiven : cli.method <;>
      simp [Settings.requestMethod, CommandLine.settings, hgiven]
  rw [hmethod]

/-- The request that runs is that of the command line. -/
theorem respectsRequest_cli_iff {inProfile : Option StaticRequest} {body : Option (List UInt8)}
    (hbody : cli.settings.body readBodyFile = .ok body) :
    RespectsRequest readBodyFile cli inProfile (cli.settings.requestMethod body) cli.headers body ↔
      ∀ request, inProfile = some request → RequestAtDefaults cli request := by
  have hgives := body_isSome hbody
  constructor
  · intro h request hrequest
    rw [hrequest] at h
    exact
      { method := by
          intro hgiven
          rw [← hgives]
          exact effective_method.mp h.method hgiven _ rfl
        headers := by
          intro hgiven
          exact Except.ok.inj (effective_list.mp h.headers hgiven request rfl)
        body := by
          intro hnone
          have hread := h.body
          rw [hnone] at hgives hread
          rw [Option.isSome_eq_false_iff, Option.isNone_iff_eq_none] at hgives
          rw [hgives] at hread
          simpa [eq_comm] using hread }
  · intro h
    exact
      { method := by
          refine effective_method.mpr ?_
          intro hgiven r hr
          obtain ⟨request, hrequest, rfl⟩ := Option.map_eq_some_iff.mp hr
          rw [hgives]
          exact (h request hrequest).method hgiven
        headers := by
          refine effective_list.mpr ?_
          intro hgiven request hrequest
          rw [(h request hrequest).headers hgiven]
        body := by
          cases hgiven : cli.givesBody with
          | true => exact hbody
          | false =>
            rw [hgiven] at hgives
            rw [Option.isSome_eq_false_iff, Option.isNone_iff_eq_none] at hgives
            rw [hgives]
            cases hrequest : inProfile with
            | none => rfl
            | some request => simp [(h request hrequest).body hgiven] }

theorem replaysLog_eq_false :
    cli.replaysLog = false ↔ cli.accessLog = none ∧ cli.requestFile = none := by
  simp [CommandLine.replaysLog]

theorem ordinaryRequestWasSet_eq_false :
    cli.ordinaryRequestWasSet = false ↔
      cli.method = none ∧ cli.headers = [] ∧ cli.data = [] ∧ cli.dataBinary = none := by
  simp [CommandLine.ordinaryRequestWasSet, and_assoc]

theorem mergeStatic_eq_ok {request : StaticRequest} {s' : Settings}
    (h : mergeStatic request s = .ok s') :
    ∃ method, parseMethod request.method = .ok method ∧
      s' = { s with
        method
        methodWasSet := true
        headers := request.headers
        data := request.body.toList
        ordinaryRequestWasSet := true } := by
  rw [mergeStatic] at h
  obtain ⟨method, hmethod, h⟩ := ok_of_bind h
  cases h
  exact ⟨method, hmethod, rfl⟩

/-- The request that runs is that of the profile. -/
theorem respectsRequest_profile {request : StaticRequest} {method : Method}
    {body : Option (List UInt8)} (hordinary : cli.ordinaryRequestWasSet = false)
    (hmethod : parseMethod request.method = .ok method)
    (hbody : body = request.body.map fun body => encodeUtf8 body.toList) :
    RespectsRequest readBodyFile cli (some request) method request.headers body := by
  obtain ⟨hgiven, hheaders, hdata, hbinary⟩ := ordinaryRequestWasSet_eq_false.mp hordinary
  exact
    { method := by
        rw [hgiven]
        exact hmethod
      headers := by
        rw [given_eq_none.mpr hheaders]
        rfl
      body := by
        have hgives : cli.givesBody = false := by
          simp [CommandLine.givesBody, hdata, hbinary]
        rw [hgives]
        exact hbody }

/-- What a pacing sets. -/
theorem mergePacing_eq_ok {pacing : Pacing} {s' : Settings}
    (hrate : s.replayRate = none) (htimestamps : s.replayTimestamps = false)
    (hstages : s.stages = []) (h : mergePacing pacing s = .ok s') :
    pacing.values = .ok (s'.replayRate, s'.replayTimestamps, s'.stages) ∧
      (s'.replayTimestamps = true → s'.replaySpeed =
        if s.replaySpeedWasSet then s.replaySpeed else pacing.timestampSpeed.getD 1) ∧
      s' = { s with
        replayRate := s'.replayRate
        replayTimestamps := s'.replayTimestamps
        replaySpeed := s'.replaySpeed
        stages := s'.stages } := by
  rw [mergePacing] at h
  split at h
  · rename_i hmode
    cases h
    refine ⟨?_, ?_, rfl⟩
    · rw [hrate, htimestamps, hstages]
      simp [Pacing.values, hmode]
    · simp [htimestamps]
  · rename_i hmode
    cases h
    refine ⟨?_, ?_, rfl⟩
    · simp [Pacing.values, hmode, htimestamps, hstages]
    · simp [htimestamps]
  · rename_i hmode
    cases h
    refine ⟨?_, ?_, rfl⟩
    · simp [Pacing.values, hmode, hrate, hstages]
    · intro _
      simp [Pacing.timestampSpeed, hmode]
  · rename_i hmode
    obtain ⟨stages, hread, h⟩ := ok_of_bind h
    cases h
    refine ⟨?_, ?_, rfl⟩
    · simp only [Pacing.values, hmode]
      rw [hread, hrate, htimestamps]
      rfl
    · simp [htimestamps]
  · cases h

theorem Settings.takesPacing_eq_true :
    s.takesPacing = true ↔
      s.replayRate = none ∧ s.replayTimestamps = false ∧ s.stages = [] := by
  simp [Settings.takesPacing, and_assoc]

/-- What the pacing of a replay sets. -/
structure TakesPacing (replay : LogReplay) (s : Settings) (rate : Option ℕ) (timestamps : Bool)
    (speed : ℚ) (stages : List ReplayStage) : Prop where
  values : s.takesPacing = true →
    Effective none (replay.pacing.map Pacing.values) (none, false, []) (rate, timestamps, stages)
  taken : s.takesPacing = true → timestamps = true → speed =
    if s.replaySpeedWasSet then s.replaySpeed
    else (replay.pacing.bind Pacing.timestampSpeed).getD 1
  kept : s.takesPacing = false →
    rate = s.replayRate ∧ timestamps = s.replayTimestamps ∧ speed = s.replaySpeed ∧
      stages = s.stages

theorem takesPacing_of_merge {replay : LogReplay} {s' : Settings}
    (h : mergeReplayPacing replay s = .ok s') :
    ∃ rate timestamps speed stages, TakesPacing replay s rate timestamps speed stages ∧
      s' = { s with
        replayRate := rate, replayTimestamps := timestamps, replaySpeed := speed, stages } := by
  rw [mergeReplayPacing] at h
  cases htakes : s.takesPacing with
  | true =>
    obtain ⟨hrate, htimestamps, hstages⟩ := Settings.takesPacing_eq_true.mp htakes
    cases hpacing : replay.pacing with
    | none =>
      rw [hpacing] at h
      cases h
      refine ⟨_, _, _, _, ⟨?_, ?_, by simp [htakes]⟩, rfl⟩
      · rw [hpacing, hrate, htimestamps, hstages]
        intro _
        rfl
      · rw [htimestamps]
        intro _ hnot
        cases hnot
    | some pacing =>
      rw [hpacing, htakes] at h
      obtain ⟨hvalues, hspeed, hsettings⟩ := mergePacing_eq_ok hrate htimestamps hstages h
      refine ⟨_, _, _, _, ⟨?_, ?_, by simp [htakes]⟩, hsettings⟩
      · rw [hpacing]
        intro _
        exact hvalues
      · rw [hpacing]
        intro _
        exact hspeed
  | false =>
    have hsame : s' = s := by
      cases hpacing : replay.pacing with
      | none =>
        rw [hpacing] at h
        exact (Except.ok.inj h).symm
      | some pacing =>
        rw [hpacing, htakes] at h
        exact (Except.ok.inj h).symm
    rw [hsame]
    exact ⟨s.replayRate, s.replayTimestamps, s.replaySpeed, s.stages,
      ⟨by simp [htakes], by simp [htakes], fun _ => ⟨rfl, rfl, rfl, rfl⟩⟩, rfl⟩

theorem mergeSource_eq_ok {replay : LogReplay} {s' : Settings}
    (h : mergeSource replay s = .ok s') :
    ∃ accessLog requestFile, s' = { s with accessLog, requestFile } ∧
      ((replay.format = "nginx" ∧ accessLog = some replay.path ∧ requestFile = s.requestFile) ∨
        (replay.format = "jsonl" ∧ accessLog = s.accessLog ∧ requestFile = some replay.path)) := by
  rw [mergeSource] at h
  split at h
  · rename_i hformat
    cases h
    exact ⟨_, _, rfl, Or.inl ⟨hformat, rfl, rfl⟩⟩
  · rename_i hformat
    cases h
    exact ⟨_, _, rfl, Or.inr ⟨hformat, rfl, rfl⟩⟩
  · cases h

/-- The three steps of a replay. -/
theorem mergeReplay_eq_ok {replay : LogReplay} {s' : Settings}
    (h : mergeReplay replay s = .ok s') :
    ∃ s₁ order methods rate timestamps speed stages, mergeSource replay s = .ok s₁ ∧
      mergeValue s₁.replayOrderWasSet s₁.replayOrder (replay.order.map parseOrder) = .ok order ∧
      mergeValue (!s₁.allowedMethods.isEmpty) s₁.allowedMethods
        (some (replay.filter.allowedMethods.mapM parseMethod)) = .ok methods ∧
      TakesPacing replay s₁ rate timestamps speed stages ∧
      s' = { s₁ with
        replayOrder := order
        seed := if s₁.seedWasSet then s₁.seed else replay.seed
        replayRounds := s₁.replayRounds.or replay.rounds
        requestSchema := s₁.requestSchema.or replay.schema
        skipInvalidRecords := s₁.skipInvalidRecords || replay.skipInvalidRecords
        allowedMethods := methods
        allowedUris := if s₁.allowedUris.isEmpty then replay.filter.allowedUris
          else s₁.allowedUris
        replayRate := rate
        replayTimestamps := timestamps
        replaySpeed := speed
        stages } := by
  rw [mergeReplay] at h
  obtain ⟨s₁, hsource, h⟩ := ok_of_bind h
  obtain ⟨order, horder, h⟩ := ok_of_bind h
  obtain ⟨methods, hmethods, h⟩ := ok_of_bind h
  obtain ⟨rate, timestamps, speed, stages, hpacing, rfl⟩ := takesPacing_of_merge h
  exact ⟨s₁, order, methods, rate, timestamps, speed, stages, hsource, horder, hmethods,
    ⟨hpacing.values, hpacing.taken, hpacing.kept⟩, rfl⟩

theorem mergeReplay_source {replay : LogReplay} {s' : Settings}
    (h : mergeReplay replay s = .ok s') (hlog : s.accessLog = none) :
    (replay.format = "nginx" ∧ s'.accessLog = some replay.path) ∨
    (replay.format = "jsonl" ∧ s'.accessLog = none ∧ s'.requestFile = some replay.path ∧
      s'.requestSchema = s.requestSchema.or replay.schema ∧
      s'.skipInvalidRecords = (s.skipInvalidRecords || replay.skipInvalidRecords)) := by
  obtain ⟨_, _, _, _, _, _, _, hsource, -, -, -, rfl⟩ := mergeReplay_eq_ok h
  obtain ⟨_, _, rfl, ⟨hformat, rfl, rfl⟩ | ⟨hformat, rfl, rfl⟩⟩ := mergeSource_eq_ok hsource
  · exact Or.inl ⟨hformat, rfl⟩
  · exact Or.inr ⟨hformat, hlog, rfl, rfl, rfl⟩

/-- The replay that runs is that of the profile, but for the speed. -/
theorem respectsReplay_profile_iff {replay : LogReplay} {s' : Settings}
    (hs : KeepsWorkload cli s) (h : mergeReplay replay s = .ok s') :
    RespectsReplay cli (some replay) s'.replayOptions s'.replayRounds s'.replayFilter ↔
      KeepsSpeed cli replay := by
  obtain ⟨_, order, methods, rate, timestamps, speed, stages, hsource, horder, hmethods, hpacing,
    rfl⟩ := mergeReplay_eq_ok h
  obtain ⟨_, _, rfl, -⟩ := mergeSource_eq_ok hsource
  obtain ⟨_, _, _, _, _, _, _, _, rfl⟩ := hs
  have htakes : cli.settings.takesPacing = !cli.givesPacing := by
    simp [Settings.takesPacing, CommandLine.givesPacing, CommandLine.settings,
      CommandLine.allStages]
  constructor
  · intro hrespects htimestamps hgiven
    have hgives : cli.givesPacing = true := by
      simp [CommandLine.givesPacing, htimestamps]
    obtain ⟨-, hkept, hspeed, -⟩ := hpacing.kept (htakes.trans (by rw [hgives]; rfl))
    have heffective := hrespects.speed (hkept.trans htimestamps)
    rw [Settings.replayOptions] at heffective
    rw [hspeed] at heffective
    exact effective_speed.mp heffective hgiven
  · intro hkeeps
    exact
      { order := mergeValue_eq_ok.mp horder
        seed := by
          cases hseed : cli.seed <;> simp [Settings.replayOptions, CommandLine.settings, hseed]
        rounds := rfl
        allowedMethods := by
          refine mergeValue_eq_ok.mp ?_
          rw [given_isSome, given_getD]
          exact hmethods
        allowedUris := by
          cases huris : cli.allowedUris <;>
            simp [Settings.replayFilter, CommandLine.settings, huris, Effective, given]
        pacing := by
          cases hgives : cli.givesPacing with
          | true =>
            obtain ⟨hrate, htimestamps, -, hstages⟩ :=
              hpacing.kept (htakes.trans (by rw [hgives]; rfl))
            rw [Settings.replayOptions, hrate, htimestamps, hstages]
            rfl
          | false => exact hpacing.values (htakes.trans (by rw [hgives]; rfl))
        speed := by
          intro htimed
          rw [Settings.replayOptions]
          cases hgives : cli.givesPacing with
          | true =>
            obtain ⟨-, htimestamps, hspeed, -⟩ :=
              hpacing.kept (htakes.trans (by rw [hgives]; rfl))
            rw [hspeed]
            exact effective_speed.mpr (hkeeps (htimestamps.symm.trans htimed))
          | false =>
            have hspeed := hpacing.taken (htakes.trans (by rw [hgives]; rfl)) htimed
            rw [hspeed]
            exact effective_ite }

/-- The workload of the plan is the right one, with the right values. -/
def RightWorkload (readBodyFile : String → Except String (List UInt8)) (cli : CommandLine)
    (load : LoadProfile) (plan : Plan) : Prop :=
  Selected cli load plan.workload ∧
    RespectsValues readBodyFile cli load plan.method plan.workload

/-- One source of requests at most. -/
theorem Planned.excludes {body : Option (List UInt8)} (h : Planned readBodyFile s body plan) :
    (s.accessLog.isSome && s.requestFile.isSome) = false ∧
      (s.ordinaryRequestWasSet && !s.noReplay) = false := by
  have hearly := h.early
  rw [Settings.earlyRefusals] at hearly
  simp only [List.forall_mem_cons] at hearly
  obtain ⟨-, -, hboth, -, -, -, -, -, hordinary, -⟩ := hearly
  exact ⟨hboth, hordinary⟩

section Cases

variable {load : LoadProfile} {body : Option (List UInt8)}

theorem rightWorkload_accessLog {path : String} (hs : KeepsWorkload cli s)
    (hplan : Planned readBodyFile s body plan) (hpath : cli.accessLog = some path) :
    RightWorkload readBodyFile cli load plan ↔ Compatible cli load := by
  obtain ⟨_, _, _, _, _, _, _, _, rfl⟩ := hs
  obtain ⟨hboth, hordinary⟩ := hplan.excludes
  have hworkload : plan.workload = .accessLog path cli.settings.replayOptions
      cli.settings.replayRounds cli.settings.replayFilter := by
    rw [hplan.workload, Settings.workload]
    simp only [CommandLine.settings, hpath]
    rfl
  have hfile : cli.requestFile = none := by
    simpa [CommandLine.settings, hpath] using hboth
  have hordinary : cli.ordinaryRequestWasSet = false := by
    simpa [CommandLine.settings, Settings.noReplay, hpath] using hordinary
  have hreplays : cli.replaysLog = true := by
    simp [CommandLine.replaysLog, hpath]
  rw [RightWorkload, hworkload]
  constructor
  · rintro ⟨-, hvalues⟩
    exact
      { replay := fun _ => respectsReplay_cli_iff.mp hvalues
        records := by simp [hfile]
        request := by simp [hreplays]
        mode := by simp [hreplays]
        speed := by simp [hreplays] }
  · intro hcompatible
    refine ⟨?_, respectsReplay_cli_iff.mpr (hcompatible.replay hreplays)⟩
    exact
      { accessLog := by simp [hpath, Workload.source]
        requestFile := by simp [hfile]
        request := by simp [hordinary]
        named := by simp [hreplays] }

theorem rightWorkload_requestFile {path : String} (hs : KeepsWorkload cli s)
    (hplan : Planned readBodyFile s body plan) (hlog : cli.accessLog = none)
    (hpath : cli.requestFile = some path) :
    RightWorkload readBodyFile cli load plan ↔ Compatible cli load := by
  obtain ⟨_, _, _, _, _, _, _, _, rfl⟩ := hs
  obtain ⟨-, hordinary⟩ := hplan.excludes
  have hworkload : plan.workload = .requestFile path cli.settings.replayOptions
      cli.settings.replayRounds cli.requestSchema cli.skipInvalidRecords
      cli.settings.replayFilter := by
    rw [hplan.workload, Settings.workload]
    simp only [CommandLine.settings, hlog, hpath]
    rfl
  have hordinary : cli.ordinaryRequestWasSet = false := by
    simpa [CommandLine.settings, Settings.noReplay, hpath] using hordinary
  have hreplays : cli.replaysLog = true := by
    simp [CommandLine.replaysLog, hpath]
  rw [RightWorkload, hworkload]
  constructor
  · rintro ⟨-, hvalues, hschema, hskip⟩
    refine
      { replay := fun _ => respectsReplay_cli_iff.mp hvalues
        records := ?_
        request := by simp [hreplays]
        mode := by simp [hreplays]
        speed := by simp [hreplays] }
    intro _ replay hreplay
    rw [hreplay] at hschema hskip
    refine ⟨eq_or_iff.mp hschema, ?_⟩
    intro hgiven
    simpa [hgiven] using hskip
  · intro hcompatible
    have hrecords := hcompatible.records (by rw [hpath]; rfl)
    refine ⟨?_, respectsReplay_cli_iff.mpr (hcompatible.replay hreplays), ?_, ?_⟩
    · exact
        { accessLog := by simp [hlog]
          requestFile := by simp [hpath, Workload.source]
          request := by simp [hordinary]
          named := by simp [hreplays] }
    · refine eq_or_iff.mpr ?_
      intro hgiven
      cases hreplay : load.logReplay with
      | none => rfl
      | some replay => exact (hrecords replay hreplay).schema hgiven
    · cases hgiven : cli.skipInvalidRecords with
      | true => rfl
      | false =>
        cases hreplay : load.logReplay with
        | none => rfl
        | some replay => simp [(hrecords replay hreplay).skipInvalidRecords hgiven]

theorem rightWorkload_request (hs : KeepsWorkload cli s)
    (hplan : Planned readBodyFile s body plan) (hreplays : cli.replaysLog = false)
    (hordinary : cli.ordinaryRequestWasSet = true) :
    RightWorkload readBodyFile cli load plan ↔ Compatible cli load := by
  obtain ⟨_, _, _, _, _, _, _, _, rfl⟩ := hs
  obtain ⟨hlog, hfile⟩ := replaysLog_eq_false.mp hreplays
  have hworkload : plan.workload = .request cli.headers body cli.allStages := by
    rw [hplan.workload, Settings.workload]
    simp only [CommandLine.settings, hlog, hfile, hordinary]
    rfl
  have hiff : _ ↔ ∀ request, load.staticRequest = some request → RequestAtDefaults cli request :=
    respectsRequest_cli_iff hplan.reads
  rw [RightWorkload, hworkload, hplan.method]
  constructor
  · rintro ⟨-, hvalues, -⟩
    exact
      { replay := by simp [hreplays]
        records := by simp [hfile]
        request := fun _ _ => hiff.mp hvalues
        mode := by simp [hordinary]
        speed := by simp [hordinary] }
  · intro hcompatible
    refine ⟨?_, hiff.mpr (hcompatible.request hreplays hordinary), rfl⟩
    exact
      { accessLog := by simp [hlog]
        requestFile := by simp [hfile]
        request := by simp [Workload.source]
        named := by simp [hordinary] }

/-- The static section runs, whatever the mode is. -/
theorem rightWorkload_static {request : StaticRequest} {s' : Settings} (hs : KeepsWorkload cli s)
    (hmerge : mergeStatic request s = .ok s') (hplan : Planned readBodyFile s' body plan)
    (hreplays : cli.replaysLog = false) (hordinary : cli.ordinaryRequestWasSet = false)
    (hrequest : load.staticRequest = some request)
    (hmode : load.mode = some "log_replay" → load.logReplay.isSome) :
    RightWorkload readBodyFile cli load plan ↔ Compatible cli load := by
  obtain ⟨method, hmethod, rfl⟩ := mergeStatic_eq_ok hmerge
  obtain ⟨_, _, _, _, _, _, _, _, rfl⟩ := hs
  obtain ⟨hlog, hfile⟩ := replaysLog_eq_false.mp hreplays
  have hworkload : plan.workload = .request request.headers body cli.allStages := by
    rw [hplan.workload, Settings.workload]
    simp only [CommandLine.settings, hlog, hfile]
    rfl
  have hbody : body = request.body.map fun body => encodeUtf8 body.toList := by
    have hreads := hplan.reads
    rw [Settings.body] at hreads
    obtain ⟨-, -, -, hbinary⟩ := ordinaryRequestWasSet_eq_false.mp hordinary
    simp only [CommandLine.settings, hbinary] at hreads
    cases htext : request.body <;> simp_all
  rw [RightWorkload, hworkload, hplan.method]
  constructor
  · rintro ⟨hselected, -⟩
    refine
      { replay := by simp [hreplays]
        records := by simp [hfile]
        request := by simp [hordinary]
        mode := ?_
        speed := by simp [hrequest] }
    intro _ _ hnamed
    have hsource := (hselected.named hreplays hordinary).2 hnamed
    obtain ⟨replay, hreplay⟩ := Option.isSome_iff_exists.mp (hmode hnamed)
    rw [hreplay] at hsource
    cases hsource
  · intro hcompatible
    refine ⟨?_, ?_, rfl⟩
    · refine
        { accessLog := by simp [hlog]
          requestFile := by simp [hfile]
          request := by simp [hordinary]
          named := ?_ }
      intro _ _
      refine ⟨fun _ => rfl, ?_⟩
      intro hnamed
      have hnone := hcompatible.mode hreplays hordinary hnamed
      rw [hrequest] at hnone
      cases hnone
    · rw [hrequest]
      exact respectsRequest_profile hordinary hmethod hbody

/-- The section of the log runs where there is no static one. -/
theorem rightWorkload_replay {replay : LogReplay} {s' : Settings} (hs : KeepsWorkload cli s)
    (hmerge : mergeReplay replay s = .ok s') (hplan : Planned readBodyFile s' body plan)
    (hreplays : cli.replaysLog = false) (hordinary : cli.ordinaryRequestWasSet = false)
    (hrequest : load.staticRequest = none) (hreplay : load.logReplay = some replay)
    (hmode : load.mode = some "static" → load.staticRequest.isSome) :
    RightWorkload readBodyFile cli load plan ↔ Compatible cli load := by
  have hiff := respectsReplay_profile_iff hs hmerge
  have hlog : s.accessLog = none := by
    obtain ⟨_, _, _, _, _, _, _, _, rfl⟩ := hs
    exact (replaysLog_eq_false.mp hreplays).1
  have hgiven : s.requestSchema = cli.requestSchema ∧
      s.skipInvalidRecords = cli.skipInvalidRecords := by
    obtain ⟨_, _, _, _, _, _, _, _, rfl⟩ := hs
    exact ⟨rfl, rfl⟩
  have hsource : plan.workload.source = some (replay.format, replay.path) ∧
      (RespectsValues readBodyFile cli load plan.method plan.workload ↔
        KeepsSpeed cli replay) := by
    rw [hplan.workload, Settings.workload]
    obtain ⟨hformat, hpath⟩ | ⟨hformat, hnone, hpath, hschema, hskip⟩ :=
      mergeReplay_source hmerge hlog
    · rw [hpath, hformat]
      refine ⟨rfl, ?_⟩
      rw [RespectsValues, hreplay]
      exact hiff
    · rw [hnone, hpath, hformat, hschema, hskip, hgiven.1, hgiven.2]
      refine ⟨rfl, ?_⟩
      rw [RespectsValues, hreplay]
      exact (and_iff_left ⟨rfl, rfl⟩).trans hiff
  obtain ⟨hlog, hfile⟩ := replaysLog_eq_false.mp hreplays
  rw [RightWorkload, hsource.2]
  constructor
  · rintro ⟨-, hkeeps⟩
    refine
      { replay := by simp [hreplays]
        records := by simp [hfile]
        request := by simp [hordinary]
        mode := fun _ _ _ => hrequest
        speed := ?_ }
    intro _ _ _ replay' hreplay'
    rw [hreplay] at hreplay'
    cases hreplay'
    exact hkeeps
  · intro hcompatible
    refine ⟨?_, hcompatible.speed hreplays hordinary hrequest replay hreplay⟩
    refine
      { accessLog := by simp [hlog]
        requestFile := by simp [hfile]
        request := by simp [hordinary]
        named := ?_ }
    intro _ _
    refine ⟨?_, ?_⟩
    · intro hnamed
      have hsome := hmode hnamed
      rw [hrequest] at hsome
      cases hsome
    · intro _
      rw [hsource.1, hreplay]
      rfl

/-- Without a section the program asks for the target itself. -/
theorem rightWorkload_plain (hs : KeepsWorkload cli s)
    (hplan : Planned readBodyFile s body plan)
    (hreplays : cli.replaysLog = false) (hordinary : cli.ordinaryRequestWasSet = false)
    (hrequest : load.staticRequest = none) (hreplay : load.logReplay = none) :
    RightWorkload readBodyFile cli load plan ↔ Compatible cli load := by
  obtain ⟨_, _, _, _, _, _, _, _, rfl⟩ := hs
  obtain ⟨hlog, hfile⟩ := replaysLog_eq_false.mp hreplays
  obtain ⟨hgiven, hheaders, hdata, hbinary⟩ := ordinaryRequestWasSet_eq_false.mp hordinary
  have hworkload : plan.workload = .plain cli.allStages := by
    rw [hplan.workload, Settings.workload]
    simp only [CommandLine.settings, hlog, hfile, hordinary]
    rfl
  have hmethod : plan.method = .get := by
    rw [hplan.method, Settings.requestMethod]
    have hreads := hplan.reads
    simp only [Settings.body, CommandLine.settings, hdata, hbinary] at hreads
    cases hreads
    simp [CommandLine.settings, hgiven]
  rw [RightWorkload, hworkload, hmethod]
  constructor
  · intro _
    exact
      { replay := by simp [hreplays]
        records := by simp [hfile]
        request := by simp [hordinary]
        mode := fun _ _ _ => hrequest
        speed := by simp [hreplay] }
  · intro _
    refine ⟨?_, ?_, rfl⟩
    · refine
        { accessLog := by simp [hlog]
          requestFile := by simp [hfile]
          request := by simp [hordinary]
          named := ?_ }
      intro _ _
      refine ⟨fun _ => rfl, ?_⟩
      intro _
      rw [hreplay]
      rfl
    · rw [hrequest]
      exact
        { method := by
            rw [hgiven]
            rfl
          headers := by
            rw [given_eq_none.mpr hheaders]
            rfl
          body := by
            simp [CommandLine.givesBody, hdata, hbinary] }

end Cases

/-- The steps up to the plan. -/
theorem exists_steps
    (h : execute readBodyFile cli (some (.ok profile)) = .ok (some plan)) :
    (∀ r ∈ profile.refusals, r.1 = false) ∧
      ∃ s₁ s₂ s₃ body, MergedSettings cli profile s₁ ∧ KeepsWorkload cli s₁ ∧
        mergeStaticSection profile.loadProfile s₁ = .ok s₂ ∧
        mergeReplaySection profile.loadProfile s₂ = .ok s₃ ∧
        Planned readBodyFile s₃ body plan := by
  rw [execute] at h
  obtain ⟨s, hmerge, h⟩ := ok_of_bind h
  split at h
  · cases h
  · obtain ⟨plan', hplan, hsome⟩ := map_eq_ok.mp h
    cases hsome
    obtain ⟨body, hplanned⟩ := exists_planned hplan
    rw [mergeFile] at hmerge
    obtain ⟨profile', hload, hmerge⟩ := ok_of_bind hmerge
    rw [load] at hload
    obtain ⟨read, hread, hload⟩ := ok_of_bind hload
    cases hread
    obtain ⟨_, hrefusals, hload⟩ := ok_of_bind hload
    cases hload
    rw [mergeProfile] at hmerge
    obtain ⟨s₀, hrunner, hmerge⟩ := ok_of_bind hmerge
    obtain ⟨s₁, houtput, hmerge⟩ := ok_of_bind hmerge
    obtain ⟨s₂, hstatic, hreplay⟩ := ok_of_bind hmerge
    obtain ⟨hsettings, hkeeps⟩ := merged_settings hrunner houtput
    exact ⟨refuse_eq_ok.mp hrefusals, s₁, s₂, s, body, hsettings, hkeeps, hstatic, hreplay,
      hplanned⟩

/-- The section that the mode names is there. -/
theorem section_of_mode (h : ∀ r ∈ profile.refusals, r.1 = false) :
    (profile.loadProfile.mode = some "static" → profile.loadProfile.staticRequest.isSome) ∧
      (profile.loadProfile.mode = some "log_replay" → profile.loadProfile.logReplay.isSome) := by
  rw [Profile.refusals] at h
  simp only [List.forall_mem_cons] at h
  obtain ⟨-, -, -, hstatic, hreplay, -⟩ := h
  constructor
  · intro hmode
    simpa [hmode] using hstatic
  · intro hmode
    simpa [hmode] using hreplay

section Sections

variable {load : LoadProfile} {s' : Settings}

theorem mergeStaticSection_cases (h : mergeStaticSection load s = .ok s') :
    (s' = s ∧ (s.takesWorkload = true → load.staticRequest = none)) ∨
    (∃ request, load.staticRequest = some request ∧ s.takesWorkload = true ∧
      mergeStatic request s = .ok s') := by
  rw [mergeStaticSection] at h
  cases hrequest : load.staticRequest with
  | none =>
    rw [hrequest] at h
    exact Or.inl ⟨(Except.ok.inj h).symm, fun _ => rfl⟩
  | some request =>
    rw [hrequest] at h
    cases htakes : s.takesWorkload with
    | true =>
      rw [htakes] at h
      exact Or.inr ⟨request, rfl, rfl, h⟩
    | false =>
      rw [htakes] at h
      exact Or.inl ⟨(Except.ok.inj h).symm, by simp⟩

theorem mergeReplaySection_cases (h : mergeReplaySection load s = .ok s') :
    (s' = s ∧ (s.takesWorkload = true → load.logReplay = none)) ∨
    (∃ replay, load.logReplay = some replay ∧ s.takesWorkload = true ∧
      mergeReplay replay s = .ok s') := by
  rw [mergeReplaySection] at h
  cases hreplay : load.logReplay with
  | none =>
    rw [hreplay] at h
    exact Or.inl ⟨(Except.ok.inj h).symm, fun _ => rfl⟩
  | some replay =>
    rw [hreplay] at h
    cases htakes : s.takesWorkload with
    | true =>
      rw [htakes] at h
      exact Or.inr ⟨replay, rfl, rfl, h⟩
    | false =>
      rw [htakes] at h
      exact Or.inl ⟨(Except.ok.inj h).symm, by simp⟩

/-- The sections of the workload leave the other variables alone. -/
theorem MergedSettings.keep (h : MergedSettings cli profile s) {s₁ : Settings}
    (hstatic : mergeStaticSection load s = .ok s₁) (hreplay : mergeReplaySection load s₁ = .ok s') :
    MergedSettings cli profile s' := by
  have h₁ : MergedSettings cli profile s₁ := by
    obtain ⟨rfl, -⟩ | ⟨request, -, -, hmerge⟩ := mergeStaticSection_cases hstatic
    · exact h
    · obtain ⟨_, -, rfl⟩ := mergeStatic_eq_ok hmerge
      exact ⟨h.url, h.requests, h.duration, h.connections, h.threads, h.timeout, h.outputBeauty,
        h.outputFormat, h.outputHtml⟩
  obtain ⟨rfl, -⟩ | ⟨replay, -, -, hmerge⟩ := mergeReplaySection_cases hreplay
  · exact h₁
  · obtain ⟨_, _, _, _, _, _, _, hsource, -, -, -, rfl⟩ := mergeReplay_eq_ok hmerge
    obtain ⟨_, _, rfl, -⟩ := mergeSource_eq_ok hsource
    exact ⟨h₁.url, h₁.requests, h₁.duration, h₁.connections, h₁.threads, h₁.timeout,
      h₁.outputBeauty, h₁.outputFormat, h₁.outputHtml⟩

theorem takesWorkload_eq (hs : KeepsWorkload cli s) :
    s.takesWorkload = (!cli.replaysLog && !cli.ordinaryRequestWasSet) := by
  obtain ⟨_, _, _, _, _, _, _, _, rfl⟩ := hs
  cases hlog : cli.accessLog <;> cases hfile : cli.requestFile <;>
    simp [Settings.takesWorkload, CommandLine.replaysLog, CommandLine.settings, hlog, hfile]

end Sections

/-- The workload is right where the command line and the profile are compatible. -/
theorem rightWorkload_iff {load : LoadProfile} {s₁ s₂ s₃ : Settings} {body : Option (List UInt8)}
    (hs : KeepsWorkload cli s₁) (hstatic : mergeStaticSection load s₁ = .ok s₂)
    (hreplay : mergeReplaySection load s₂ = .ok s₃) (hplan : Planned readBodyFile s₃ body plan)
    (hmode : (load.mode = some "static" → load.staticRequest.isSome) ∧
      (load.mode = some "log_replay" → load.logReplay.isSome)) :
    RightWorkload readBodyFile cli load plan ↔ Compatible cli load := by
  have htakes := takesWorkload_eq hs
  obtain ⟨rfl, hnostatic⟩ | ⟨request, hrequest, htaken, hmerge⟩ :=
    mergeStaticSection_cases hstatic
  · obtain ⟨rfl, hnoreplay⟩ | ⟨replay, hsection, htaken, hmerge⟩ :=
      mergeReplaySection_cases hreplay
    · cases hreplays : cli.replaysLog with
      | true =>
        cases hlog : cli.accessLog with
        | some path => exact rightWorkload_accessLog hs hplan hlog
        | none =>
          have hfile : cli.requestFile.isSome = true := by
            simpa [CommandLine.replaysLog, hlog] using hreplays
          obtain ⟨path, hpath⟩ := Option.isSome_iff_exists.mp hfile
          exact rightWorkload_requestFile hs hplan hlog hpath
      | false =>
        cases hordinary : cli.ordinaryRequestWasSet with
        | true => exact rightWorkload_request hs hplan hreplays hordinary
        | false =>
          rw [hreplays, hordinary] at htakes
          exact rightWorkload_plain hs hplan hreplays hordinary (hnostatic htakes)
            (hnoreplay htakes)
    · rw [htaken] at htakes
      obtain ⟨hreplays, hordinary⟩ :
          cli.replaysLog = false ∧ cli.ordinaryRequestWasSet = false := by
        simpa using htakes.symm
      exact rightWorkload_replay hs hmerge hplan hreplays hordinary (hnostatic htaken) hsection
        hmode.1
  · rw [htaken] at htakes
    obtain ⟨hreplays, hordinary⟩ :
        cli.replaysLog = false ∧ cli.ordinaryRequestWasSet = false := by
      simpa using htakes.symm
    have hleft : s₂.takesWorkload = false := by
      obtain ⟨_, -, rfl⟩ := mergeStatic_eq_ok hmerge
      simp [Settings.takesWorkload]
    obtain ⟨rfl, -⟩ | ⟨replay, -, hnot, -⟩ := mergeReplaySection_cases hreplay
    · exact rightWorkload_static hs hmerge hplan hreplays hordinary hrequest hmode.2
    · rw [hleft] at hnot
      cases hnot

theorem respects_iff_compatible
    (h : execute readBodyFile cli (some (.ok profile)) = .ok (some plan)) :
    Respects readBodyFile cli profile plan ↔ Compatible cli profile.loadProfile := by
  obtain ⟨hrefusals, s₁, s₂, s₃, body, hsettings, hs, hstatic, hreplay, hplan⟩ := exists_steps h
  have hiff := rightWorkload_iff hs hstatic hreplay hplan (section_of_mode hrefusals)
  constructor
  · intro hrespects
    exact hiff.mp ⟨hrespects.selected, hrespects.values⟩
  · intro hcompatible
    obtain ⟨hselected, hvalues⟩ := hiff.mpr hcompatible
    exact ⟨(hsettings.keep hstatic hreplay).respects hplan, hselected, hvalues⟩

def noFile (_ : String) : Except String (List UInt8) := .error "no file is read"

def shuffledReplay : LogReplay where
  path := "access.log"
  format := "nginx"
  order := some "shuffle"

def shuffledProfile : Profile where
  version := "v1"
  targetUrl := "http://localhost/"
  loadProfile := { mode := some "log_replay", logReplay := some shuffledReplay }

def twentyConnections : CommandLine where
  connections := some 20

def shuffledPlan : Plan where
  url := "http://localhost/"
  method := .get
  config := ⟨.duration (10 * 10 ^ 9), 20, 2, 2 * 10 ^ 9⟩
  workload := .accessLog "access.log" ⟨.shuffle, none, none, false, 1, []⟩ none ⟨[], []⟩
  assertions := []
  outputFormat := .text
  outputHtml := none

theorem shuffledPlan_respects :
    execute noFile twentyConnections (some (.ok shuffledProfile)) = .ok (some shuffledPlan) ∧
      Respects noFile twentyConnections shuffledProfile shuffledPlan := by
  refine ⟨rfl, (respects_iff_compatible rfl).mpr ?_⟩
  exact
    { replay := by simp [CommandLine.replaysLog, twentyConnections]
      records := by simp [twentyConnections]
      request := by simp [CommandLine.ordinaryRequestWasSet, twentyConnections]
      mode := fun _ _ _ => rfl
      speed := by simp [KeepsSpeed, twentyConnections] }

/-- The mode names the replay, and the request runs. -/
def requestBesideReplay : Profile :=
  { shuffledProfile with
    loadProfile := { shuffledProfile.loadProfile with staticRequest := some {} } }

def requestPlan : Plan :=
  { shuffledPlan with workload := .request [] none [] }

theorem requestBesideReplay_not_respected :
    execute noFile twentyConnections (some (.ok requestBesideReplay)) = .ok (some requestPlan) ∧
      ¬ Respects noFile twentyConnections requestBesideReplay requestPlan := by
  refine ⟨rfl, ?_⟩
  intro hrespects
  have hnamed := (hrespects.selected.named rfl rfl).2 rfl
  cases hnamed

end Rload.Profiles
