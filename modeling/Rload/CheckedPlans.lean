import Rload.ExpressibleOptions
import Rload.SettingPrecedence

/-!
# Plans that the engine accepts

What the engine checks before a run has been checked when the arguments and the profile were read:
each step from the arguments to a plan keeps the settings within what the engine accepts. What is
left to the engine are the timeout, the counts of a profile and the sum of the stages.
-/

namespace Rload.Profiles
open TextScanning

/-- The program up to the run, with what reading the body and the profile gives. Nothing is planned
if the help or the version is printed. -/
def planOf (readBodyFile : String → Except String (List UInt8))
    (readProfile : String → Except String Profile) (arguments : List String) :
    Except String (Option Plan) := do
  match ← parseArguments arguments with
  | none => .ok none
  | some given => execute readBodyFile given.options (given.profilePath.map readProfile)

/-- The stages of a workload. -/
def Workload.stages : Workload → List ReplayStage
  | .plain stages => stages
  | .request _ _ stages => stages
  | .accessLog _ replay _ _ => replay.stages
  | .requestFile _ replay _ _ _ _ => replay.stages

/-- The options and the rounds of a workload that is a replay. -/
def Workload.replay? : Workload → Option (ReplayOptions × Option ℕ)
  | .accessLog _ replay rounds _ => some (replay, rounds)
  | .requestFile _ replay rounds _ _ _ => some (replay, rounds)
  | _ => none

def ReplayStage.Positive (stage : ReplayStage) : Prop := stage.duration ≠ 0 ∧ stage.rate ≠ 0

/-- The variables have nothing that the engine refuses. -/
structure Settings.Sound (s : Settings) : Prop where
  requests : s.requestsWereSet = true → s.requests ≠ 0
  duration : s.duration ≠ some 0
  rate : s.replayRate ≠ some 0
  speed : 0 < s.replaySpeed
  stages : ∀ stage ∈ s.stages, ReplayStage.Positive stage
  rounds : s.replayRounds ≠ some 0

theorem ne_zero_of_isMillis {d : ℕ} (h : IsMillis d) : d ≠ 0 := by
  obtain ⟨millis, hcount, rfl⟩ := h
  have hpos := hcount.1
  omega

theorem ne_some_zero {o : Option ℕ} (h : ∀ n ∈ o, IsCount n) : o ≠ some 0 := by
  rintro rfl
  exact absurd (h 0 rfl).1 (lt_irrefl 0)

/-- What arguments give is sound. -/
theorem sound_settings {cli : CommandLine} (h : cli.WellFormed) : cli.settings.Sound where
  requests := by
    intro hset
    obtain ⟨n, hn⟩ := Option.isSome_iff_exists.mp hset
    have hcount := h.requests n hn
    simp only [CommandLine.settings, hn, Option.getD_some]
    exact hcount.1.ne'
  duration := by
    intro hzero
    exact ne_zero_of_isMillis (h.duration 0 hzero) rfl
  rate := ne_some_zero h.replayRate
  speed := by
    cases hspeed : cli.replaySpeed with
    | none => simp [CommandLine.settings, hspeed]
    | some speed =>
      simp only [CommandLine.settings, hspeed, Option.getD_some]
      exact (h.replaySpeed speed hspeed).1
  stages := by
    intro stage hstage
    have hgiven : ∃ stages, AreStages stages ∧ stage ∈ stages := by
      cases hstages : cli.stages with
      | some stages =>
        simp only [CommandLine.settings, hstages, Option.some_or, Option.getD_some] at hstage
        exact ⟨stages, h.stages stages hstages, hstage⟩
      | none =>
        cases hreplay : cli.replayStages with
        | some stages =>
          simp only [CommandLine.settings, hstages, hreplay, Option.none_or,
            Option.getD_some] at hstage
          exact ⟨stages, h.replayStages stages hreplay, hstage⟩
        | none =>
          simp only [CommandLine.settings, hstages, hreplay, Option.none_or, Option.getD_none,
            List.not_mem_nil] at hstage
    obtain ⟨stages, hall, hmem⟩ := hgiven
    obtain ⟨hmillis, hcount⟩ := hall.2 stage hmem
    exact ⟨ne_zero_of_isMillis hmillis, hcount.1.ne'⟩
  rounds := ne_some_zero h.replayRounds

theorem duration_ne_zero_of_parse {value : String} {d : ℕ} (h : parseDuration value = .ok d) :
    d ≠ 0 := ne_zero_of_isMillis (isMillis_of_parse h)

/-- A value that is set, or that of the profile. -/
theorem cases_of_mergeValue {α : Type} {wasSet : Bool} {value result : α}
    {inProfile : Option (Except String α)} (h : mergeValue wasSet value inProfile = .ok result) :
    result = value ∨ inProfile = some (.ok result) := by
  unfold mergeValue at h
  split at h
  · split at h
    · exact Or.inl (Except.ok.inj h).symm
    · exact Or.inr (congrArg some h)
  · exact Or.inl (Except.ok.inj h).symm

section Steps

variable {profile : Profile} {s s' : Settings}

theorem Settings.Sound.mergeRunner (hs : s.Sound) (h : mergeRunner profile s = .ok s') :
    s'.Sound := by
  obtain ⟨duration, hduration, h⟩ := ok_of_bind h
  obtain ⟨timeout, -, h⟩ := ok_of_bind h
  cases h
  refine { hs with duration := ?_ }
  obtain rfl | hprofile := cases_of_mergeValue hduration
  · exact hs.duration
  · obtain ⟨value, -, hvalue⟩ := Option.map_eq_some_iff.mp hprofile
    obtain ⟨d, hd, rfl⟩ := map_eq_ok.mp hvalue
    exact fun hzero => duration_ne_zero_of_parse hd (Option.some.inj hzero)

theorem Settings.Sound.mergeOutput {observability : Observability} (hs : s.Sound)
    (h : mergeOutput observability s = .ok s') : s'.Sound := by
  obtain ⟨outputFormat, -, h⟩ := ok_of_bind h
  cases h
  exact { hs with }

theorem Settings.Sound.mergeStaticSection {load : LoadProfile} (hs : s.Sound)
    (h : mergeStaticSection load s = .ok s') : s'.Sound := by
  unfold Profiles.mergeStaticSection at h
  split at h
  · split at h
    · obtain ⟨method, -, h⟩ := ok_of_bind h
      cases h
      exact { hs with }
    · cases h
      exact hs
  · cases h
    exact hs

theorem positive_of_parse {stages : List PacingStage} {parsed : List ReplayStage}
    (hrates : ∀ stage ∈ stages, 0 < stage.targetRps)
    (h : stages.mapM PacingStage.parse = .ok parsed) :
    ∀ stage ∈ parsed, ReplayStage.Positive stage := by
  induction stages generalizing parsed with
  | nil =>
    cases h
    exact List.forall_mem_nil _
  | cons stage stages ih =>
    rw [List.forall_mem_cons] at hrates
    rw [List.mapM_cons] at h
    obtain ⟨first, hfirst, h⟩ := ok_of_bind h
    obtain ⟨rest, hrest, h⟩ := ok_of_bind h
    cases h
    refine List.forall_mem_cons.mpr ⟨?_, ih hrates.2 hrest⟩
    obtain ⟨d, -, hfirst⟩ := ok_of_bind hfirst
    split at hfirst
    · cases hfirst
    · rename_i hne
      cases hfirst
      exact ⟨hne, hrates.1.ne'⟩

/-- What a pacing sets has been checked. -/
theorem Settings.Sound.mergePacing {pacing : Pacing} (hs : s.Sound)
    (haccepted : ∀ r ∈ pacing.refusals, r.1 = false) (h : mergePacing pacing s = .ok s') :
    s'.Sound := by
  unfold Profiles.mergePacing at h
  split at h
  · cases h
    exact hs
  · rename_i hmode
    cases h
    refine { hs with rate := ?_ }
    simp only [Pacing.refusals, hmode, List.forall_mem_singleton] at haccepted
    intro hzero
    have hrate : pacing.rate = some 0 := hzero
    simp [hrate] at haccepted
  · rename_i hmode
    cases h
    refine { hs with speed := ?_ }
    simp only [Pacing.refusals, hmode, List.forall_mem_singleton] at haccepted
    dsimp only
    split
    · exact hs.speed
    · cases hspeed : pacing.speed with
      | none => exact one_pos
      | some speed =>
        rw [hspeed] at haccepted
        cases speed with
        | finite x => simpa [Float64.value] using haccepted
        | notFinite => simp at haccepted
  · rename_i hmode
    obtain ⟨stages, hparse, h⟩ := ok_of_bind h
    cases h
    simp only [Pacing.refusals, hmode, List.forall_mem_singleton] at haccepted
    refine { hs with stages := positive_of_parse (fun stage hstage => ?_) hparse }
    simp only [Bool.or_eq_false_iff, Bool.not_eq_false', List.all_eq_true] at haccepted
    have hstage := haccepted.2 stage hstage
    simp only [Bool.and_eq_true, decide_eq_true_eq] at hstage
    exact hstage.1
  · cases h

theorem Settings.Sound.mergeReplayPacing {replay : LogReplay} (hs : s.Sound)
    (haccepted : ∀ r ∈ (replay.pacing.map Pacing.refusals).getD [], r.1 = false)
    (h : mergeReplayPacing replay s = .ok s') : s'.Sound := by
  unfold Profiles.mergeReplayPacing at h
  split at h
  · rename_i pacing hsome
    rw [hsome] at haccepted
    split at h
    · exact hs.mergePacing haccepted h
    · cases h
      exact hs
  · cases h
    exact hs

theorem Settings.Sound.mergeReplay {replay : LogReplay} (hs : s.Sound)
    (haccepted : ∀ r ∈ replay.refusals, r.1 = false) (h : mergeReplay replay s = .ok s') :
    s'.Sound := by
  simp only [LogReplay.refusals, List.forall_mem_cons] at haccepted
  obtain ⟨-, -, hrounds, hpacing⟩ := haccepted
  obtain ⟨s₁, hsource, h⟩ := ok_of_bind h
  obtain ⟨order, -, h⟩ := ok_of_bind h
  obtain ⟨methods, -, h⟩ := ok_of_bind h
  obtain ⟨accessLog, requestFile, rfl, -⟩ := mergeSource_eq_ok hsource
  refine Settings.Sound.mergeReplayPacing ?_ hpacing h
  refine { hs with rounds := ?_ }
  dsimp only
  cases hgiven : s.replayRounds with
  | some n =>
    rw [Option.some_or, ← hgiven]
    exact hs.rounds
  | none => simpa using hrounds

/-- The steps of a profile keep the settings sound. -/
theorem Settings.Sound.mergeFile {file : Option (Except String Profile)} (hs : s.Sound)
    (h : mergeFile file s = .ok s') : s'.Sound := by
  unfold Profiles.mergeFile at h
  split at h
  · rename_i read
    obtain ⟨profile, hload, h⟩ := ok_of_bind h
    obtain ⟨read', -, hload⟩ := ok_of_bind hload
    obtain ⟨_, hrefuse, hload⟩ := ok_of_bind hload
    cases hload
    obtain ⟨s₁, hrunner, h⟩ := ok_of_bind h
    obtain ⟨s₂, houtput, h⟩ := ok_of_bind h
    obtain ⟨s₃, hstatic, h⟩ := ok_of_bind h
    have hs₃ := ((hs.mergeRunner hrunner).mergeOutput houtput).mergeStaticSection hstatic
    unfold mergeReplaySection at h
    split at h
    · rename_i replay hreplay
      split at h
      · refine hs₃.mergeReplay ?_ h
        have hall := refuse_eq_ok.mp hrefuse
        simp only [Profile.refusals, List.forall_mem_cons, hreplay] at hall
        exact hall.2.2.2.2.2
      · cases h
        exact hs₃
    · cases h
      exact hs₃
  · cases h
    exact hs

end Steps

theorem validateStages_iff {stages : List ReplayStage}
    (h : ∀ stage ∈ stages, ReplayStage.Positive stage) :
    validateStages stages = .ok () ↔ (stages.map (·.duration)).sum ≤ maxDuration := by
  have hpositive : (stages.any fun stage => stage.duration = 0 || stage.rate = 0) = false := by
    rw [List.any_eq_false]
    intro stage hstage
    have hne := h stage hstage
    simp [hne.1, hne.2]
  rw [validateStages, hpositive, if_neg Bool.false_ne_true]
  split
  · rename_i hlong
    exact ⟨nofun, fun hshort => absurd hshort (not_le.mpr hlong)⟩
  · rename_i hshort
    exact ⟨fun _ => not_lt.mp hshort, fun _ => rfl⟩

section Plans

variable {s : Settings}

/-- What the program refuses is what the engine refuses, but for stages that are too long. -/
theorem validateReplayOptions_iff (hs : s.Sound) (hearly : ∀ r ∈ s.earlyRefusals, r.1 = false)
    (hlate : ∀ r ∈ s.lateRefusals, r.1 = false) :
    validateReplayOptions s.replayOptions s.replayRounds = .ok () ↔
      (s.stages.map (·.duration)).sum ≤ maxDuration := by
  simp only [Settings.earlyRefusals, List.forall_mem_cons] at hearly
  obtain ⟨-, -, -, -, -, -, -, hrandom, -, -, -⟩ := hearly
  simp only [Settings.lateRefusals, List.forall_mem_cons] at hlate
  obtain ⟨-, -, -, -, hrate, horder, -, -, hstages, -, hseed, -⟩ := hlate
  have hseed' : ¬(s.replayOptions.order = .sequential && s.replayOptions.seed.isSome) = true := by
    rw [Bool.and_comm]
    exact Bool.eq_false_iff.mp hseed
  have hstages' : ¬(s.replayOptions.stages ≠ [] &&
      (s.replayOptions.rate.isSome || s.replayOptions.timestamps)) = true := by
    cases hlist : s.stages <;> simp_all [Settings.replayOptions]
  have hrandom' : ¬(s.replayRounds.isSome && s.replayOptions.order = .random) = true :=
    Bool.eq_false_iff.mp hrandom
  have horder' : ¬(s.replayOptions.timestamps && s.replayOptions.order ≠ .sequential) = true :=
    Bool.eq_false_iff.mp horder
  have hrate' : ¬(s.replayOptions.timestamps && s.replayOptions.rate.isSome) = true :=
    Bool.eq_false_iff.mp hrate
  have hspeed : ¬s.replayOptions.speed ≤ 0 := not_le.mpr hs.speed
  rw [validateReplayOptions, if_neg hseed', if_neg hs.rounds, if_neg hrandom', if_neg horder',
    if_neg hrate', if_neg hstages', if_neg hspeed, ← validateStages_iff hs.stages]
  have hkept : s.replayOptions.stages = s.stages := rfl
  rw [hkept]
  cases validateStages s.stages with
  | error e =>
    constructor
    · intro h
      cases h
    · intro h
      cases h
  | ok u => exact ⟨fun _ => rfl, fun _ => rfl⟩

theorem limit_validates (hs : s.Sound) (connections threads timeout : ℕ) :
    (⟨s.limit, connections, threads, timeout⟩ : RunConfig).validate = .ok () ↔
      0 < connections ∧ 0 < threads ∧ timeout ≤ 60 * 60 * 10 ^ 9 := by
  have hlimit : s.limit ≠ .requests 0 ∧ s.limit ≠ .duration 0 := by
    rw [Settings.limit]
    split
    · rename_i hset
      refine ⟨fun hzero => hs.requests hset (RunLimit.requests.inj hzero), fun hzero => ?_⟩
      cases hzero
    · refine ⟨fun hzero => ?_, fun hzero => ?_⟩
      · cases hzero
      have hduration := RunLimit.duration.inj hzero
      cases hgiven : s.duration with
      | none =>
        rw [hgiven] at hduration
        cases hduration
      | some d =>
        rw [hgiven, Option.getD_some] at hduration
        exact hs.duration (by rw [hgiven, hduration])
  rw [RunConfig.validate]
  dsimp only
  split
  · rename_i hzero
    refine ⟨fun h => ?_, fun h => absurd hzero h.1.ne'⟩
    cases h
  · rename_i hconnections
    split
    · rename_i hzero
      refine ⟨fun h => ?_, fun h => absurd hzero h.2.1.ne'⟩
      cases h
    · rename_i hthreads
      split
      · rename_i hlong
        refine ⟨fun h => ?_, fun h => absurd h.2.2 (not_le.mpr hlong)⟩
        cases h
      · rename_i hshort
        have hall : 0 < connections ∧ 0 < threads ∧ timeout ≤ 60 * 60 * 10 ^ 9 :=
          ⟨Nat.pos_of_ne_zero hconnections, Nat.pos_of_ne_zero hthreads, not_lt.mp hshort⟩
        split
        · rename_i hzero
          exact absurd hzero hlimit.1
        · rename_i hzero
          exact absurd hzero hlimit.2
        · exact ⟨fun _ => hall, fun _ => rfl⟩

theorem stages_workload (s : Settings) (body : Option (List UInt8)) :
    (s.workload body).stages = s.stages := by
  unfold Settings.workload
  split
  · rfl
  · rfl
  · split <;> rfl

theorem replay_workload {body : Option (List UInt8)} {options : ReplayOptions} {rounds : Option ℕ}
    (h : (s.workload body).replay? = some (options, rounds)) :
    options = s.replayOptions ∧ rounds = s.replayRounds := by
  unfold Settings.workload at h
  split at h
  · cases h
    exact ⟨rfl, rfl⟩
  · cases h
    exact ⟨rfl, rfl⟩
  · split at h <;> cases h

variable {readBodyFile : String → Except String (List UInt8)}
  {readProfile : String → Except String Profile} {arguments : List String} {plan : Plan}

/-- A plan comes from sound settings. -/
theorem sound_planOf (h : planOf readBodyFile readProfile arguments = .ok (some plan)) :
    ∃ given s body, parseArguments arguments = .ok (some given) ∧ s.Sound ∧
      mergeFile (given.profilePath.map readProfile) given.options.settings = .ok s ∧
      Planned readBodyFile s body plan := by
  obtain ⟨parsed, hparse, h⟩ := ok_of_bind h
  cases parsed with
  | none => cases h
  | some given =>
    obtain ⟨s, hmerge, h⟩ := ok_of_bind h
    split at h
    · cases h
    · obtain ⟨plan', hplan, hsome⟩ := map_eq_ok.mp h
      cases hsome
      obtain ⟨body, hplanned⟩ := exists_planned hplan
      exact ⟨given, s, body, hparse,
        (sound_settings (wellFormed_of_parse hparse)).mergeFile hmerge, hmerge, hplanned⟩

/-- Every plan passes the checks of the engine, but for stages that are too long, a timeout above
one hour, and a profile without connections or threads. -/
theorem plans_pass_checks (h : planOf readBodyFile readProfile arguments = .ok (some plan)) :
    (∀ options rounds, plan.workload.replay? = some (options, rounds) →
      (validateReplayOptions options rounds = .ok () ↔
        (options.stages.map (·.duration)).sum ≤ maxDuration)) ∧
    (validateStages plan.workload.stages = .ok () ↔
      (plan.workload.stages.map (·.duration)).sum ≤ maxDuration) ∧
    (plan.config.validate = .ok () ↔
      0 < plan.config.connections ∧ 0 < plan.config.threads ∧
        plan.config.timeout ≤ 60 * 60 * 10 ^ 9) ∧
    ∀ given, parseArguments arguments = .ok (some given) → given.profilePath = none →
      0 < plan.config.connections ∧ 0 < plan.config.threads := by
  obtain ⟨given, s, body, hparse, hs, hmerge, hplan⟩ := sound_planOf h
  rw [hplan.workload, hplan.config, stages_workload]
  refine ⟨fun options rounds hreplay => ?_, validateStages_iff hs.stages, limit_validates hs _ _ _,
    fun given' hparse' hnone => ?_⟩
  · obtain ⟨rfl, rfl⟩ := replay_workload hreplay
    exact validateReplayOptions_iff hs hplan.early hplan.late
  · cases hparse.symm.trans hparse'
    rw [hnone] at hmerge
    cases hmerge
    have hwell : given.options.WellFormed := wellFormed_of_parse hparse
    have hpos : ∀ {o : Option ℕ} {default : ℕ}, (∀ n ∈ o, IsCount n) → 0 < default →
        0 < o.getD default := by
      intro o default hcount hdefault
      cases o with
      | none => exact hdefault
      | some n => exact (hcount n rfl).1
    exact ⟨hpos hwell.connections (by decide), hpos hwell.threads (by decide)⟩

end Plans

/-- A replay of a log in two stages. -/
def stagedReplay : Except String (Option Plan) :=
  planOf (fun _ => .error "no file") (fun _ => .error "no profile")
    ["--access-log", "access.log", "--replay-stages", "1s:2,2s:3", "-T", "3s", "-n2",
      "http://localhost/"]

theorem plans_pass_checks_sample :
    ∃ plan options rounds, stagedReplay = .ok (some plan) ∧
      plan.workload.replay? = some (options, rounds) ∧ options.stages.length = 2 ∧
      validateReplayOptions options rounds = .ok () ∧
      plan.config.timeout = 3 * 10 ^ 9 ∧ plan.config.validate = .ok () := by
  have hstaged : stagedReplay.toOption.map (Option.map fun plan => (plan.config,
      plan.workload.replay?.map fun replay => replay.1.stages.map (·.duration))) =
        some (some (⟨.requests 2, 10, 2, 3 * 10 ^ 9⟩, some [10 ^ 9, 2 * 10 ^ 9])) := by
    decide +kernel
  obtain ⟨_, hsome, hstages⟩ := Option.map_eq_some_iff.mp hstaged
  obtain ⟨plan, rfl, hstages⟩ := Option.map_eq_some_iff.mp hstages
  obtain ⟨hconfig, hreplay⟩ := Prod.mk.inj (Option.some.inj hstages)
  have hplan := ok_of_toOption hsome
  obtain ⟨⟨options, rounds⟩, hreplay, hdurations⟩ := Option.map_eq_some_iff.mp hreplay
  have hlength := congrArg List.length hdurations
  rw [List.length_map] at hlength
  obtain ⟨hoptions, -, hvalidates, -⟩ := plans_pass_checks hplan
  refine ⟨plan, options, rounds, hplan, hreplay, hlength, ?_, by rw [hconfig], ?_⟩
  · rw [hoptions options rounds hreplay]
    have hdurations : options.stages.map (·.duration) = [10 ^ 9, 2 * 10 ^ 9] := hdurations
    rw [hdurations]
    decide
  · rw [hvalidates, hconfig]
    decide

end Rload.Profiles
