import Rload.LoadRun
import Rload.ReplayFilter

/-!
# Profiles

A profile gives the target, the workload and the settings of a run. What is read from its file
is checked before it is used. Durations are nanoseconds.
-/

namespace Rload.Profiles
open TextScanning

structure Assertion where
  expression : String
  message : Option String
  deriving DecidableEq, Repr

structure Runner where
  threads : ℕ := 2
  connections : ℕ := 10
  duration : Option String := none
  timeout : String := "2s"
  deriving DecidableEq, Repr

structure StaticRequest where
  method : String := "GET"
  headers : List (String × String) := []
  body : Option String := none
  deriving DecidableEq, Repr

/-- A number of the type `f64`. -/
inductive Float64 where
  | finite (x : ℚ)
  | notFinite
  deriving DecidableEq, Repr

structure PacingStage where
  duration : String
  targetRps : ℕ
  deriving DecidableEq, Repr

structure Pacing where
  mode : String
  rate : Option ℕ := none
  speed : Option Float64 := none
  stages : List PacingStage := []
  deriving DecidableEq, Repr

structure Filter where
  allowedMethods : List String := []
  allowedUris : List String := []
  deriving DecidableEq, Repr

structure LogReplay where
  path : String
  format : String
  order : Option String := none
  seed : Option UInt64 := none
  rounds : Option ℕ := none
  schema : Option String := none
  skipInvalidRecords : Bool := false
  pacing : Option Pacing := none
  filter : Filter := {}
  deriving DecidableEq, Repr

structure LoadProfile where
  mode : Option String := none
  staticRequest : Option StaticRequest := none
  logReplay : Option LogReplay := none
  deriving DecidableEq, Repr

structure Observability where
  outputFormat : Option String := none
  outputHtml : Option String := none
  deriving DecidableEq, Repr

structure Profile where
  version : String
  targetUrl : String
  runner : Runner := {}
  loadProfile : LoadProfile := {}
  observability : Observability := {}
  assertions : List Assertion := []
  deriving DecidableEq, Repr

def isBlank (text : String) : Bool := trim text.toList = []

/-- The first of the refusals that applies. -/
def refuse : List (Bool × String) → Except String Unit
  | [] => .ok ()
  | (refused, message) :: refusals => if refused then .error message else refuse refusals

theorem refuse_eq_ok {refusals : List (Bool × String)} :
    refuse refusals = .ok () ↔ ∀ r ∈ refusals, r.1 = false := by
  induction refusals with
  | nil => simp [refuse]
  | cons r refusals ih =>
    obtain ⟨refused, message⟩ := r
    cases refused <;> simp [refuse, ih]

def Pacing.refusals (pacing : Pacing) : List (Bool × String) :=
  match pacing.mode with
  | "none" => []
  | "rate" =>
    [(!pacing.rate.any (0 < ·),
      "profile load_profile.log_replay.pacing.rate must be greater than zero")]
  | "timestamp" =>
    [(!pacing.speed.all fun speed => match speed with
        | .finite x => 0 < x
        | .notFinite => false,
      "profile load_profile.log_replay.pacing.speed must be a finite number greater than zero")]
  | "stages" =>
    [(pacing.stages.isEmpty ||
        !pacing.stages.all fun stage => 0 < stage.targetRps && !isBlank stage.duration,
      "profile load_profile.log_replay.pacing.stages must contain non-empty durations and " ++
        "positive target_rps values")]
  | mode =>
    [(true, "profile load_profile.log_replay.pacing.mode must be none, rate, timestamp, or " ++
      "stages, got " ++ mode)]

def LogReplay.refusals (replay : LogReplay) : List (Bool × String) :=
  (isBlank replay.path, "profile load_profile.log_replay.path must not be empty") ::
  (replay.format ≠ "nginx" && replay.format ≠ "jsonl",
    "profile load_profile.log_replay.format must be nginx or jsonl, got " ++ replay.format) ::
  (decide (replay.rounds = some 0),
    "profile load_profile.log_replay.rounds must be greater than zero") ::
  (replay.pacing.map Pacing.refusals).getD []

def Profile.refusals (profile : Profile) : List (Bool × String) :=
  let mode := profile.loadProfile.mode
  (decide (profile.version ≠ "v1"), "profile version must be v1, got " ++ profile.version) ::
  (isBlank profile.targetUrl, "profile target.url must not be empty") ::
  (mode.any fun mode => mode ≠ "static" && mode ≠ "log_replay",
    "profile load_profile.mode is not supported yet: " ++ mode.getD "") ::
  (mode = some "static" && profile.loadProfile.staticRequest.isNone,
    "profile load_profile.static is required when mode is static") ::
  (mode = some "log_replay" && profile.loadProfile.logReplay.isNone,
    "profile load_profile.log_replay is required when mode is log_replay") ::
  (profile.loadProfile.logReplay.map LogReplay.refusals).getD []

/-- The profile is what `read` makes of the file. -/
def load (read : Except String Profile) : Except String Profile := do
  let profile ← read
  refuse profile.refusals
  return profile

end Rload.Profiles
