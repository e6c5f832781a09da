import Dispatch.Failure
import Dispatch.Text.Blank
import Dispatch.Text.Split

/-!
# Settings

`Config` holds the settings that apply to all jobs.  They are read from an object
of any origin: a setting that is absent or blank takes its default, and blanks
around a setting are dropped.  The directory for artifacts is meant below the root
of a store and may not lead out of it.
-/

namespace Dispatch

/-- The settings that apply to all jobs. -/
structure Config where
  defaultStdout : String := "ams_test.out"
  defaultStderr : String := "ams_test.err"
  mpiFlavor : String := "spectrum"
  gpuAffinity : String := "per-task"
  artifactDir : String := "tmp"
deriving DecidableEq

namespace Value

/-- The members of any object that is no list, as a table. -/
def asObject (value : Value) (label : String) : Except Failure (Dict Value) :=
  match value with
  | .object _ members => .ok members
  | _ => .error (.notObject label)

/-- A text without the blanks around it; nothing if the value is absent or blank. -/
def readText (value : Value) (field : String) : Except Failure (Option String) :=
  match value with
  | .missing | .null => .ok none
  | .text content =>
    let trimmed := trim content
    .ok (if trimmed = "" then none else some trimmed)
  | _ => .error (.notText field)

end Value

namespace Config

/-- The parts of a directory between slashes of either kind. -/
def segments (directory : String) : List String :=
  splitText (fun c => c == '/' || c == '\\') directory

/-- Whether a directory begins at a root or goes up somewhere. -/
def leavesRoot (directory : String) : Bool :=
  directory.toList.head? == some '/' || (segments directory).contains ".."

/-- A directory that stays below the root that it is meant in. -/
def readDirectory (value : Value) (field : String) : Except Failure (Option String) := do
  match ← value.readText field with
  | none => return none
  | some directory =>
    if leavesRoot directory then throw (.outsideRoot field directory)
    return some directory

/-- The settings in a value. -/
def parse (value : Value) : Except Failure Config := do
  match value.present? with
  | none => return {}
  | some value =>
    let settings ← value.asObject "ams-jobs config"
    let setting (name : String) : Value := (settings.get? name).getD .missing
    let defaults : Config := {}
    let stdout ← (setting "defaultStdout").readText "defaultStdout"
    let stderr ← (setting "defaultStderr").readText "defaultStderr"
    let mpiFlavor ← (setting "mpiFlavor").readText "mpiFlavor"
    let gpuAffinity ← (setting "gpuAffinity").readText "gpuAffinity"
    let artifactDir ← readDirectory (setting "artifactDir") "artifactDir"
    return {
      defaultStdout := stdout.getD defaults.defaultStdout
      defaultStderr := stderr.getD defaults.defaultStderr
      mpiFlavor := mpiFlavor.getD defaults.mpiFlavor
      gpuAffinity := gpuAffinity.getD defaults.gpuAffinity
      artifactDir := artifactDir.getD defaults.artifactDir }

end Config

end Dispatch
