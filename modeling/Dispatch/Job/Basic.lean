import Dispatch.Command
import Dispatch.Environment
import Dispatch.Resources
import Dispatch.Text.Blank

/-!
# Jobs

A job is a command with everything that the scheduler needs to run it.  All jobs
share the fields of `JobFields`; their `Role` in a workflow adds what only some of
them have.  `JobFields.create` validates the options that jobs are made from.
-/

namespace Dispatch

/-- What all jobs have. -/
structure JobFields where
  name : String
  executable : String
  environment : Environment
  resources : Option ResourceSpec
  stdout : Option String
  stderr : Option String
  /-- Positional arguments. -/
  arguments : List Value
  /-- Flags with their values. -/
  flags : Dict Value
  isMpi : Bool
  /-- Whether the application logs what its surrogate models do. -/
  amsLog : Bool

/-- The two kinds of jobs that work on models. -/
inductive LearningPhase
  | training
  | subSelection
deriving DecidableEq

/-- Where a staging job takes samples from. -/
inductive StageSource
  | files (src : String) (srcType : Option String) (pattern : String)
  | network (creds : String) (updateModels : Bool)
deriving DecidableEq

/-- The kinds of staging jobs. -/
inductive StageVariant
  | fs
  | network
  | fsPersistent
deriving DecidableEq

/-- What a staging job is told. -/
structure StageDetails where
  variant : StageVariant
  destinationPath : String
  persistentStorePath : String
  /-- Whether staged data is entered into the store. -/
  storeFlag : Bool
  dbType : String
  policy : String
  pruneModulePath : Option String
  pruneClass : Option String
  source : StageSource
deriving DecidableEq

/-- A job's part in a workflow. -/
inductive Role
  | generic
  /-- Runs an application on domains whose models it looks up in an objects file. -/
  | domain (names : List String) (stageDir objectsPath : Option String)
  | learning (phase : LearningPhase) (domain : String)
  | stage (details : StageDetails)
  | orchestrator (schedulerUri brokerConfigPath : String)
deriving DecidableEq

/-- A job. -/
structure Job extends JobFields where
  role : Role

namespace LearningPhase

/-- The phase in descriptions. -/
def name : LearningPhase → String
  | .training => "train"
  | .subSelection => "sub-select"

end LearningPhase

namespace StageVariant

/-- The variant in descriptions. -/
def name : StageVariant → String
  | .fs => "fs"
  | .network => "network"
  | .fsPersistent => "fs-persistent"

end StageVariant

namespace StageSource

/-- The mechanism by which samples arrive. -/
def mechanism : StageSource → String
  | .files .. => "fs"
  | .network .. => "network"

end StageSource

namespace Role

/-- The kind of job that a role makes. -/
def kind : Role → String
  | .generic => "job"
  | .domain .. => "domain"
  | .learning phase _ => phase.name
  | .stage _ => "stage"
  | .orchestrator .. => "orchestrator"

/-- The kind of job in summaries, with the variant of a staging job. -/
def label : Role → String
  | .stage details => "stage:" ++ details.variant.name
  | role => role.kind

end Role

/-- What jobs are made from. -/
structure JobOptions where
  name : String
  executable : String
  environment : Value := .missing
  /-- The environment below the job's own. -/
  baseEnvironment : Option (Dict Value) := none
  resources : Option ResourceRequest := none
  stdout : Option String := none
  stderr : Option String := none
  arguments : List Value := []
  flags : Dict Value := []
  isMpi : Bool := false
  amsLog : Bool := false

namespace JobFields

/-- The fields of a job made from options. -/
def create (options : JobOptions) : Except Failure JobFields := do
  let name := trim options.name
  let executable := trim options.executable
  if executable = "" then throw (.noExecutable name)
  let environment ← Environment.validate options.environment "environment"
  let resources ← options.resources.mapM ResourceRequest.create
  return {
    name := name
    executable := executable
    environment := environment.onTopOf options.baseEnvironment
    resources := resources
    stdout := options.stdout
    stderr := options.stderr
    arguments := options.arguments
    flags := options.flags
    isMpi := options.isMpi
    amsLog := options.amsLog }

/-- The command that a job runs. -/
def command (fields : JobFields) : Except Failure Command :=
  Command.build fields.executable fields.arguments fields.flags

end JobFields

namespace Job

/-- A job without a special role. -/
def generic (options : JobOptions) : Except Failure Job := do
  return { toJobFields := ← JobFields.create options, role := .generic }

end Job

end Dispatch
