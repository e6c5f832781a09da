import Dispatch.Deployment.Objects
import Dispatch.Job.Submission

/-!
# Deploying jobs

Before a domain job is submitted, the objects of its application are written to a
new file below the root of the store, and the job's environment is pointed at that
file.  Other jobs are told everything on their command lines and need no deployment.

Deployment changes a job, so its operations act on a world and a job together.  The
job changes last: what fails before leaves it as it was.
-/

namespace Dispatch

/-- An operation on a world and on a job. -/
abbrev JobAction (σ α : Type) := ExceptT Failure (StateM (World σ × Job)) α

namespace JobAction

variable {σ α : Type}

/-- An operation that leaves the job alone. -/
def ofAction (action : Action σ α) : JobAction σ α :=
  fun (world, job) =>
    let (result, world) := action world
    (result, world, job)

/-- The job as it is. -/
def job : JobAction σ Job :=
  fun state => (.ok state.2, state)

/-- A change of the job. -/
def changeJob (change : Job → Job) : JobAction σ Unit :=
  fun (world, job) => (.ok (), world, change job)

end JobAction

namespace Job

/-- A domain job whose objects are in a file. -/
def withObjects (job : Job) (path : String) : Job :=
  let environment := job.environment.insert "AMS_OBJECTS" (.text path)
  { job with
    environment :=
      if job.amsLog then environment.insert "AMS_LOG_LEVEL" (.text "debug") else environment
    role := match job.role with
      | .domain names stageDir _ => .domain names stageDir (some path)
      | role => role }

/-- Writes the objects for domains to a new file and points the job at it. -/
def deployDomains {σ : Type} (names : List String) (stageDir : Option String)
    (store : DataStore σ) (broker : Option Broker) (config : Config) : JobAction σ String := do
  let objects ← JobAction.ofAction (ModelObjects.build store broker names stageDir)
  let directory ← JobAction.ofAction (store.makeDirectory config.artifactDir)
  let name ← JobAction.ofAction store.uniqueFilename
  let path := Path.join directory (name ++ ".json")
  let text ← JobAction.ofAction (Action.ofExcept (Json.writeTable .compact objects.toTable))
  JobAction.ofAction (Action.writeNewText path text)
  JobAction.changeJob (·.withObjects path)
  return path

/-- Deploys the job if it is a domain job, and answers the path of its objects file. -/
def deploy {σ : Type} (store : DataStore σ) (broker : Option Broker) (config : Config) :
    JobAction σ (Option String) := do
  match (← JobAction.job).role with
  | .domain names stageDir _ => some <$> deployDomains names stageDir store broker config
  | _ => return none

/--
Deploys the job and answers its submission.  A job without resources is refused
before anything is written.
-/
def prepare {σ : Type} (store : DataStore σ) (broker : Option Broker) (config : Config)
    (cwd : String) : JobAction σ Submission := do
  let job ← JobAction.job
  if job.resources.isNone then throw (.noResources job.name)
  discard <| deploy store broker config
  let job ← JobAction.job
  JobAction.ofAction (Action.ofExcept (job.submission config cwd))

end Job

/-- A job with the settings that it uses where no others are given. -/
structure BoundJob where
  job : Job
  config : Config := {}

namespace BoundJob

/-- The settings that apply. -/
def settings (bound : BoundJob) (config : Option Config) : Config :=
  config.getD bound.config

/-- The command that the job runs. -/
def command (bound : BoundJob) : Except Failure Command :=
  bound.job.command

/-- The submission of the job. -/
def submission (bound : BoundJob) (config : Option Config) (cwd : String) :
    Except Failure Submission :=
  bound.job.submission (bound.settings config) cwd

end BoundJob

end Dispatch
