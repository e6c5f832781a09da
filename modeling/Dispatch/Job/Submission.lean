import Dispatch.Config
import Dispatch.Job.Basic

/-!
# Submissions

A submission is what the scheduler is given: a command, the resources it gets, and
where it runs.  Jobs become submissions with the settings that apply to all jobs;
two further submissions carve a partition out of an allocation and probe whether
submitting works at all.
-/

namespace Dispatch

/-- What the scheduler is given. -/
structure Submission where
  command : Command
  totalTasks : Number
  nodes : Number
  coresPerTask : Number
  gpusPerTask : Number
  exclusive : Bool
  stdout : Option String := none
  stderr : Option String := none
  environment : Environment
  cwd : String
  mpi : Option String := none
  gpuAffinity : Option String := none
  /-- Whether a scheduler of its own runs inside. -/
  nested : Bool := false

namespace JobFields

/-- The submission of a job that runs in a directory. -/
def submission (fields : JobFields) (config : Config) (cwd : String) :
    Except Failure Submission := do
  match fields.resources with
  | none => throw (.noResources fields.name)
  | some resources =>
    let command ← fields.command
    return {
      command := command
      totalTasks := resources.totalTasks
      nodes := resources.nodes
      coresPerTask := resources.coresPerTask
      gpusPerTask := resources.gpusPerTask
      exclusive := resources.exclusive
      stdout := some (fields.stdout.getD config.defaultStdout)
      stderr := some (fields.stderr.getD config.defaultStderr)
      environment := fields.environment
      cwd := cwd
      mpi := if fields.isMpi then some config.mpiFlavor else none
      gpuAffinity := some config.gpuAffinity }

end JobFields

/-- A partition that is wanted for a scheduler of its own. -/
structure Partition where
  numNodes : Value
  coresPerNode : Value
  gpusPerNode : Value
  /-- How long the partition is held, in the words of `sleep`. -/
  time : String := "inf"
  stdout : Option String := none
  stderr : Option String := none
  environment : Environment := []

namespace Submission

/--
A nested scheduler that sleeps on one slot for each node.  It shares nothing, so
that no other jobs are placed on the partition.
-/
def ofPartition (partition : Partition) (cwd : String) : Except Failure Submission := do
  let numNodes ← readCount partition.numNodes "numNodes" 1
  let coresPerNode ← readCount partition.coresPerNode "coresPerNode" 1
  let gpusPerNode ← readCount partition.gpusPerNode "gpusPerNode" 0
  return {
    command := ["sleep", partition.time]
    totalTasks := numNodes
    nodes := numNodes
    coresPerTask := coresPerNode
    gpusPerTask := gpusPerNode
    exclusive := true
    environment := partition.environment
    cwd := cwd
    stdout := partition.stdout
    stderr := partition.stderr
    nested := true }

/-- A job of one task that only says something. -/
def probe (message cwd : String) : Submission where
  command := ["echo", message]
  totalTasks := 1
  nodes := 1
  coresPerTask := 1
  gpusPerTask := 0
  exclusive := true
  environment := []
  cwd := cwd

end Submission

end Dispatch
