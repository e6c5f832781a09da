import Dispatch.Schema.Checking
import Dispatch.Value.Members
import Dispatch.Value.Text

/-!
# Resources

A job asks the scheduler for nodes, tasks on each node, cores and accelerators for
each task, and whether it shares its nodes.  A request may hold anything where a
count belongs; a `ResourceSpec` comes out of `ResourceRequest.create` with all
counts checked.
-/

namespace Dispatch

/-- Resources as they are asked for.  Absent counts take their defaults. -/
structure ResourceRequest where
  nodes : Value
  tasksPerNode : Value
  coresPerTask : Value := .missing
  exclusive : Option Bool := none
  gpusPerTask : Value := .missing

/-- Resources that were checked. -/
structure ResourceSpec where
  nodes : Number
  tasksPerNode : Number
  coresPerTask : Number
  exclusive : Bool
  gpusPerTask : Number
deriving DecidableEq

/-- A whole number that is large enough. -/
def readCount (value : Value) (field : String) (least : Nat) : Except Failure Number :=
  match value with
  | .number count =>
    if count.isInteger && !count.less (.ofInt least) then .ok count
    else .error (.badCount field least count.text)
  | value =>
    match value.text? with
    | some given => .error (.badCount field least given)
    | none => .error .badOperand

namespace ResourceRequest

/-- The checked resources of a request. -/
def create (request : ResourceRequest) : Except Failure ResourceSpec := do
  let nodes ← readCount request.nodes "nodes" 1
  let tasksPerNode ← readCount request.tasksPerNode "tasksPerNode" 1
  let coresPerTask ←
    readCount (request.coresPerTask.present?.getD (.number 1)) "coresPerTask" 1
  let gpusPerTask ←
    readCount (request.gpusPerTask.present?.getD (.number 0)) "gpusPerTask" 0
  return {
    nodes := nodes
    tasksPerNode := tasksPerNode
    coresPerTask := coresPerTask
    exclusive := request.exclusive.getD true
    gpusPerTask := gpusPerTask }

/-- The request in a table that a schema has accepted. -/
def ofTable (table : Value) : ResourceRequest where
  nodes := table.member "nodes"
  tasksPerNode := table.member "tasks_per_node"
  coresPerTask := table.member "cores_per_task"
  exclusive := table.boolMember? "exclusive"
  gpusPerTask := table.member "gpus_per_task"

end ResourceRequest

namespace ResourceSpec

/-- What tables of resources may hold. -/
def schema : Schema :=
  .table [
    Schema.required "nodes" (.integer (some 1) none),
    Schema.required "tasks_per_node" (.integer (some 1) none),
    Schema.optional "cores_per_task" (.integer (some 1) none),
    Schema.optional "exclusive" .boolean,
    Schema.optional "gpus_per_task" (.integer (some 0) none)] true

/-- The tasks on all nodes together. -/
def totalTasks (spec : ResourceSpec) : Number :=
  spec.nodes * spec.tasksPerNode

/-- The resources as a table. -/
def toTable (spec : ResourceSpec) : Dict Value :=
  [("nodes", .number spec.nodes),
    ("tasks_per_node", .number spec.tasksPerNode),
    ("cores_per_task", .number spec.coresPerTask),
    ("exclusive", .bool spec.exclusive),
    ("gpus_per_task", .number spec.gpusPerTask)]

/-- The resources in a table. -/
def ofTable (value : Value) (label : String) : Except Failure ResourceSpec := do
  let table ← schema.checkValue value label .configuration
  (ResourceRequest.ofTable table).create

/--
The resources of a job that stages data next to a domain job: one shared task of
five cores on each of its nodes.
-/
def forStaging (domainJob : String) (resources : Option ResourceRequest) :
    Except Failure ResourceSpec :=
  match resources with
  | none => .error (.noStagingResources domainJob)
  | some resources =>
    { nodes := resources.nodes
      tasksPerNode := .number 1
      coresPerTask := .number 5
      exclusive := some false
      gpusPerTask := resources.gpusPerTask : ResourceRequest }.create

end ResourceSpec

end Dispatch
