import Dispatch.Job.Basic

/-!
# Orchestrators

An orchestrator is a job on one core that submits the other jobs of a workflow to a
scheduler.
-/

namespace Dispatch.Job

/-- A job that submits to a scheduler and listens to a broker. -/
def orchestrator (schedulerUri brokerConfigPath : String)
    (baseEnvironment : Option (Dict Value)) : Except Failure Job := do
  let fields ← JobFields.create {
    name := "AMSOrchestrator"
    executable := "AMSOrchestrator"
    stdout := some "AMSOrchestrator-log.out"
    stderr := some "AMSOrchestrator-log.err"
    baseEnvironment := baseEnvironment
    flags := [("--ml-uri", .text schedulerUri), ("--ams-rmq-config", .text brokerConfigPath)]
    resources := some {
      nodes := .number 1
      tasksPerNode := .number 1
      coresPerTask := .number 1
      exclusive := some false
      gpusPerTask := .number 0 } }
  return { toJobFields := fields, role := .orchestrator schedulerUri brokerConfigPath }

end Dispatch.Job
