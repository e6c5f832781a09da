import Dispatch.Job.Table

/-!
# Domain jobs

A domain job runs an application that uses surrogate models on some domains.  Its
domain names are kept without repeats, in the order in which they first occur.
-/

namespace Dispatch

namespace Schema

/-- What descriptions say about a command line. -/
def commandLine : Schema :=
  .table [
    required "executable" (.text 1),
    optional "cli_args" (.list argument 0),
    optional "cli_kwargs" (.dictionary argument),
    optional "stdout" anyText,
    optional "stderr" anyText,
    optional "is_mpi" .boolean] false

/-- What descriptions of domain jobs hold. -/
def domainDescription : Schema :=
  .table [
    required "name" (.text 1),
    required "domain_names" (.list (.text 1) 1),
    required "resources" ResourceSpec.schema,
    optional "ams_log" .boolean,
    required "cli" commandLine] false

end Schema

namespace JobOptions

/-- The options in an accepted description of a job with a command line. -/
def ofDescription (description : Value) : JobOptions :=
  let cli := description.member "cli"
  { name := description.textMember "name"
    executable := cli.textMember "executable"
    resources := some (.ofTable (description.member "resources"))
    stdout := cli.textMember? "stdout"
    stderr := cli.textMember? "stderr"
    arguments := cli.listMember "cli_args"
    flags := cli.tableMember "cli_kwargs"
    isMpi := cli.boolMember "is_mpi"
    amsLog := description.boolMember "ams_log" }

end JobOptions

namespace Job

/-- A domain job. -/
def domain (options : JobOptions) (names : List String) (stageDir : Option String) :
    Except Failure Job := do
  return {
    toJobFields := ← JobFields.create options
    role := .domain names.eraseDups stageDir none }

/-- The domain job in a description. -/
def domainOfDescription (description : Value) (stageDir : Option String)
    (baseEnvironment : Option (Dict Value)) : Except Failure Job := do
  let description ←
    Schema.domainDescription.checkValue description "domain job description" .configuration
  domain { JobOptions.ofDescription description with baseEnvironment := baseEnvironment }
    (description.textsMember "domain_names") stageDir

end Job

end Dispatch
