import Dispatch.Job.Basic
import Dispatch.Json.Document

/-!
# Jobs as tables

A job is kept outside the program as a table.  `Job.toTable` lists everything that
a job has, `Job.schemas` say what tables of jobs may hold, and `Job.ofTable` takes
a job back from an accepted table as it is: templates are not filled in again and
no flags are added.
-/

namespace Dispatch

namespace Schema

/-- A value that can stand on a command line. -/
def argument : Schema :=
  .union [anyText, .number, .boolean]

end Schema

namespace StageSource

/-- A source as a table. -/
def toTable : StageSource → Dict Value
  | .files src srcType pattern =>
    [("mechanism", .text "fs"), ("src", .text src), ("src_type", .ofText? srcType),
      ("pattern", .text pattern)]
  | .network creds updateModels =>
    [("mechanism", .text "network"), ("creds", .text creds),
      ("update_models", .bool updateModels)]

/-- What tables of sources may hold. -/
def schema : Schema :=
  .union [
    .table [
      Schema.required "mechanism" (.literal "fs"),
      Schema.required "src" .anyText,
      Schema.required "src_type" (.union [.anyText, .null]),
      Schema.required "pattern" .anyText] false,
    .table [
      Schema.required "mechanism" (.literal "network"),
      Schema.required "creds" .anyText,
      Schema.required "update_models" .boolean] false]

/-- The source in an accepted table. -/
def ofTable (table : Value) : StageSource :=
  if table.textMember "mechanism" = "fs" then
    .files (table.textMember "src") (table.textMember? "src_type") (table.textMember "pattern")
  else .network (table.textMember "creds") (table.boolMember "update_models")

end StageSource

namespace StageVariant

/-- The variant with a name. -/
def ofName (name : String) : StageVariant :=
  if name = "fs" then .fs else if name = "network" then .network else .fsPersistent

end StageVariant

namespace JobFields

/-- The fields as a table. -/
def toTable (fields : JobFields) : Dict Value :=
  [("name", .text fields.name),
    ("executable", .text fields.executable),
    ("environment", .table fields.environment),
    ("resources", match fields.resources with
      | some spec => .table spec.toTable
      | none => .null),
    ("stdout", .ofText? fields.stdout),
    ("stderr", .ofText? fields.stderr),
    ("cli_args", .list fields.arguments),
    ("cli_kwargs", .table fields.flags),
    ("is_mpi", .bool fields.isMpi),
    ("ams_log", .bool fields.amsLog)]

/-- What tables of jobs hold for the fields. -/
def tableMembers : List (String × Bool × Schema) :=
  [Schema.required "name" .anyText,
    Schema.required "executable" (.text 1),
    Schema.required "environment" (.dictionary .anyText),
    Schema.required "resources" (.union [ResourceSpec.schema, .null]),
    Schema.required "stdout" .textOrNull,
    Schema.required "stderr" .textOrNull,
    Schema.required "cli_args" (.list .argument 0),
    Schema.required "cli_kwargs" (.dictionary .argument),
    Schema.required "is_mpi" .boolean,
    Schema.required "ams_log" .boolean]

/-- The fields in an accepted table. -/
def ofTable (table : Value) : Except Failure JobFields := do
  let resources ← match table.member "resources" with
    | .null => pure none
    | resources => some <$> ResourceSpec.ofTable resources "resources"
  return {
    name := table.textMember "name"
    executable := table.textMember "executable"
    environment := table.tableMember "environment"
    resources := resources
    stdout := table.textMember? "stdout"
    stderr := table.textMember? "stderr"
    arguments := table.listMember "cli_args"
    flags := table.tableMember "cli_kwargs"
    isMpi := table.boolMember "is_mpi"
    amsLog := table.boolMember "ams_log" }

end JobFields

namespace StageDetails

/-- The details as a table. -/
def toTable (details : StageDetails) : Dict Value :=
  [("variant", .text details.variant.name),
    ("destination_path", .text details.destinationPath),
    ("persistent_store_path", .text details.persistentStorePath),
    ("store", .bool details.storeFlag),
    ("db_type", .text details.dbType),
    ("policy", .text details.policy),
    ("prune_module_path", .ofText? details.pruneModulePath),
    ("prune_class", .ofText? details.pruneClass),
    ("source", .table details.source.toTable)]

/-- What tables of staging jobs hold besides the fields. -/
def tableMembers : List (String × Bool × Schema) :=
  [Schema.required "variant"
      (.union [.literal "fs", .literal "network", .literal "fs-persistent"]),
    Schema.required "destination_path" .anyText,
    Schema.required "persistent_store_path" .anyText,
    Schema.required "store" .boolean,
    Schema.required "db_type" .anyText,
    Schema.required "policy" .anyText,
    Schema.required "prune_module_path" .textOrNull,
    Schema.required "prune_class" .textOrNull,
    Schema.required "source" StageSource.schema]

/-- The details in an accepted table. -/
def ofTable (table : Value) : StageDetails where
  variant := .ofName (table.textMember "variant")
  destinationPath := table.textMember "destination_path"
  persistentStorePath := table.textMember "persistent_store_path"
  storeFlag := table.boolMember "store"
  dbType := table.textMember "db_type"
  policy := table.textMember "policy"
  pruneModulePath := table.textMember? "prune_module_path"
  pruneClass := table.textMember? "prune_class"
  source := .ofTable (table.member "source")

end StageDetails

namespace Role

/-- A role as the members that it adds to a table. -/
def toTable (role : Role) : Dict Value :=
  ("kind", .text role.kind) ::
    match role with
    | .generic => []
    | .domain names stageDir objectsPath =>
      [("domain_names", .list (names.map .text)),
        ("stage_dir", .ofText? stageDir),
        ("ams_objects_path", .ofText? objectsPath)]
    | .learning _ subject => [("domain", .text subject)]
    | .stage details => details.toTable
    | .orchestrator schedulerUri brokerConfigPath =>
      [("scheduler_uri", .text schedulerUri),
        ("broker_config_path", .text brokerConfigPath)]

/-- The role in an accepted table. -/
def ofTable (table : Value) : Role :=
  let kind := table.textMember "kind"
  if kind = "job" then .generic
  else if kind = "domain" then
    .domain (table.textsMember "domain_names") (table.textMember? "stage_dir")
      (table.textMember? "ams_objects_path")
  else if kind = "train" then .learning .training (table.textMember "domain")
  else if kind = "sub-select" then .learning .subSelection (table.textMember "domain")
  else if kind = "stage" then .stage (.ofTable table)
  else .orchestrator (table.textMember "scheduler_uri") (table.textMember "broker_config_path")

end Role

namespace Job

/-- A table of the fields, a kind, and what that kind adds. -/
def roleSchema (kind : Schema) (members : List (String × Bool × Schema)) : Schema :=
  .table (JobFields.tableMembers ++ Schema.required "kind" kind :: members) false

/-- What tables of jobs without a special role hold. -/
def genericSchema : Schema :=
  roleSchema (.literal "job") []

/-- What tables of domain jobs hold. -/
def domainSchema : Schema :=
  roleSchema (.literal "domain") [
    Schema.required "domain_names" (.list (.text 1) 0),
    Schema.required "stage_dir" .textOrNull,
    Schema.required "ams_objects_path" .textOrNull]

/-- What tables of training and sub-selection jobs hold. -/
def learningSchema : Schema :=
  roleSchema (.union [.literal "train", .literal "sub-select"]) [
    Schema.required "domain" (.text 1)]

/-- What tables of staging jobs hold. -/
def stageSchema : Schema :=
  roleSchema (.literal "stage") StageDetails.tableMembers

/-- What tables of orchestrators hold. -/
def orchestratorSchema : Schema :=
  roleSchema (.literal "orchestrator") [
    Schema.required "scheduler_uri" .anyText,
    Schema.required "broker_config_path" .anyText]

/-- What the tables of all kinds of jobs hold. -/
def schemas : List Schema :=
  [genericSchema, domainSchema, learningSchema, stageSchema, orchestratorSchema]

/-- What tables of jobs hold. -/
def schema : Schema :=
  .union schemas

/-- A job as a table. -/
def toTable (job : Job) : Dict Value :=
  job.toJobFields.toTable ++ job.role.toTable

/-- The job in a table. -/
def ofTable (value : Value) : Except Failure Job := do
  let table ← schema.checkValue value "job description" .configuration
  return { toJobFields := ← JobFields.ofTable table, role := .ofTable table }

/-- A job in three parts: what kind it is, its command line, and its table. -/
def describe (job : Job) : Except Failure String := do
  let command ← job.command
  let table ← Json.writeTable .compact job.toTable
  return "\n".intercalate
    [job.role.label, "CLI: " ++ Command.line command, "Description: " ++ table]

end Job

end Dispatch
