import Dispatch.Job.Table

/-!
# Staging jobs

A staging job moves samples from where an application leaves them into the store.
Its command line is put together here: flags that the caller gives come first, and
flags that the job sets itself override them in place.

A module that prunes the samples on the way must exist when the job is made.
-/

namespace Dispatch

namespace Schema

/-- What descriptions of staging jobs that listen to a broker hold. -/
def networkStageDescription : Schema :=
  .table [
    optional "store" .boolean,
    optional "db_type" anyText,
    optional "update_models" .boolean,
    optional "environ" (.union [.dictionary anyText, .null]),
    optional "prune_module_path" anyText,
    optional "prune_class" anyText,
    optional "stdout" anyText,
    optional "stderr" anyText,
    optional "cli_args" (.list argument 0),
    optional "cli_kwargs" (.dictionary argument)] true

end Schema

/-- The executable that stages. -/
def stageExecutable : String :=
  "AMSDBStage"

/-- What staging jobs are made from. -/
structure StageOptions where
  environment : Value := .missing
  baseEnvironment : Option (Dict Value) := none
  resources : Option ResourceRequest
  stdout : Option String := none
  stderr : Option String := none
  arguments : List Value := []
  flags : Dict Value := []
  amsLog : Bool := false
  destinationPath : String
  persistentStorePath : String
  storeFlag : Bool := true
  dbType : String := "dhdf5"
  policy : String := "process"
  pruneModulePath : Option String := none
  pruneClass : Option String := none

/-- A class of a module that prunes samples. -/
structure Pruning where
  modulePath : String
  className : String
deriving DecidableEq

namespace Pruning

/-- The pruning that is asked for, if any; `reaches` says which paths exist. -/
def find? (reaches : String → Bool) (modulePath className : Option String) :
    Except Failure (Option Pruning) :=
  match modulePath with
  | none => .ok none
  | some modulePath =>
    if reaches modulePath then
      let className := trim (className.getD "")
      if className = "" then .error (.noPruningClass modulePath)
      else .ok (some ⟨modulePath, className⟩)
    else .error (.noPruningModule modulePath)

/-- The flags that ask for a pruning. -/
def flags (pruning : Pruning) : Dict Value :=
  [("--load", .text pruning.modulePath), ("--class", .text pruning.className)]

end Pruning

namespace StageSource

/-- The flags that name a source. -/
def flags : StageSource → Dict Value
  | .files src srcType pattern =>
    [("--src", .text src)] ++
      (srcType.toList.map fun srcType => ("--src-type", .text srcType)) ++
      [("--pattern", .text pattern), ("--mechanism", .text "fs")]
  | .network creds _ =>
    [("--creds", .text creds), ("--mechanism", .text "network")]

/-- The positional arguments for a source. -/
def arguments : StageSource → List Value
  | .network _ true => [.text "--update-rmq-models"]
  | _ => []

end StageSource

namespace StageOptions

/-- The flags that a staging job sets itself. -/
def ownFlags (options : StageOptions) (source : StageSource) (pruning : Option Pruning) :
    Dict Value :=
  source.flags ++
    [("--dest", .text options.destinationPath),
      ("--persistent-db-path", .text options.persistentStorePath),
      ("--db-type", .text options.dbType),
      ("--policy", .text options.policy)] ++
    ((pruning.map Pruning.flags).getD [])

/-- The positional argument that says whether staged data is entered into the store. -/
def storeArgument (storeFlag : Bool) : Value :=
  .text (if storeFlag then "--store" else "--no-store")

end StageOptions

namespace Job

/-- A staging job of a variant. -/
def stage (reaches : String → Bool) (variant : StageVariant) (name : String)
    (source : StageSource) (options : StageOptions) : Except Failure Job := do
  let pruning ← Pruning.find? reaches options.pruneModulePath options.pruneClass
  let fields ← JobFields.create {
    name := name
    executable := stageExecutable
    environment := options.environment
    baseEnvironment := options.baseEnvironment
    resources := options.resources
    stdout := options.stdout
    stderr := options.stderr
    arguments :=
      options.arguments ++ source.arguments ++ [StageOptions.storeArgument options.storeFlag]
    flags := Dict.merge options.flags (options.ownFlags source pruning)
    amsLog := options.amsLog }
  return {
    toJobFields := fields
    role := .stage {
      variant := variant
      destinationPath := options.destinationPath
      persistentStorePath := options.persistentStorePath
      storeFlag := options.storeFlag
      dbType := options.dbType
      policy := options.policy
      pruneModulePath := pruning.map Pruning.modulePath
      pruneClass := pruning.map Pruning.className
      source := source } }

/-- Which files are staged when nothing else is said. -/
def defaultPattern : String :=
  "*.h5"

/-- The type of the staged files when nothing else is said. -/
def defaultSrcType : String :=
  "shdf5"

/-- Stages samples that an application wrote to files. -/
def fsStage (reaches : String → Bool) (src : String) (srcType pattern : Option String)
    (options : StageOptions) : Except Failure Job :=
  stage reaches .fs "AMSStageJob"
    (.files src (some (srcType.getD defaultSrcType)) (pattern.getD defaultPattern)) options

/-- Stages samples that an application publishes through a broker. -/
def networkStage (reaches : String → Bool) (creds : String) (updateModels : Bool)
    (options : StageOptions) : Except Failure Job :=
  stage reaches .network "AMSStageJob" (.network creds updateModels) options

/--
Moves staged files into the persistent store.  It always stores, with the default
pattern, database and policy, and leaves the type of the files to the stager.
-/
def fsPersistentStage (reaches : String → Bool) (src : String) (options : StageOptions) :
    Except Failure Job :=
  let defaults : StageOptions :=
    { resources := none, destinationPath := "", persistentStorePath := "" }
  stage reaches .fsPersistent "AMSStage" (.files src none defaultPattern)
    { options with
      storeFlag := defaults.storeFlag, dbType := defaults.dbType, policy := defaults.policy }

/-- The staging job in a description, for a destination, a store and a broker. -/
def networkStageOfDescription (reaches : String → Bool) (description : Value)
    (destinationPath persistentStorePath creds : String) (resources : Option ResourceRequest) :
    Except Failure Job := do
  let description ← Schema.networkStageDescription.checkValue description
    "stage job description" .configuration
  let options : StageOptions :=
    { environment := description.member "environ"
      resources := resources
      stdout := description.textMember? "stdout"
      stderr := description.textMember? "stderr"
      arguments := description.listMember "cli_args"
      flags := description.tableMember "cli_kwargs"
      destinationPath := destinationPath
      persistentStorePath := persistentStorePath
      storeFlag := (description.boolMember? "store").getD true
      pruneModulePath := description.textMember? "prune_module_path"
      pruneClass := description.textMember? "prune_class" }
  networkStage reaches creds (description.boolMember "update_models")
    { options with dbType := (description.textMember? "db_type").getD options.dbType }

end Job

end Dispatch
