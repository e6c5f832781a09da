import Dispatch.Broker
import Dispatch.Store.Interface

/-!
# What an application is told about its models

An application on some domains looks up its surrogate models in an objects file.
`ModelObjects` is the content of such a file: where samples go, and one entry for
each domain in turn.  The entries are named by their places; a domain that is named
twice has two entries and is bound to the later one.
-/

namespace Dispatch

/-- Where an application puts the samples that its models are not sure of. -/
inductive SampleTarget
  /-- Files in a directory. -/
  | files (directory : String)
  /-- A broker, with the settings for connecting to it. -/
  | broker (settings : Dict Value)

/-- A model for a domain. -/
structure ModelEntry where
  /-- How the uncertainty of the model is found. -/
  uqType : Value
  modelPath : Value
  /-- The uncertainty above which the model is not used. -/
  threshold : Value
  domain : String

/-- What an application is told about its models. -/
structure ModelObjects where
  target : SampleTarget
  entries : List ModelEntry

namespace SampleTarget

/-- A target as a table. -/
def toTable : SampleTarget → Dict Value
  | .files directory => [("fs_path", .text directory), ("dbType", .text "hdf5")]
  | .broker settings =>
    [("rmq_config", .table settings), ("dbType", .text "rmq"), ("update_surrogate", .bool false)]

/-- The target of a job: the broker if there is one, and otherwise its own or the store's files. -/
def choose {σ : Type} (store : DataStore σ) (broker : Option Broker) (stageDir : Option String) :
    Action σ SampleTarget :=
  match broker, stageDir with
  | some broker, _ => return .broker (← Action.ofExcept broker.shown)
  | none, some directory => return .files directory
  | none, none => return .files (← store.candidatePath)

end SampleTarget

namespace ModelEntry

/--
The entry of a domain without a model: a random uncertainty never exceeds one, so
that every sample counts as uncertain and is gathered.
-/
def dataGathering (subject : String) : ModelEntry where
  uqType := .text "random"
  modelPath := .text ""
  threshold := .number 1
  domain := subject

/-- The entry of a domain with the record of a model. -/
def ofRecord (subject : String) (record : Value) : Except Failure ModelEntry :=
  match record.member "uq_type", record.member "threshold" with
  | .missing, _ | _, .missing =>
    match (record.member "file").text? with
    | some file => .error (.incompleteModel file subject)
    | none => .error .badOperand
  | uqType, threshold => .ok {
      uqType := uqType
      modelPath := record.member "file"
      threshold := threshold
      domain := subject }

/-- The entry of a domain with the records that were found for it, of which the first counts. -/
def ofRecords (subject : String) (records : List Value) : Except Failure ModelEntry :=
  match records with
  | record :: _ => if record.isTruthy then ofRecord subject record else .ok (dataGathering subject)
  | [] => .ok (dataGathering subject)

/-- An entry as a table. -/
def toTable (entry : ModelEntry) : Dict Value :=
  [("uq_type", entry.uqType), ("model_path", entry.modelPath), ("uq_aggregate", .text "mean"),
    ("threshold", entry.threshold), ("db_label", .text entry.domain)]

end ModelEntry

namespace ModelObjects

/-- The name of the entry at a place. -/
def entryName (place : Nat) : String :=
  "model_" ++ toString place

/-- The names of the entries, bound by the domains that they are for. -/
def domainNames (entries : List ModelEntry) : Dict Value :=
  Dict.assignAll [] (entries.mapIdx fun place entry => (entry.domain, .text (entryName place)))

/-- The objects as a table. -/
def toTable (objects : ModelObjects) : Dict Value :=
  [("db", .table objects.target.toTable),
    ("ml_models", .table (objects.entries.mapIdx fun place entry =>
      (entryName place, .table entry.toTable))),
    ("domain_models", .table (domainNames objects.entries))]

/-- The objects for domains, from the newest model that a store has for each. -/
def build {σ : Type} (store : DataStore σ) (broker : Option Broker) (domains : List String)
    (stageDir : Option String) : Action σ ModelObjects := do
  let target ← SampleTarget.choose store broker stageDir
  let entries ← domains.mapM fun subject => do
    let records ← store.search subject .models .latest
    Action.ofExcept (ModelEntry.ofRecords subject records)
  return ⟨target, entries⟩

end ModelObjects

end Dispatch
