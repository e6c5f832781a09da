import Dispatch.FileTree
import Dispatch.Schema.Basic

/-!
# Failures

Every operation that can fail answers a `Failure`, which states its cause.  The
words for a cause are in `Failure.message?`, and `Failure.realm` sorts the causes
by the part of the system that they concern.
-/

namespace Dispatch

/-- The part of the system that a failure concerns. -/
inductive Realm
  /-- A description or setting that cannot be used. -/
  | configuration
  /-- A job that cannot be submitted for want of resources. -/
  | resource
  /-- The store of models and data. -/
  | store
  /-- A value of a kind that an operation has no meaning for. -/
  | operand
  /-- A number outside the range of an operation. -/
  | range
  | file (error : FileError)
deriving DecidableEq

/-- Why an operation failed. -/
inductive Failure
  /-- A value was refused by a schema, on behalf of a part of the system. -/
  | refused (realm : Realm) (label : String) (violation : Violation)
  | notObject (label : String)
  | notText (field : String)
  | outsideRoot (field directory : String)
  | badCount (field : String) (least : Nat) (given : String)
  | badEnvironment (kind field : String)
  | badVariable (field key kind : String)
  | noExecutable (job : String)
  | noDomain (job : String)
  | unbalancedBrace (brace template : String)
  | unknownKey (key template : String) (known : List String)
  | noPruningModule (path : String)
  | noPruningClass (path : String)
  | brokerNotJson (path : String)
  | noResources (job : String)
  | noStagingResources (job : String)
  | unreadableLedger (path : String)
  | ledgerNotJson (path : String)
  | directoryOutside (root directory : String)
  | incompleteModel (model domain : String)
  /-- A failure that a store reports in its own words. -/
  | storeReported (message : String)
  /-- A failure that a broker reports in its own words. -/
  | brokerReported (message : String)
  /-- A number that is not finite was given for a command line. -/
  | notFinite (number : String)
  /-- A value of a kind that has no place on a command line. -/
  | unsupportedArgument (kind : String)
  /-- An operation met a value that it has no meaning for. -/
  | badOperand
  /-- A clock reading was needed as a date and is none. -/
  | badInstant
  | file (error : FileError)
deriving DecidableEq

namespace Failure

/-- The part of the system that the failure concerns. -/
def realm : Failure → Realm
  | .refused realm _ _ => realm
  | .notObject _ | .notText _ | .outsideRoot _ _ | .badCount _ _ _ | .badEnvironment _ _
  | .badVariable _ _ _ | .noExecutable _ | .noDomain _ | .unbalancedBrace _ _
  | .unknownKey _ _ _ | .noPruningModule _ | .noPruningClass _ | .brokerNotJson _
  | .brokerReported _ => .configuration
  | .noResources _ | .noStagingResources _ => .resource
  | .unreadableLedger _ | .ledgerNotJson _ | .directoryOutside _ _ | .incompleteModel _ _
  | .storeReported _ => .store
  | .notFinite _ | .unsupportedArgument _ | .badOperand => .operand
  | .badInstant => .range
  | .file error => .file error

/-- The failure in words, if there are any of its own. -/
def message? : Failure → Option String
  | .refused _ label violation =>
    let detail := violation.message
    some s!"{label} is invalid ({detail})"
  | .notObject label => some s!"{label} must be an object"
  | .notText field => some s!"{field} must be a string"
  | .outsideRoot field directory =>
    some s!"{field} must stay inside the store root ({directory})"
  | .badCount field least given =>
    some s!"{field} must be an integer >= {least} (got {given})"
  | .badEnvironment kind field => some s!"Unknown type {kind} for {field}"
  | .badVariable field key kind => some s!"{field}.{key} must be a string (got {kind})"
  | .noExecutable job => some s!"Job \"{job}\" requires an executable"
  | .noDomain job => some s!"ML job \"{job}\" requires a domain"
  | .unbalancedBrace brace template =>
    some s!"Unbalanced \"{brace}\" in template \"{template}\""
  | .unknownKey key template known =>
    let names := ", ".intercalate known
    some s!"Unknown template key \"{key}\" in \"{template}\" (known: {names})"
  | .noPruningModule path => some s!"Pruning module {path} does not exist"
  | .noPruningClass path => some s!"Pruning module {path} requires a pruning class"
  | .brokerNotJson path => some s!"rabbitmq config {path} is not valid JSON"
  | .noResources job => some s!"Job \"{job}\" has no resources and cannot be submitted"
  | .noStagingResources job =>
    some s!"Domain job \"{job}\" has no resources to derive staging from"
  | .unreadableLedger path => some s!"Unable to read store ledger {path}"
  | .ledgerNotJson path => some s!"Store ledger {path} is not valid JSON"
  | .directoryOutside root directory =>
    some s!"Store directory must stay inside {root}: {directory}"
  | .incompleteModel model domain =>
    some s!"Model {model} for domain \"{domain}\" is missing uq_type or threshold"
  | .storeReported message | .brokerReported message => some message
  | .notFinite number => some s!"Cannot pass non-finite number {number} on a command line"
  | .unsupportedArgument kind => some s!"Unsupported command-line value of type {kind}"
  | .badOperand | .badInstant | .file _ => none

end Failure

end Dispatch
