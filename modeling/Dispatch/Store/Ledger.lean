import Dispatch.Json.Document
import Dispatch.Schema.Checking
import Dispatch.Sorting.Runs
import Dispatch.Value.Numeric

/-!
# Ledgers

A ledger is a table of records.  Under `entries` it has one dictionary for each
kind of entry, which lists the records of each domain.  Records are numbered from
one upwards within a domain and kind.

A ledger is kept as the value that was read, so that members nobody asks for are
written back as they were.  The records of a domain whose name has a line end in
it are not checked when a ledger is read, so they may be anything; looking them up
fails where they are of no use.
-/

namespace Dispatch

/-- The kinds of entries. -/
inductive StoreEntry
  | models
  | data
  | candidates
deriving DecidableEq

namespace StoreEntry

/-- The entry kind in a ledger. -/
def name : StoreEntry → String
  | .models => "models"
  | .data => "data"
  | .candidates => "candidates"

/-- All kinds of entries. -/
def all : List StoreEntry :=
  [.models, .data, .candidates]

end StoreEntry

/-- Which records of a domain are wanted. -/
inductive StoreVersion
  | latest
  | all
  | number (version : Number)
deriving DecidableEq

namespace Ledger

/-- What records hold. -/
def recordSchema : Schema :=
  .table [
    Schema.required "domain_name" .anyText,
    Schema.required "version" (.integer (some 1) none),
    Schema.required "file" .anyText,
    Schema.optional "uq_type" .anyText,
    Schema.optional "threshold" .number,
    Schema.required "created_at" .anyText] false

/-- What the records of a kind of entry hold, domain by domain. -/
def entrySchema : Schema :=
  .dictionary (.list recordSchema 0)

/-- What ledgers hold. -/
def schema : Schema :=
  .table [
    Schema.required "entries" (.table [
      Schema.required "models" entrySchema,
      Schema.required "data" entrySchema,
      Schema.required "candidates" entrySchema] false)] false

/-- The ledger without records. -/
def empty : Value :=
  .table [("entries", .table [("models", .table []), ("data", .table []),
    ("candidates", .table [])])]

/-- The dictionary of a kind of entry. -/
def entryTable (ledger : Value) (entry : StoreEntry) : Dict Value :=
  ((ledger.member "entries").member entry.name).members

/--
What a dictionary answers to a domain.  A name that every table answers to is
never a domain without records, even if nothing is stored under it.
-/
def stored (table : Dict Value) (domain : String) : Value :=
  match table.get? domain with
  | some value => value
  | none => if domain ∈ Dict.builtinNames then .atom .function else .missing

/-- The records to which one can be added. -/
def recordList : Value → Except Failure (List Value)
  | .missing | .null => .ok []
  | .list records => .ok records
  | _ => .error .badOperand

/-- The records to look at; a text is looked at part by part. -/
def recordsToSearch : Value → Except Failure (List Value)
  | .text content =>
    .ok ((Text.points (textUnits content)).map fun part => .text (Text.ofUnits part.units))
  | value => recordList value

/-- The version of a record as a number; there is none of null. -/
def version? : Value → Option Number
  | .missing | .null => none
  | record => (record.member "version").toNumber?

/-- The larger of a number and the version of a record. -/
def largerVersion (largest : Number) (record : Value) : Except Failure Number :=
  match version? record with
  | some version => .ok (largest.max version)
  | none => .error .badOperand

/-- One more than the largest version, or one. -/
def nextVersion (records : List Value) : Except Failure Number := do
  return (← records.foldlM largerVersion 0) + 1

/-- A record with its domain, its version and the time of its creation. -/
def completeRecord (record : Dict Value) (domain : String) (version : Number)
    (createdAt : String) : Dict Value :=
  ((record.insert "domain_name" (.text domain)).insert "version" (.number version)).insert
    "created_at" (.text createdAt)

/-- An object with a member bound anew. -/
def setMember (value : Value) (name : String) (member : Value) : Value :=
  match value with
  | .object kind members => .object kind (Dict.insert members name member)
  | value => value

/-- A ledger with the records of a domain bound anew. -/
def setRecords (ledger : Value) (entry : StoreEntry) (domain : String)
    (records : List Value) : Value :=
  let entries := ledger.member "entries"
  setMember ledger "entries"
    (setMember entries entry.name (setMember (entries.member entry.name) domain (.list records)))

/-- Whether a record does not have a larger version than another. -/
def versionLe (a b : Value) : Bool :=
  match version? a, version? b with
  | some a, some b => !b.less a
  | _, _ => true

/-- Whether a record has a smaller version than another. -/
def versionLess (a b : Value) : Bool :=
  match version? a, version? b with
  | some a, some b => a.less b
  | _, _ => false

/-- Whether the version of a record has a place among the others. -/
def isOrdered (record : Value) : Bool :=
  version? record != some .nan

/--
Records in ascending order of versions; those of one version keep their order.  A
version that is no number is neither smaller nor larger than any other, so that there
is no ascending order; then the outcome is that of sorting by runs.
-/
def sortByVersion (records : List Value) : Except Failure (List Value) :=
  if 2 ≤ records.length ∧ records.any (fun record => (version? record).isNone) = true then
    .error .badOperand
  else if records.all isOrdered then .ok (records.mergeSort versionLe)
  else .ok (Sorting.sortByRuns versionLess records)

/-- Whether a record has a version. -/
def hasVersion (version : Number) (record : Value) : Except Failure Bool :=
  match record with
  | .missing | .null => .error .badOperand
  | record =>
    match record.member "version" with
    | .number n => .ok (n.equal version)
    | _ => .ok false

/-- The records that are wanted among sorted ones. -/
def select (version : StoreVersion) (records : List Value) : Except Failure (List Value) :=
  match version with
  | .all => .ok records
  | .latest => .ok (records.getLast?.toList.filter Value.isTruthy)
  | .number n => records.filterM (hasVersion n)

/-- The wanted records of a domain. -/
def search (ledger : Value) (entry : StoreEntry) (domain : String) (version : StoreVersion) :
    Except Failure (List Value) := do
  let records ← recordsToSearch (stored (entryTable ledger entry) domain)
  select version (← sortByVersion records)

end Ledger

end Dispatch
