import Dispatch.Store.Interface

/-!
# Stores in a directory

A ledger store keeps its records in one file, the ledger, in its root directory.
Loading reads the ledger; a ledger that is not there is the empty one.  Saving
writes the whole ledger anew.

An addition has two halves with a file in between: `prepareAdd` loads the ledger and
decides what is added, and `save` writes the outcome.  `add` is one after the other.
-/

namespace Dispatch

/-- A store that keeps a ledger in a directory, given by its components. -/
structure LedgerStore where
  root : List String
deriving DecidableEq

namespace Ledger

/-- The ledger in the text of a file. -/
def ofText (path text : String) : Except Failure Value :=
  match Json.read? text with
  | none => .error (.ledgerNotJson path)
  | some value => schema.checkValue value ("store ledger " ++ path) .store

/-- The text of the file for a ledger; one without a document form is spelled as missing. -/
def fileText (ledger : Value) : Except Failure String := do
  return (← Json.write .indented ledger).getD Value.missing.typeName ++ "\n"

end Ledger

attribute [local instance] corePow

/-- Random bits as sixteen hexadecimal digits. -/
def hexDigits (bits : BitVec 64) : String :=
  String.ofList ((List.range 16).reverse.map fun place =>
    Nat.digitChar (bits.toNat / 16 ^ place % 16))

/-- A file name of a time and sixteen hexadecimal digits. -/
def stampedName (reading : Option Instant) (bits : BitVec 64) : String :=
  timestamp reading ++ "-" ++ hexDigits bits

namespace LedgerStore

variable {σ : Type}

/-- The store with a root that is meant in a working directory. -/
def openAt (workingDirectory : List String) (root : String) : LedgerStore :=
  ⟨Path.resolveFrom workingDirectory root⟩

/-- The path of the root. -/
def rootPath (store : LedgerStore) : String :=
  Path.ofComponents store.root

/-- Where the ledger is. -/
def ledgerFile (store : LedgerStore) : List String :=
  store.root ++ ["ams_store.json"]

/-- The path of the ledger. -/
def ledgerPath (store : LedgerStore) : String :=
  Path.ofComponents store.ledgerFile

/-- The path of the directory where fresh samples are gathered. -/
def candidatePath (store : LedgerStore) : String :=
  Path.ofComponents (store.root ++ ["candidates"])

/-- The ledger as its file has it. -/
def load (store : LedgerStore) : Action σ Value := do
  match ← Action.tryRead store.ledgerFile with
  | .ok bytes => Action.ofExcept (Ledger.ofText store.ledgerPath (Utf8.decode bytes))
  | .error .notFound => return Ledger.empty
  | .error _ => throw (.unreadableLedger store.ledgerPath)

/-- Writes a ledger to the file, after creating the root if it is missing. -/
def save (store : LedgerStore) (ledger : Value) : Action σ Unit := do
  Action.makeDirectory store.root
  let text ← Action.ofExcept (Ledger.fileText ledger)
  Action.writeText store.ledgerFile text

/-- The wanted records of a domain. -/
def search (store : LedgerStore) (subject : String) (entry : StoreEntry)
    (version : StoreVersion) : Action σ (List Value) := do
  let ledger ← store.load
  Action.ofExcept (Ledger.search ledger entry subject version)

/-- Creates a directory that is meant in the root and does not lead out of it. -/
def makeDirectory (store : LedgerStore) (directory : String) : Action σ String := do
  let target := Path.resolveFrom store.root directory
  if Path.staysBelow (Path.relative store.root target) then
    Action.makeDirectory target
    return Path.ofComponents target
  else throw (.directoryOutside store.rootPath directory)

/--
The ledger with a record added, and the record as it is stored.  The clock is read
only once the record has its version.
-/
def prepareAdd (store : LedgerStore) (entry : StoreEntry) (subject : String)
    (record : Dict Value) : Action Devices (Value × Dict Value) := do
  let ledger ← store.load
  let records ← Action.ofExcept
    (Ledger.recordList (Ledger.stored (Ledger.entryTable ledger entry) subject))
  let version ← Action.ofExcept (Ledger.nextVersion records)
  match ← Action.onStore Devices.now with
  | none => throw .badInstant
  | some instant =>
    let record := Ledger.completeRecord record subject version instant.isoText
    return (Ledger.setRecords ledger entry subject (records ++ [.table record]), record)

/-- Adds a record for a domain and answers it as it is stored. -/
def add (store : LedgerStore) (entry : StoreEntry) (subject : String) (record : Dict Value) :
    Action Devices (Dict Value) := do
  let (ledger, record) ← store.prepareAdd entry subject record
  store.save ledger
  return record

/-- A file name of the present time and random digits. -/
def uniqueFilename : Action Devices String := do
  let reading ← Action.onStore Devices.now
  let bits ← Action.onStore Devices.draw
  return stampedName reading bits

/-- What jobs need of the store. -/
def toDataStore (store : LedgerStore) : DataStore Devices where
  rootPath := store.rootPath
  candidatePath := pure store.candidatePath
  search := store.search
  makeDirectory := store.makeDirectory
  uniqueFilename := uniqueFilename

end LedgerStore

end Dispatch
