import Dispatch.Calendar
import Dispatch.Failure
import Dispatch.Text.Utf8

/-!
# What operations act on

Operations on stores act on a `World`: a file tree, the directory that relative
paths are taken in, and the state that a store keeps for itself.  An operation
that fails leaves behind what it had changed until then.
-/

namespace Dispatch

/-- Files, and the state of a store. -/
structure World (σ : Type) where
  tree : FileTree
  workingDirectory : List String
  store : σ

/-- An operation on a world. -/
abbrev Action (σ α : Type) := ExceptT Failure (StateM (World σ)) α

namespace Action

variable {σ α : Type}

/-- What a computation without effects gives. -/
def ofExcept (result : Except Failure α) : Action σ α :=
  fun world => (result, world)

/-- A look at the file tree, whose failure is one of files. -/
def ofTree (look : FileTree → Except FileError α) : Action σ α :=
  fun world => ((look world.tree).mapError .file, world)

/-- A change of the file tree. -/
def onTree (change : FileTree → Except FileError FileTree) : Action σ Unit :=
  fun world => match change world.tree with
    | .ok tree => (.ok (), { world with tree := tree })
    | .error error => (.error (.file error), world)

/-- A step of the store's own state. -/
def onStore (step : σ → α × σ) : Action σ α :=
  fun world =>
    let (result, store) := step world.store
    (.ok result, { world with store := store })

/-- A file's bytes, or why they cannot be read. -/
def tryRead (path : List String) : Action σ (Except FileError (List UInt8)) :=
  fun world => (.ok (world.tree.read path), world)

/-- Creates a directory with all that is missing on the way to it. -/
def makeDirectory (path : List String) : Action σ Unit :=
  onTree (·.makeDirectory path)

/-- Writes a text to a file, in place of what is there. -/
def writeText (path : List String) (text : String) : Action σ Unit :=
  onTree (·.write path (Utf8.encode text))

/-- Writes a text to a file that is not there yet. -/
def writeNewText (path text : String) : Action σ Unit :=
  fun world =>
    onTree (fun tree => do
      tree.writeNew (← tree.locateText world.workingDirectory path) (Utf8.encode text)) world

end Action

/-- What a store may ask of the machine: the time, and random bits. -/
structure Devices where
  /-- The readings of the clock, one after the other. -/
  clock : Nat → Option Instant
  /-- The random bits, one draw after the other. -/
  random : Nat → BitVec 64
  /-- The number of clock readings taken. -/
  readings : Nat := 0
  /-- The number of draws taken. -/
  draws : Nat := 0

namespace Devices

/-- The next reading of the clock. -/
def now (devices : Devices) : Option Instant × Devices :=
  (devices.clock devices.readings, { devices with readings := devices.readings + 1 })

/-- The next random bits. -/
def draw (devices : Devices) : BitVec 64 × Devices :=
  (devices.random devices.draws, { devices with draws := devices.draws + 1 })

end Devices

end Dispatch
