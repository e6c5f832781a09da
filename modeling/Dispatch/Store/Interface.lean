import Dispatch.Store.Ledger
import Dispatch.Store.World
import Dispatch.Template

/-!
# Stores

A store keeps models and data for the domains of a workflow.  `DataStore` is what
jobs need of one: to look up records, and to place files below its root.  The
operations of a store act on a world that holds a state of the store's own.
-/

namespace Dispatch

/-- What jobs need of a store. -/
structure DataStore (σ : Type) where
  rootPath : String
  /-- The directory where fresh samples are gathered. -/
  candidatePath : Action σ String
  /-- The wanted records of a domain. -/
  search : String → StoreEntry → StoreVersion → Action σ (List Value)
  /-- Creates a directory below the root and answers its path. -/
  makeDirectory : String → Action σ String
  /-- A file name that no other call has given. -/
  uniqueFilename : Action σ String

namespace DataStore

/-- What templates may say about a store. -/
def templateContext {σ : Type} (store : DataStore σ) : Template.Context :=
  ⟨store.rootPath⟩

end DataStore

end Dispatch
