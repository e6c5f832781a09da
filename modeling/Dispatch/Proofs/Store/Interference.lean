import Dispatch.Proofs.Deployment
import Dispatch.Proofs.Store.FileNames

/-!
# What else happens in a directory with a ledger

Directories are created and deployments are made below the root of a store, next to
its ledger.  As long as the new directory is neither the ledger nor inside it, the
root and the ledger stay what they were: a deployment writes where nothing was, and
its file has a name that the ledger does not have.
-/

namespace Dispatch

namespace LedgerStore

/-- The second tree has the root and the ledger of a store as the first has them. -/
structure KeepsLedger (store : LedgerStore) (tree tree' : FileTree) : Prop where
  root : tree.IsDirectory store.root → tree'.IsDirectory store.root
  ledger : tree'.get? store.ledgerFile = tree.get? store.ledgerFile

section

variable {store : LedgerStore} {tree tree' tree'' : FileTree}

theorem KeepsLedger.refl (store : LedgerStore) (tree : FileTree) : store.KeepsLedger tree tree where
  root h := h
  ledger := rfl

theorem KeepsLedger.trans (h : store.KeepsLedger tree tree')
    (h' : store.KeepsLedger tree' tree'') : store.KeepsLedger tree tree'' where
  root hroot := h'.root (h.root hroot)
  ledger := h'.ledger.trans h.ledger

/-- The same ledger is loaded before and after. -/
theorem KeepsLedger.ledgerIn_eq (h : store.KeepsLedger tree tree')
    (hroot : tree.IsDirectory store.root) : store.ledgerIn tree' = store.ledgerIn tree := by
  have hread : tree'.read store.ledgerFile = tree.read store.ledgerFile :=
    FileTree.read_congr hroot (h.root hroot) h.ledger
  rw [ledgerIn, ledgerIn, hread]

/-- Creating a directory that is neither the ledger nor inside it keeps the ledger. -/
theorem keepsLedger_of_makeDirectory {target : List String}
    (htarget : ∀ name ∈ target, FileTree.IsName name)
    (hmade : tree.makeDirectory target = .ok tree') (hoff : ¬store.ledgerFile <+: target) :
    store.KeepsLedger tree tree' where
  root hroot := (FileTree.addsDirectories_of_makeDirectory hmade).isDirectory hroot
  ledger := FileTree.get?_of_makeDirectory htarget hmade hoff

/-- A new file elsewhere keeps the ledger. -/
theorem keepsLedger_put {place : List String} (hne : place ≠ [])
    (hnone : tree.get? place = none) (hother : store.ledgerFile ≠ place) (node : FileNode) :
    store.KeepsLedger tree (tree.put place node) where
  root hroot := hroot.put_of_none hne hnone node
  ledger := by rw [FileTree.get?_put tree place node _ hne, if_neg hother]

end

/-- The file of a deployment is not the ledger, wherever its path leads. -/
theorem ledgerFile_ne_of_locateText (store : LedgerStore) {tree : FileTree}
    {workingDirectory components place : List String} {reading : Option Instant}
    {bits : BitVec 64}
    (hplace : tree.locateText workingDirectory (Path.join (Path.ofComponents components)
      (stampedName reading bits ++ ".json")) = .ok place) : store.ledgerFile ≠ place := by
  have hname := isName_objectsName reading bits
  obtain ⟨front, hfront⟩ :=
    Path.exists_split_join hname (slash_not_mem_objectsName reading bits) components
  rw [FileTree.locateText, hfront] at hplace
  split at hplace
  next => cases hplace
  next =>
    obtain ⟨directory, rfl⟩ := FileTree.locate_append_singleton hname hplace
    intro hsame
    have hlast := (List.append_inj' hsame rfl).2
    exact objectsName_ne_ledgerName reading bits (List.singleton_inj.mp hlast).symm

variable {store : LedgerStore} (hnames : ∀ name ∈ store.root, FileTree.IsName name)

include hnames

theorem keepsLedger_makeDirectory {directory : String}
    (hoff : ¬store.ledgerFile <+: Path.resolveFrom store.root directory) (world : World Devices) :
    store.KeepsLedger world.tree (store.makeDirectory directory world).2.tree := by
  rcases hrun : store.makeDirectory directory world with ⟨_ | path, world'⟩
  · rw [eq_of_makeDirectory_error hrun]
    exact KeepsLedger.refl store _
  · obtain ⟨_, tree, htree, _, rfl⟩ := makeDirectory_eq_ok hrun
    exact keepsLedger_of_makeDirectory (Path.isName_of_mem_resolveFrom hnames directory) htree hoff

/-- A deployment into a directory off the ledger keeps the ledger. -/
theorem keepsLedger_deploy {config : Config}
    (hoff : ¬store.ledgerFile <+: Path.resolveFrom store.root config.artifactDir)
    (broker : Option Broker) (world : World Devices) (job : Job) :
    store.KeepsLedger world.tree
      (Job.deploy store.toDataStore broker config (world, job)).2.1.tree := by
  have htarget := Path.isName_of_mem_resolveFrom hnames config.artifactDir
  cases Job.leavesFiles_deploy store broker config world job with
  | unchanged hsame =>
      rw [hsame]
      exact KeepsLedger.refl store _
  | directory _ hmade => exact keepsLedger_of_makeDirectory htarget hmade hoff
  | file _ hmade hplace hne hnone htree =>
      have hother := ledgerFile_ne_of_locateText store hplace
      rw [htree]
      exact (keepsLedger_of_makeDirectory htarget hmade hoff).trans
        (keepsLedger_put hne hnone hother _)

end LedgerStore

end Dispatch
