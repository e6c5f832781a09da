import Dispatch.Proofs.FileTree
import Dispatch.Proofs.Store.Ledger
import Dispatch.Proofs.Store.World
import Dispatch.Proofs.Text.Utf8
import Dispatch.Store.LedgerStore

/-!
# Loading and saving

The ledger of a store is a function of the file tree.  Saving a ledger succeeds when
the root can be made and the file can be written, and then the ledger that is loaded
is the reduction of the one that was saved.
-/

namespace Dispatch

namespace Ledger

/-- The text of a plain ledger is read as the reduction of the ledger. -/
theorem ofText_fileText {ledger reduced : Value} (h : ledger.IsPlain)
    (hreduced : ledger.serial? = some reduced) (path : String) :
    ∃ text, fileText ledger = .ok text ∧
      ofText path text = schema.checkValue reduced ("store ledger " ++ path) .store := by
  refine ⟨Json.print .indented reduced ++ "\n", ?_, ?_⟩
  · rw [fileText, Json.write_of_isPlain h, hreduced]
    rfl
  · have hread := Json.read?_print_blanks Json.Style.isLegible_indented (h.isDocument hreduced)
      (show ∀ c ∈ ['\n'], Json.isSpace c = true by simp [Json.isSpace])
    have htext : Json.print .indented reduced ++ "\n" =
        String.ofList (Json.chars .indented 0 reduced ++ ['\n']) := by
      rw [Json.print, String.ofList_append]
    rw [ofText, htext]
    simp only [hread]

theorem isLedger_empty : IsLedger empty where
  plain := by
    have htable : (Value.table []).IsPlain := .table Dict.isOrdered_nil (by simp)
    refine .table (by decide) (List.forall_mem_singleton.mpr (.table (by decide) ?_))
    simp [htable]
  accepted := by decide

/-- What is taken from the text of a file is a ledger. -/
theorem isLedger_of_ofText {path text : String} {ledger : Value}
    (h : ofText path text = .ok ledger) : IsLedger ledger := by
  rw [ofText] at h
  split at h
  next => cases h
  next value hread =>
    obtain ⟨haccepted, rfl⟩ := Schema.accepts_of_checkValue h
    exact ⟨(Json.isRead_of_read? hread).isPlain, haccepted⟩

end Ledger

namespace LedgerStore

variable {σ : Type} (store : LedgerStore)

/-- The ledger that a store has in a file tree. -/
def ledgerIn (tree : FileTree) : Except Failure Value :=
  match tree.read store.ledgerFile with
  | .ok bytes => Ledger.ofText store.ledgerPath (Utf8.decode bytes)
  | .error .notFound => .ok Ledger.empty
  | .error _ => .error (.unreadableLedger store.ledgerPath)

/-- Loading answers the ledger in the tree and changes nothing. -/
theorem load_apply (world : World σ) : store.load world = (store.ledgerIn world.tree, world) := by
  rw [load, Operation.bind_of_ok (Action.tryRead_apply _ world), ledgerIn]
  cases world.tree.read store.ledgerFile with
  | ok bytes => rfl
  | error error => cases error <;> rfl

theorem load_eq_ok_iff {world world' : World σ} {ledger : Value} :
    store.load world = (.ok ledger, world') ↔
      store.ledgerIn world.tree = .ok ledger ∧ world' = world := by
  rw [load_apply]
  exact Action.ofExcept_eq_ok_iff

/-- Searching answers the records in the loaded ledger and changes nothing. -/
theorem search_apply (subject : String) (entry : StoreEntry) (version : StoreVersion)
    (world : World σ) : store.search subject entry version world =
      ((store.ledgerIn world.tree).bind fun ledger => Ledger.search ledger entry subject version,
        world) := by
  rw [search, Operation.bind_apply, load_apply]
  cases store.ledgerIn world.tree <;> rfl

theorem isLedger_of_ledgerIn {store : LedgerStore} {tree : FileTree} {ledger : Value}
    (h : store.ledgerIn tree = .ok ledger) : Ledger.IsLedger ledger := by
  rw [ledgerIn] at h
  split at h
  next => exact Ledger.isLedger_of_ofText h
  next =>
    cases h
    exact Ledger.isLedger_empty
  next => cases h

/-! ## Saving -/

/-- Saving makes the root, then writes the text of the ledger. -/
theorem save_eq_ok_iff {ledger : Value} {world world' : World σ} {done : Unit} :
    store.save ledger world = (.ok done, world') ↔
      ∃ made text written, world.tree.makeDirectory store.root = .ok made ∧
        Ledger.fileText ledger = .ok text ∧
        made.write store.ledgerFile (Utf8.encode text) = .ok written ∧
        world' = { world with tree := written } := by
  simp only [save, Action.makeDirectory, Action.writeText, Operation.bind_eq_ok_iff,
    Action.onTree_eq_ok_iff, Action.ofExcept_eq_ok_iff]
  constructor
  · rintro ⟨_, _, ⟨made, hmade, rfl⟩, text, _, ⟨htext, rfl⟩, written, hwritten, rfl⟩
    exact ⟨made, text, written, hmade, htext, hwritten, rfl⟩
  · rintro ⟨made, text, written, hmade, htext, hwritten, rfl⟩
    exact ⟨(), _, ⟨made, hmade, rfl⟩, text, _, ⟨htext, rfl⟩, written, hwritten, rfl⟩

/-- What is loaded after a ledger was saved is its reduction, if that is accepted. -/
theorem ledgerIn_of_save {store : LedgerStore} {ledger reduced : Value} (h : ledger.IsPlain)
    (hreduced : ledger.serial? = some reduced) {world world' : World σ} {done : Unit}
    (hsave : store.save ledger world = (.ok done, world')) :
    store.ledgerIn world'.tree =
      Ledger.schema.checkValue reduced ("store ledger " ++ store.ledgerPath) .store := by
  obtain ⟨made, text, written, _, htext, hwritten, rfl⟩ := (save_eq_ok_iff store).mp hsave
  obtain ⟨text', htext', hread⟩ := Ledger.ofText_fileText h hreduced store.ledgerPath
  rw [htext] at htext'
  cases htext'
  rw [ledgerIn, ledgerFile, FileTree.read_of_write hwritten]
  simp only [Utf8.decode_encode, hread]

/-! ## Adding -/

/-- The state of a world after the clock was read. -/
def afterReading (world : World Devices) : World Devices :=
  { world with store := world.store.now.2 }

/-- Preparing an addition touches no file, whether it succeeds or fails. -/
theorem prepareAdd_keeps_tree (entry : StoreEntry) (subject : String) (record : Dict Value)
    (world : World Devices) :
    (store.prepareAdd entry subject record world).2.tree = world.tree ∧
      (store.prepareAdd entry subject record world).2.workingDirectory =
        world.workingDirectory := by
  let same (world world' : World Devices) : Prop :=
    world'.tree = world.tree ∧ world'.workingDirectory = world.workingDirectory
  have htrans {world world' world'' : World Devices} (h : same world world')
      (h' : same world' world'') : same world world'' := ⟨h'.1.trans h.1, h'.2.trans h.2⟩
  have hleads : Operation.Leads same (store.prepareAdd entry subject record) := by
    refine Operation.Leads.bind htrans (fun world => ?_) fun ledger => ?_
    · rw [load_apply]
      exact ⟨rfl, rfl⟩
    refine Operation.Leads.bind htrans (fun _ => ⟨rfl, rfl⟩) fun records => ?_
    refine Operation.Leads.bind htrans (fun _ => ⟨rfl, rfl⟩) fun version => ?_
    refine Operation.Leads.bind htrans (fun _ => ⟨rfl, rfl⟩) fun reading => ?_
    cases reading with
    | none => exact fun _ => ⟨rfl, rfl⟩
    | some instant => exact fun _ => ⟨rfl, rfl⟩
  exact hleads world

theorem prepareAdd_eq_ok_iff {entry : StoreEntry} {subject : String} {record added : Dict Value}
    {saved : Value} {world world' : World Devices} :
    store.prepareAdd entry subject record world = (.ok (saved, added), world') ↔
      ∃ ledger records version instant, store.ledgerIn world.tree = .ok ledger ∧
        Ledger.recordList (Ledger.stored (Ledger.entryTable ledger entry) subject) = .ok records ∧
        Ledger.nextVersion records = .ok version ∧ world.store.now.1 = some instant ∧
        added = Ledger.completeRecord record subject version instant.isoText ∧
        saved = Ledger.setRecords ledger entry subject (records ++ [.table added]) ∧
        world' = afterReading world := by
  have hclock : (Action.onStore Devices.now : Action Devices (Option Instant)) world =
      (.ok world.store.now.1, afterReading world) := rfl
  simp only [prepareAdd, Operation.bind_eq_ok_iff, load_eq_ok_iff, Action.ofExcept_eq_ok_iff]
  constructor
  · rintro ⟨ledger, _, ⟨hload, rfl⟩, records, _, ⟨hrecords, rfl⟩, version, _, ⟨hversion, rfl⟩,
      reading, _, hreading, hrest⟩
    rw [hclock] at hreading
    obtain ⟨hanswer, rfl⟩ := Prod.mk.inj hreading
    have hinstant := Except.ok.inj hanswer
    cases reading with
    | none => cases hrest
    | some instant =>
        cases hrest
        exact ⟨ledger, records, version, instant, hload, hrecords, hversion, hinstant, rfl, rfl,
          rfl⟩
  · rintro ⟨ledger, records, version, instant, hload, hrecords, hversion, hinstant, rfl, rfl, rfl⟩
    refine ⟨ledger, _, ⟨hload, rfl⟩, records, _, ⟨hrecords, rfl⟩, version, _, ⟨hversion, rfl⟩,
      some instant, afterReading world, ?_, rfl⟩
    rw [hclock, hinstant]

/-- An addition completes the record with the next version and the time, and saves the ledger. -/
theorem add_eq_ok_iff {entry : StoreEntry} {subject : String} {record added : Dict Value}
    {world world' : World Devices} :
    store.add entry subject record world = (.ok added, world') ↔
      ∃ ledger records version instant, store.ledgerIn world.tree = .ok ledger ∧
        Ledger.recordList (Ledger.stored (Ledger.entryTable ledger entry) subject) = .ok records ∧
        Ledger.nextVersion records = .ok version ∧ world.store.now.1 = some instant ∧
        added = Ledger.completeRecord record subject version instant.isoText ∧
        store.save (Ledger.setRecords ledger entry subject (records ++ [.table added]))
          (afterReading world) = (.ok (), world') := by
  simp only [add, Operation.bind_eq_ok_iff]
  constructor
  · rintro ⟨⟨saved, record'⟩, _, hprepared, done, _, hsave, hadded⟩
    cases hadded
    obtain ⟨ledger, records, version, instant, hload, hrecords, hversion, hinstant, rfl, rfl,
      rfl⟩ := (prepareAdd_eq_ok_iff store).mp hprepared
    exact ⟨ledger, records, version, instant, hload, hrecords, hversion, hinstant, rfl, hsave⟩
  · rintro ⟨ledger, records, version, instant, hload, hrecords, hversion, hinstant, rfl, hsave⟩
    refine ⟨(_, _), afterReading world, ?_, (), world', hsave, rfl⟩
    exact (prepareAdd_eq_ok_iff store).mpr
      ⟨ledger, records, version, instant, hload, hrecords, hversion, hinstant, rfl, rfl, rfl⟩

end LedgerStore

end Dispatch
