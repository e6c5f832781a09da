import Dispatch.Proofs.Store.Numbering
import Dispatch.Proofs.Store.Readability

/-!
# Ledgers that hold a log

A log lists the records that were added for each kind of entry and each domain.
`Ledger.Holds` says that a ledger holds what is kept of a log and nothing else.  The
empty ledger holds the empty log, and a ledger with a record more, written and read
again, holds the log with that record at its end.
-/

namespace Dispatch

namespace Ledger

/-- The records that were added, in the order of the additions. -/
abbrev Log :=
  StoreEntry → String → List (Dict Value)

/-- What the dictionary of a kind of entry has for a domain with records. -/
def storedRecords (records : List (Dict Value)) : Option Value :=
  if records = [] then none else some (.list (keptRecords records))

/-- A ledger holds what is kept of a log. -/
def Holds (ledger : Value) (log : Log) : Prop :=
  ∀ entry subject, (entryTable ledger entry).get? subject = storedRecords (log entry subject)

/-- The records of a log are numbered, domain by domain. -/
def IsNumberedLog (log : Log) : Prop :=
  ∀ entry subject, IsNumbered subject (log entry subject) ∧
    (log entry subject).length < 2 ^ 53

/-- A log with a record more. -/
def Log.concat (log : Log) (entry : StoreEntry) (subject : String) (record : Dict Value) : Log :=
  fun other name =>
    if other = entry ∧ name = subject then log entry subject ++ [record] else log other name

theorem holds_empty : Holds empty fun _ _ => [] := by
  intro entry subject
  cases entry <;> rfl

section

variable {ledger : Value} {log : Log} (h : Holds ledger log) {subject : String}
  (hsubject : subject ∉ Dict.builtinNames)

include h hsubject

theorem Holds.recordList_eq (entry : StoreEntry) :
    recordList (stored (entryTable ledger entry) subject) =
      .ok (keptRecords (log entry subject)) := by
  rw [stored, h entry subject, storedRecords]
  by_cases hempty : log entry subject = []
  · simp [hempty, hsubject, recordList, keptRecords]
  · simp [hempty, recordList]

theorem Holds.recordsToSearch_eq (entry : StoreEntry) :
    recordsToSearch (stored (entryTable ledger entry) subject) =
      .ok (keptRecords (log entry subject)) := by
  rw [stored, h entry subject, storedRecords]
  by_cases hempty : log entry subject = []
  · simp [hempty, hsubject, recordsToSearch, recordList, keptRecords]
  · simp [hempty, recordsToSearch, recordList]

/-- Searching selects among the kept records of the log, in their order. -/
theorem Holds.search_eq (hlog : IsNumberedLog log) (entry : StoreEntry) (version : StoreVersion) :
    search ledger entry subject version =
      select version (keptRecords (log entry subject)) := by
  obtain ⟨hnumbered, hlength⟩ := hlog entry subject
  rw [search, h.recordsToSearch_eq hsubject]
  simp only [Bind.bind, Except.bind, hnumbered.sortByVersion_kept (Nat.le_of_lt hlength)]

end

/-! ## One more record -/

theorem IsNumbered.serialItems_kept {subject : String} {records : List (Dict Value)}
    (h : IsNumbered subject records) (hlength : records.length ≤ 2 ^ 53) :
    Value.serialItems (keptRecords records) = keptRecords records :=
  Value.serialItems_eq_self fun _ hvalue => (h.isDocument_kept hlength hvalue).serial?_eq

theorem IsNumbered.bind_storedRecords {subject : String} {records : List (Dict Value)}
    (h : IsNumbered subject records) (hlength : records.length ≤ 2 ^ 53) :
    (storedRecords records).bind Value.serial? = storedRecords records := by
  rw [storedRecords]
  split
  · rfl
  · rw [Option.bind_some, Value.serial?, h.serialItems_kept hlength]

/-- What is kept of records and of one more is what is stored for all of them. -/
theorem IsNumbered.serial?_concat {subject : String} {records : List (Dict Value)}
    {record : Dict Value} (h : IsNumbered subject (records ++ [record]))
    (hlength : (records ++ [record]).length ≤ 2 ^ 53) :
    (Value.list (keptRecords records ++ [.table record])).serial? =
      storedRecords (records ++ [record]) := by
  have hshort : records.length ≤ 2 ^ 53 := by
    rw [List.length_append] at hlength
    exact Nat.le_trans (Nat.le_add_right _ _) hlength
  have hitems := h.of_append.serialItems_kept hshort
  have hlast := h.serial?_table hlength (List.mem_append_right _ (List.mem_singleton_self _))
  rw [Value.serial?, Value.serialItems_append, hitems, Value.serialItems, hlast, storedRecords,
    if_neg (by simp), keptRecords, keptRecords, List.map_append, List.map_singleton,
    Option.getD_some]
  rfl

theorem IsNumberedLog.concat {log : Log} (h : IsNumberedLog log) (entry : StoreEntry)
    (subject : String) (hlength : (log entry subject).length + 1 < 2 ^ 53)
    {given : Dict Value} (hgiven : IsNewRecord given) (hthreshold : HasFiniteThreshold given)
    (createdAt : String) :
    IsNumberedLog (log.concat entry subject (completeRecord given subject
      (.ofInt ((log entry subject).length + 1 : Nat)) createdAt)) := by
  intro other name
  rw [Log.concat]
  split
  next hsame =>
    obtain ⟨rfl, rfl⟩ := hsame
    refine ⟨(h other name).1.concat hgiven hthreshold createdAt, ?_⟩
    rw [List.length_append, List.length_singleton]
    exact hlength
  next => exact h other name

section

variable {ledger : Value} {log : Log} (hledger : IsLedger ledger) (h : Holds ledger log)
  (hlog : IsNumberedLog log)

include hledger h hlog

/-- Written and read again, a ledger with a record more holds the log with that record. -/
theorem Holds.concat (entry : StoreEntry) {subject : String}
    (hsubject : subject ∉ Dict.builtinNames)
    (hlength : (log entry subject).length + 1 < 2 ^ 53) {given : Dict Value}
    (hgiven : IsNewRecord given) (hthreshold : HasFiniteThreshold given) (createdAt : String)
    {record : Dict Value} (hrecord : record = completeRecord given subject
      (.ofInt ((log entry subject).length + 1 : Nat)) createdAt) :
    ∃ reduced,
      (setRecords ledger entry subject
        (keptRecords (log entry subject) ++ [.table record])).serial? = some reduced ∧
      schema.accepts reduced = true ∧ Holds reduced (log.concat entry subject record) := by
  subst hrecord
  obtain ⟨hnumbered, hshort⟩ := hlog entry subject
  have hrecords := h.recordList_eq hsubject entry
  have hversion := hnumbered.nextVersion_kept (Nat.le_of_lt hshort) (Nat.le_of_lt hlength)
  have htables := hledger.hasTables.setRecords entry subject _ (isPlain_of_mem_added hledger
    hrecords hgiven (.ofInt ((log entry subject).length + 1 : Nat)) createdAt)
  obtain ⟨reduced, hreduced⟩ := htables.exists_serial
  refine ⟨reduced, hreduced,
    accepts_reduced hledger hrecords hgiven hreduced hversion hthreshold, ?_⟩
  intro other name
  have htable := Value.isPlain_table_iff.mp (htables.isPlain_entryTable other)
  have hothers : ((entryTable ledger other).get? name).bind Value.serial? =
      storedRecords (log other name) := by
    rw [h other name, (hlog other name).1.bind_storedRecords (Nat.le_of_lt (hlog other name).2)]
  rw [htables.entryTable_serial hreduced, Value.get?_serialMembers htable.1.nodup,
    entryTable_setRecords hledger.hasTables, Log.concat]
  by_cases hentry : other = entry
  · subst hentry
    rw [if_pos rfl, Dict.get?_insert]
    by_cases hname : name = subject
    · subst hname
      have hconcat := hnumbered.concat hgiven hthreshold createdAt
      have hbound := Nat.le_of_lt hlength
      rw [if_pos rfl, if_pos ⟨rfl, rfl⟩, Option.bind_some]
      exact hconcat.serial?_concat (by simpa using hbound)
    · rw [if_neg hname, if_neg fun hsame => hname hsame.2]
      exact hothers
  · rw [if_neg hentry, if_neg fun hsame => hentry hsame.1]
    exact hothers

end

end Ledger

namespace LedgerStore

open Ledger

variable {store : LedgerStore} {tree : FileTree} {world : World Devices}

/-- Where a ledger can be loaded, a file can be written. -/
theorem write_ledgerFile {ledger : Value} (hroot : tree.IsDirectory store.root)
    (hledger : store.ledgerIn tree = .ok ledger) (bytes : List UInt8) :
    tree.write store.ledgerFile bytes = .ok (tree.put store.ledgerFile (.file bytes)) := by
  refine FileTree.write_eq_ok_iff.mpr ⟨hroot, fun hdirectory => ?_, rfl⟩
  have hread := FileTree.read_eq_isDirectory hroot hdirectory
  rw [ledgerIn, ledgerFile, hread] at hledger
  cases hledger

/-- Adding to a ledger that holds a log succeeds, and then it holds the log with the record. -/
theorem add_of_holds (hnames : ∀ name ∈ store.root, FileTree.IsName name)
    (hroot : world.tree.IsDirectory store.root) {ledger : Value}
    (hledger : store.ledgerIn world.tree = .ok ledger) {log : Log} (h : Holds ledger log)
    (hlog : IsNumberedLog log) (entry : StoreEntry) {subject : String}
    (hsubject : subject ∉ Dict.builtinNames)
    (hlength : (log entry subject).length + 1 < 2 ^ 53) {given : Dict Value}
    (hgiven : IsNewRecord given) (hthreshold : HasFiniteThreshold given) {instant : Instant}
    (hclock : world.store.now.1 = some instant) :
    ∃ added world' reduced, store.add entry subject given world = (.ok added, world') ∧
      added = completeRecord given subject (.ofInt ((log entry subject).length + 1 : Nat))
        instant.isoText ∧
      world'.tree.IsDirectory store.root ∧ store.ledgerIn world'.tree = .ok reduced ∧
      Holds reduced (log.concat entry subject added) := by
  obtain ⟨hnumbered, hshort⟩ := hlog entry subject
  have hvalid := isLedger_of_ledgerIn hledger
  have hrecords := h.recordList_eq hsubject entry
  have hversion := hnumbered.nextVersion_kept (Nat.le_of_lt hshort) (Nat.le_of_lt hlength)
  have hplain := (hvalid.hasTables.setRecords entry subject _ (isPlain_of_mem_added hvalid
    hrecords hgiven (.ofInt ((log entry subject).length + 1 : Nat)) instant.isoText)).plain
  obtain ⟨reduced, hreduced, haccepted, hholds⟩ :=
    h.concat hvalid hlog entry hsubject hlength hgiven hthreshold instant.isoText rfl
  obtain ⟨text, htext, _⟩ := ofText_fileText hplain hreduced store.ledgerPath
  have hwrite := write_ledgerFile hroot hledger (Utf8.encode text)
  have hsave : store.save _ (afterReading world) = (.ok (), _) :=
    (save_eq_ok_iff store).mpr
      ⟨world.tree, text, _, FileTree.makeDirectory_eq_self hnames hroot, htext, hwrite, rfl⟩
  have hload := ledgerIn_of_save hplain hreduced hsave
  rw [Schema.checkValue_of_accepts _ _ haccepted] at hload
  exact ⟨_, _, reduced, (add_eq_ok_iff store).mpr
    ⟨ledger, _, _, instant, hledger, hrecords, hversion, hclock, rfl, hsave⟩, rfl,
    hroot.put _, hload, hholds⟩

end LedgerStore

end Dispatch
