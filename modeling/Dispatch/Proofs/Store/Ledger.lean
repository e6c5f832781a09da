import Dispatch.Proofs.Schema
import Dispatch.Store.Ledger

/-!
# Ledgers as dictionaries of records

A ledger that is plain and accepted answers one dictionary for each kind of entry.
Setting the records of a domain changes that dictionary there and nowhere else, and
reducing the ledger to its document reduces the dictionaries.
-/

namespace Dispatch.Ledger

/-- A plain value with a dictionary for every kind of entry. -/
structure HasTables (ledger : Value) : Prop where
  plain : ledger.IsPlain
  table : ∀ entry : StoreEntry, ∃ members : Dict Value,
    (ledger.member "entries").member entry.name = .table members

/-- What loading gives: a plain ledger that the schema accepts. -/
structure IsLedger (ledger : Value) : Prop where
  plain : ledger.IsPlain
  accepted : schema.accepts ledger = true

theorem StoreEntry.name_injective : Function.Injective StoreEntry.name := by
  intro a b h
  cases a <;> cases b <;> first | rfl | exact absurd h (by decide)

/-- A plain ledger is accepted when the dictionaries of all kinds of entries are. -/
theorem accepts_schema_iff {ledger : Value} (h : ledger.IsPlain) :
    schema.accepts ledger = true ↔ ∀ entry : StoreEntry,
      entrySchema.accepts ((ledger.member "entries").member entry.name) = true := by
  rw [schema, Schema.accepts_required_iff (by simp) (by simp [Schema.required]) h]
  simp only [List.forall_mem_singleton, Schema.required]
  rw [Schema.accepts_required_iff (by simp) (by simp) (h.member "entries")]
  simp only [List.forall_mem_cons, List.not_mem_nil, false_implies, implies_true, and_true]
  constructor
  · rintro ⟨hmodels, hdata, hcandidates⟩ entry
    cases entry with
    | models => exact hmodels
    | data => exact hdata
    | candidates => exact hcandidates
  · intro hall
    exact ⟨hall .models, hall .data, hall .candidates⟩

theorem HasTables.eq_entryTable {ledger : Value} (h : HasTables ledger) (entry : StoreEntry) :
    (ledger.member "entries").member entry.name = .table (entryTable ledger entry) := by
  obtain ⟨members, hmembers⟩ := h.table entry
  rw [entryTable, hmembers]
  rfl

theorem HasTables.exists_entries {ledger : Value} (h : HasTables ledger) :
    ∃ members : Dict Value, ledger.member "entries" = .table members :=
  (h.plain.member "entries").eq_table StoreEntry.models.name (by simp [h.eq_entryTable])

theorem HasTables.exists_eq_table {ledger : Value} (h : HasTables ledger) :
    ∃ members : Dict Value, ledger = .table members := by
  apply h.plain.eq_table "entries"
  obtain ⟨members, hmembers⟩ := h.exists_entries
  simp [hmembers]

theorem HasTables.exists_serial {ledger : Value} (h : HasTables ledger) :
    ∃ reduced, ledger.serial? = some reduced := by
  apply h.plain.serial?_isSome
  obtain ⟨members, rfl⟩ := h.exists_eq_table
  simp

theorem HasTables.isPlain_entryTable {ledger : Value} (h : HasTables ledger) (entry : StoreEntry) :
    (Value.table (entryTable ledger entry)).IsPlain := by
  rw [← h.eq_entryTable entry]
  exact (h.plain.member "entries").member entry.name

theorem HasTables.accepts_iff {ledger : Value} (h : HasTables ledger) :
    schema.accepts ledger = true ↔ ∀ entry : StoreEntry, ∀ stored ∈ entryTable ledger entry,
      Schema.isCheckedKey stored.1 = true →
        (Schema.list recordSchema 0).accepts stored.2 = true := by
  rw [accepts_schema_iff h.plain]
  apply forall_congr'
  intro entry
  rw [h.eq_entryTable entry, entrySchema, Schema.accepts_dictionary_iff]

theorem IsLedger.hasTables {ledger : Value} (h : IsLedger ledger) : HasTables ledger where
  plain := h.plain
  table := by
    intro entry
    have haccepted := (accepts_schema_iff h.plain).mp h.accepted entry
    cases hmember : (ledger.member "entries").member entry.name with
    | object kind members =>
        have hplain := (h.plain.member "entries").member entry.name
        rw [hmember] at hplain
        cases hplain
        exact ⟨members, rfl⟩
    | _ => simp [hmember, entrySchema, Schema.accepts, Schema.check?, Schema.isDictionary]
        at haccepted

/-! ## Setting the records of a domain -/

theorem member_setMember {value : Value} (h : ∃ members : Dict Value, value = .table members)
    (name : String) (member : Value) (other : String) :
    (setMember value name member).member other =
      if other = name then member else value.member other := by
  obtain ⟨members, rfl⟩ := h
  rw [setMember, Value.member_table, Value.member_table, Dict.get?_insert]
  split <;> rfl

theorem isPlain_setMember {value member : Value} (hvalue : value.IsPlain)
    (hmember : member.IsPlain) (name : String) : (setMember value name member).IsPlain := by
  cases hvalue with
  | table hordered hmembers =>
      exact Value.IsPlain.insert (.table hordered hmembers) name hmember
  | missing => exact .missing
  | null => exact .null
  | bool value => exact .bool value
  | number x => exact .number x
  | text s => exact .text s
  | list hitems => exact .list hitems

section

variable {ledger : Value} (h : HasTables ledger) (entry : StoreEntry) (subject : String)
  (records : List Value)

include h

theorem member_setRecords (other : StoreEntry) :
    ((setRecords ledger entry subject records).member "entries").member other.name =
      .table (if other = entry then (entryTable ledger entry).insert subject (.list records)
        else entryTable ledger other) := by
  have hentries := h.exists_entries
  have hledger := h.exists_eq_table
  rw [setRecords, member_setMember hledger, if_pos rfl, member_setMember hentries,
    h.eq_entryTable entry, h.eq_entryTable other]
  by_cases hother : other = entry
  · simp [hother, setMember]
  · rw [if_neg hother, if_neg fun heq => hother (StoreEntry.name_injective heq)]

theorem entryTable_setRecords (other : StoreEntry) :
    entryTable (setRecords ledger entry subject records) other =
      if other = entry then (entryTable ledger entry).insert subject (.list records)
      else entryTable ledger other := by
  rw [entryTable, member_setRecords h]
  rfl

theorem HasTables.setRecords (hrecords : ∀ record ∈ records, record.IsPlain) :
    HasTables (setRecords ledger entry subject records) where
  plain := by
    refine isPlain_setMember h.plain (isPlain_setMember (h.plain.member "entries") ?_ _) _
    exact isPlain_setMember ((h.plain.member "entries").member _) (.list hrecords) _
  table := fun other => ⟨_, member_setRecords h entry subject records other⟩

/-- Setting records that are accepted keeps the ledger accepted. -/
theorem accepts_setRecords (hrecords : ∀ record ∈ records, record.IsPlain)
    (haccepted : schema.accepts ledger = true)
    (hnew : Schema.isCheckedKey subject = true →
      ∀ record ∈ records, recordSchema.accepts record = true) :
    schema.accepts (Ledger.setRecords ledger entry subject records) = true := by
  rw [(h.setRecords entry subject records hrecords).accepts_iff]
  have hold := h.accepts_iff.mp haccepted
  intro other stored hstored hkey
  rw [entryTable_setRecords h] at hstored
  split at hstored
  next =>
    rcases Dict.mem_of_mem_insert hstored with rfl | hstored
    · exact Schema.accepts_list_iff.mpr ⟨Nat.zero_le _, hnew hkey⟩
    · exact hold entry stored hstored hkey
  next => exact hold other stored hstored hkey

end

/-! ## Reductions of ledgers -/

theorem HasTables.member_serial {ledger reduced : Value} (h : HasTables ledger)
    (hreduced : ledger.serial? = some reduced) (entry : StoreEntry) :
    (reduced.member "entries").member entry.name =
      .table (Value.serialMembers (entryTable ledger entry)) := by
  obtain ⟨inner, hinner⟩ := h.exists_entries
  obtain ⟨outer, rfl⟩ := h.exists_eq_table
  have houterPlain := Value.isPlain_table_iff.mp h.plain
  have hinnerPlain := h.plain.member "entries"
  rw [hinner] at hinnerPlain
  have hinnerPlain := Value.isPlain_table_iff.mp hinnerPlain
  rw [Value.serial?_table houterPlain.2] at hreduced
  cases hreduced
  rw [Schema.member_serialMembers houterPlain.1, hinner, Value.serial?_table hinnerPlain.2,
    Option.getD_some, Schema.member_serialMembers hinnerPlain.1, ← hinner, h.eq_entryTable entry,
    Value.serial?_table (Value.isPlain_table_iff.mp (h.isPlain_entryTable entry)).2,
    Option.getD_some]

theorem HasTables.entryTable_serial {ledger reduced : Value} (h : HasTables ledger)
    (hreduced : ledger.serial? = some reduced) (entry : StoreEntry) :
    entryTable reduced entry = Value.serialMembers (entryTable ledger entry) := by
  rw [entryTable, h.member_serial hreduced]
  rfl

end Dispatch.Ledger
