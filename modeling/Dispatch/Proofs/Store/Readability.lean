import Dispatch.Proofs.Store.LedgerStore
import Dispatch.Proofs.Store.Versions

/-!
# Whether a store can be read after an addition

A ledger is checked when it is read and not when it is written.  A number that is not
finite is written as null, so an addition with such a threshold succeeds and leaves a
ledger that is refused; under a domain name with a line end, whose records are not
checked, it leaves a record other than the one that was answered.

`add_leaves_store_readable_iff` says that this is the only way: after any other
addition the ledger is read again, and the record is found in it.
-/

namespace Dispatch

namespace Number

theorem equal_settled {x : Number} (h : x.isFinite = true) : x.settled.equal x = true := by
  cases x with
  | finite negative magnitude =>
      have hequal : (finite (negative && magnitude.units != 0) magnitude).equal
          (.finite negative magnitude) =
          decide (signed (negative && magnitude.units != 0) magnitude =
            signed negative magnitude) := rfl
      rw [settled, hequal, signed_settled]
      exact decide_eq_true rfl
  | _ => simp [Number.isFinite] at h

theorem isFinite_of_isDocument {x : Number} (h : (Value.number x).IsDocument) :
    x.isFinite = true := by
  cases h with
  | number hx => exact isFinite_of_serial? hx

end Number

namespace Ledger

/-- The records to which one can be added are those stored, or none. -/
theorem recordList_stored {table : Dict Value} {subject : String} {records : List Value}
    (h : recordList (stored table subject) = .ok records) :
    table.get? subject = some (.list records) ∨ records = [] := by
  rw [stored] at h
  split at h
  next value hvalue =>
    cases value with
    | list items =>
        cases h
        exact Or.inl hvalue
    | missing | null =>
        cases h
        exact Or.inr rfl
    | _ => cases h
  next =>
    split at h
    next => cases h
    next =>
      cases h
      exact Or.inr rfl

section

variable {ledger : Value} (h : IsLedger ledger) {entry : StoreEntry} {subject : String}
  {records : List Value}
  (hrecords : recordList (stored (entryTable ledger entry) subject) = .ok records)

include h hrecords

theorem isPlain_of_recordList : ∀ record ∈ records, record.IsPlain := by
  rcases recordList_stored hrecords with hstored | rfl
  · have htable := Value.isPlain_table_iff.mp (h.hasTables.isPlain_entryTable entry)
    have hlist := htable.2 _ (Dict.mem_of_get? hstored)
    cases hlist with
    | list hitems => exact hitems
  · simp

theorem accepts_of_recordList (hkey : Schema.isCheckedKey subject = true) :
    ∀ record ∈ records, recordSchema.accepts record = true := by
  rcases recordList_stored hrecords with hstored | rfl
  · have hlist := h.hasTables.accepts_iff.mp h.accepted entry _ (Dict.mem_of_get? hstored) hkey
    exact (Schema.accepts_list_iff.mp hlist).2
  · simp

end

/-- The version of an accepted record is a number that counts. -/
theorem member_version_of_accepts {record : Value} (hplain : record.IsPlain)
    (h : recordSchema.accepts record = true) :
    ∃ x, record.member "version" = .number x ∧ x.IsCount 1 := by
  cases hplain with
  | @table members _ _ =>
      have hversion := (Schema.accepts_table_iff.mp h).2.2
        (Schema.required "version" (.integer (some 1) none)) (by simp)
      rcases hversion with ⟨hoptional, _⟩ | haccepted
      · simp [Schema.required] at hoptional
      · cases hmember : (Value.table members).member "version" with
        | number x =>
            refine ⟨x, rfl, ?_⟩
            simp only [Schema.required, hmember] at haccepted
            exact Schema.accepts_count_iff.mp haccepted
        | _ =>
            simp only [Schema.required, hmember] at haccepted
            simp [Schema.accepts, Schema.check?] at haccepted
  | _ => simp [recordSchema, Schema.accepts, Schema.check?, Schema.isTable] at h

/-- An accepted record has a version that counts. -/
theorem version?_of_accepts {record : Value} (hplain : record.IsPlain)
    (h : recordSchema.accepts record = true) : ∃ x, version? record = some x ∧ x.IsCount 1 := by
  obtain ⟨x, hmember, hcount⟩ := member_version_of_accepts hplain h
  exact ⟨x, version?_of_member hmember, hcount⟩

/-! ## Searching after an addition -/

/-- What a domain has after its records were set and the ledger was written and read. -/
theorem stored_serial {ledger reduced : Value} (h : HasTables ledger)
    (entry : StoreEntry) (subject : String) {records : List Value}
    (hrecords : ∀ record ∈ records, record.IsPlain)
    (hreduced : (setRecords ledger entry subject records).serial? = some reduced) :
    stored (entryTable reduced entry) subject = .list (Value.serialItems records) := by
  have htables := h.setRecords entry subject records hrecords
  have htable := Value.isPlain_table_iff.mp (htables.isPlain_entryTable entry)
  rw [stored, htables.entryTable_serial hreduced, Value.get?_serialMembers htable.1.nodup,
    entryTable_setRecords h, if_pos rfl, Dict.get?_insert, if_pos rfl]
  rfl

/-- Records with versions that are numbers can be searched after they were written and read. -/
theorem select_number_serial {records : List Value} (hplain : ∀ record ∈ records, record.IsPlain)
    (hversions : ∀ record ∈ records, ∃ x, version? record = some x ∧ x ≠ .nan)
    (version : Number) :
    ∃ found, (sortByVersion (Value.serialItems records)).bind (select (.number version)) =
        .ok found ∧
      ∀ reduced ∈ Value.serialItems records, versionIs version reduced = true →
        reduced ∈ found := by
  have hreduced : ∀ reduced ∈ Value.serialItems records,
      (∃ members : Dict Value, reduced = .table members) ∧ (version? reduced).isSome = true := by
    intro reduced hmem
    rw [Value.serialItems_eq_map] at hmem
    obtain ⟨record, hrecord, rfl⟩ := List.mem_map.mp hmem
    obtain ⟨x, hx, hnumber⟩ := hversions record hrecord
    have hpresent : record ≠ .missing := by
      rintro rfl
      simp [version?] at hx
    obtain ⟨w, hw⟩ := (hplain record hrecord).serial?_isSome hpresent
    rw [hw]
    exact version?_isSome_serial (hplain record hrecord) hw hx hnumber
  obtain ⟨sorted, hsorted⟩ := exists_sortByVersion fun reduced hmem => (hreduced reduced hmem).2
  have hperm := perm_of_sortByVersion hsorted
  have htest : ∀ reduced ∈ sorted,
      hasVersion version reduced = .ok (versionIs version reduced) := by
    intro reduced hmem
    obtain ⟨members, rfl⟩ := (hreduced reduced (hperm.mem_iff.mp hmem)).1
    exact hasVersion_table version members
  refine ⟨sorted.filter (versionIs version), ?_, ?_⟩
  · rw [hsorted]
    exact filterM_eq_filter htest
  · intro reduced hmem hversion
    exact List.mem_filter.mpr ⟨hperm.mem_iff.mpr hmem, hversion⟩

theorem isDocument_of_mem_serialItems {records : List Value}
    (hplain : ∀ record ∈ records, record.IsPlain) :
    ∀ reduced ∈ Value.serialItems records, reduced.IsDocument := by
  intro reduced hmem
  rw [Value.serialItems_eq_map] at hmem
  obtain ⟨record, hrecord, rfl⟩ := List.mem_map.mp hmem
  cases hserial : record.serial? with
  | none => exact .null
  | some w => exact (hplain record hrecord).isDocument hserial

/-- The record that is kept has the version that was answered. -/
theorem versionIs_keptRecord {record : Dict Value} (h : IsNewRecord record) (subject : String)
    {version : Number} (hversion : version.isFinite = true) (createdAt : String) :
    versionIs version
      (.table (keptRecord (completeRecord record subject version createdAt))) = true := by
  have hordered := h.isOrdered_complete subject version createdAt
  have hkept : ("version", .number version.settled) ∈
      keptRecord (completeRecord record subject version createdAt) :=
    mem_keptRecord (Dict.mem_of_get? (by simp [get?_completeRecord]))
  have hnodup := (keys_keptRecord_sublist _).nodup hordered.nodup
  rw [versionIs, Value.member_table, Dict.get?_of_mem hnodup hkept]
  exact Number.equal_settled hversion

/-- A record that was found in a document has finite numbers. -/
theorem isFinite_of_isDocument_keptRecord {record : Dict Value}
    (h : (Value.table (keptRecord record)).IsDocument) {name : String} {x : Number}
    (hx : (name, .number x) ∈ record) : x.isFinite = true := by
  cases h with
  | table _ hfields =>
      rw [← Number.isFinite_settled]
      exact Number.isFinite_of_isDocument (hfields _ (mem_keptRecord hx))

/-! ## One more record -/

section

variable {ledger reduced : Value} (hledger : IsLedger ledger) {entry : StoreEntry}
  {subject : String} {records : List Value}
  (hrecords : recordList (stored (entryTable ledger entry) subject) = .ok records)
  {record : Dict Value} (hrecord : IsNewRecord record) {version : Number} {createdAt : String}

include hledger hrecords

/-- The next version under a domain name that is checked counts. -/
theorem isCount_of_nextVersion (hversion : nextVersion records = .ok version)
    (hkey : Schema.isCheckedKey subject = true) : version.IsCount 1 := by
  have hcounts : ∀ r ∈ records, ∃ x, version? r = some x ∧ x.IsCount 0 := by
    intro r hr
    obtain ⟨x, hx, hcount⟩ := version?_of_accepts (isPlain_of_recordList hledger hrecords r hr)
      (accepts_of_recordList hledger hrecords hkey r hr)
    exact ⟨x, hx, hcount.mono (by omega) (by omega)⟩
  obtain ⟨next, hnext, hcount⟩ := nextVersion_of_isCount hcounts
  rw [hversion] at hnext
  cases hnext
  exact hcount

include hrecord

variable (version createdAt) in
theorem isPlain_of_mem_added : ∀ r ∈ records ++ [.table (completeRecord record subject version
    createdAt)], r.IsPlain := by
  intro r hr
  rcases List.mem_append.mp hr with hr | hr
  · exact isPlain_of_recordList hledger hrecords r hr
  · rw [List.mem_singleton.mp hr]
    exact hrecord.isPlain_complete subject version createdAt

variable (hreduced : (setRecords ledger entry subject (records ++ [.table (completeRecord record
  subject version createdAt)])).serial? = some reduced)

include hreduced

theorem search_number_reduced (n : Number) : search reduced entry subject (.number n) =
    (sortByVersion (Value.serialItems (records ++ [.table (completeRecord record subject version
      createdAt)]))).bind (select (.number n)) := by
  have hfound := stored_serial hledger.hasTables entry subject
    (isPlain_of_mem_added hledger hrecords hrecord version createdAt) hreduced
  rw [search, hfound]
  rfl

/-- The ledger with a record whose numbers are finite is accepted again. -/
theorem accepts_reduced (hversion : nextVersion records = .ok version)
    (hthreshold : HasFiniteThreshold record) : schema.accepts reduced = true := by
  have hplain := isPlain_of_mem_added hledger hrecords hrecord version createdAt
  have haccepted := accepts_setRecords hledger.hasTables entry subject _ hplain hledger.accepted
    fun hkey r hr => by
      rcases List.mem_append.mp hr with hr | hr
      · exact accepts_of_recordList hledger hrecords hkey r hr
      · rw [List.mem_singleton.mp hr]
        exact hrecord.accepts_complete hthreshold subject
          (isCount_of_nextVersion hledger hrecords hversion hkey) createdAt
  exact (Schema.keepsReductions schema).serial
    (hledger.hasTables.setRecords entry subject _ hplain).plain hreduced haccepted

/-- A record whose numbers are finite is found under its version. -/
theorem keptRecord_mem_search (hversion : nextVersion records = .ok version)
    (hthreshold : HasFiniteThreshold record) (hfinite : version.isFinite = true) :
    ∃ found, search reduced entry subject (.number version) = .ok found ∧
      .table (keptRecord (completeRecord record subject version createdAt)) ∈ found := by
  have hplain := isPlain_of_mem_added hledger hrecords hrecord version createdAt
  have hversions : ∀ r ∈ records ++ [.table (completeRecord record subject version createdAt)],
      ∃ x, version? r = some x ∧ x ≠ .nan := by
    intro r hr
    rcases List.mem_append.mp hr with hr | hr
    · exact version?_of_nextVersion hversion hfinite r hr
    · rw [List.mem_singleton.mp hr]
      refine ⟨version, ?_, ?_⟩
      · simp [version?, Value.member_table, get?_completeRecord, Value.toNumber?]
      · rintro rfl
        simp [Number.isFinite] at hfinite
  obtain ⟨found, hfound, hmem⟩ := select_number_serial hplain hversions version
  refine ⟨found, ?_, hmem _ ?_ (versionIs_keptRecord hrecord subject hfinite createdAt)⟩
  · rw [search_number_reduced hledger hrecords hrecord hreduced, hfound]
  · have hvalues : ∀ f ∈ completeRecord record subject version createdAt, IsFieldValue f.2 :=
      fun f hf => hrecord.isFieldValue subject version createdAt hf
    have hnumbers : ∀ name x, (name, .number x) ∈ completeRecord record subject version
        createdAt → x.isFinite = true :=
      fun name x hx => hrecord.isFinite_of_mem subject version createdAt hthreshold hfinite hx
    rw [Value.serialItems_eq_map, List.map_append, List.mem_append, List.map_singleton,
      List.mem_singleton, Value.serial?_table fun f hf => (hvalues f hf).isPlain,
      serialMembers_eq_keptRecord hvalues hnumbers]
    exact Or.inr rfl

/-- A record that is found has finite numbers. -/
theorem isFinite_of_keptRecord_mem {found : List Value} {n : Number}
    (hfound : search reduced entry subject (.number n) = .ok found)
    (hmem : .table (keptRecord (completeRecord record subject version createdAt)) ∈ found)
    {name : String} {x : Number}
    (hx : (name, .number x) ∈ completeRecord record subject version createdAt) :
    x.isFinite = true := by
  rw [search_number_reduced hledger hrecords hrecord hreduced] at hfound
  cases hsorted : sortByVersion (Value.serialItems (records ++ [.table (completeRecord record
      subject version createdAt)])) with
  | error failure =>
      rw [hsorted] at hfound
      cases hfound
  | ok sorted =>
      rw [hsorted] at hfound
      have hselected : select (.number n) sorted = .ok found := hfound
      have hitem := (perm_of_sortByVersion hsorted).mem_iff.mp (mem_of_select hselected _ hmem)
      have hdocument := isDocument_of_mem_serialItems
        (isPlain_of_mem_added hledger hrecords hrecord version createdAt) _ hitem
      exact isFinite_of_isDocument_keptRecord hdocument hx

end

end Ledger

namespace LedgerStore

open Ledger

variable {store : LedgerStore} {entry : StoreEntry} {subject : String}
  {record added : Dict Value} {world world' : World Devices}

/-- What is found after an addition has finite numbers. -/
theorem isFinite_of_found_after_add (hrecord : IsNewRecord record)
    (hadd : store.add entry subject record world = (.ok added, world')) {loaded : Value}
    (hload : store.load world' = (.ok loaded, world')) {found : List Value} {n : Number}
    (hsearch : store.search subject entry (.number n) world' = (.ok found, world'))
    (hmem : .table (keptRecord added) ∈ found) {name : String} {x : Number}
    (hx : (name, .number x) ∈ added) : x.isFinite = true := by
  obtain ⟨ledger, records, version, instant, hbefore, hrecords, hversion, _, rfl, hsave⟩ :=
    (add_eq_ok_iff store).mp hadd
  have hledger := isLedger_of_ledgerIn hbefore
  have htables := hledger.hasTables.setRecords entry subject _
    (isPlain_of_mem_added hledger hrecords hrecord version instant.isoText)
  obtain ⟨reduced, hreduced⟩ := htables.exists_serial
  have hloaded := ledgerIn_of_save htables.plain hreduced hsave
  rw [load_eq_ok_iff, hloaded] at hload
  obtain ⟨_, rfl⟩ := Schema.accepts_of_checkValue hload.1
  rw [search_apply, hloaded, hload.1] at hsearch
  exact isFinite_of_keptRecord_mem hledger hrecords hrecord hreduced
    (Prod.mk.inj hsearch).1 hmem hx

/--
After an addition the ledger is read again and the record is found in it, exactly when
the threshold of the record and the version that it got are finite.  The version is
finite under every domain name whose records are checked.
-/
theorem add_leaves_store_readable_iff (store : LedgerStore) (entry : StoreEntry)
    (subject : String) {record added : Dict Value} {world world' : World Devices}
    (hrecord : IsNewRecord record)
    (hadd : store.add entry subject record world = (.ok added, world')) :
    ∃ version, added.get? "version" = some (.number version) ∧
      ((∃ ledger found, store.load world' = (.ok ledger, world') ∧
          store.search subject entry (.number version) world' = (.ok found, world') ∧
          .table (keptRecord added) ∈ found) ↔
        HasFiniteThreshold record ∧ version.isFinite = true) ∧
      (Schema.isCheckedKey subject = true → version.isFinite = true) := by
  obtain ⟨ledger, records, version, instant, hload, hrecords, hversion, _, rfl, hsave⟩ :=
    (add_eq_ok_iff store).mp hadd
  have hledger := isLedger_of_ledgerIn hload
  have htables := hledger.hasTables.setRecords entry subject _
    (isPlain_of_mem_added hledger hrecords hrecord version instant.isoText)
  obtain ⟨reduced, hreduced⟩ := htables.exists_serial
  have hloaded := ledgerIn_of_save htables.plain hreduced hsave
  refine ⟨version, by simp [get?_completeRecord], ⟨?_, ?_⟩,
    fun hkey => (isCount_of_nextVersion hledger hrecords hversion hkey).isFinite⟩
  · rintro ⟨loaded, found, hread, hsearched, hmem⟩
    have hnumbers : ∀ name x, (name, .number x) ∈ completeRecord record subject version
        instant.isoText → x.isFinite = true :=
      fun name x hx => isFinite_of_found_after_add hrecord hadd hread hsearched hmem hx
    refine ⟨fun x hx => hnumbers "threshold" x ?_, hnumbers "version" version ?_⟩
    · apply Dict.mem_of_get?
      simpa [get?_completeRecord] using Dict.get?_of_mem hrecord.ordered.nodup hx
    · exact Dict.mem_of_get? (by simp [get?_completeRecord])
  · rintro ⟨hthreshold, hfinite⟩
    have hread : store.ledgerIn world'.tree = .ok reduced := by
      rw [hloaded]
      exact Schema.checkValue_of_accepts _ _
        (accepts_reduced hledger hrecords hrecord hreduced hversion hthreshold)
    obtain ⟨found, hfound, hmem⟩ :=
      keptRecord_mem_search hledger hrecords hrecord hreduced hversion hthreshold hfinite
    refine ⟨reduced, found, (load_eq_ok_iff store).mpr ⟨hread, rfl⟩, ?_, hmem⟩
    rw [search_apply, hread, ← hfound]
    rfl

theorem isNewRecord_threshold (x : Number) :
    IsNewRecord [("file", .text "model.pt"), ("threshold", .number x)] where
  ordered := Dict.isOrdered_of_keys_eq
    (d := [("file", ()), ("threshold", ())]) rfl (by decide)
  file := ⟨"model.pt", by simp⟩
  fields := by
    simp only [List.forall_mem_cons, List.not_mem_nil, false_implies, implies_true, and_true]
    exact ⟨.file "model.pt", .threshold x⟩

theorem add_leaves_store_readable_iff_negative_zero :
    IsNewRecord [("file", .text "model.pt"), ("threshold", .number (.finite true .zero))] ∧
      ∃ added world', (⟨["store"]⟩ : LedgerStore).add .models "a"
          [("file", .text "model.pt"), ("threshold", .number (.finite true .zero))] .fresh =
            (.ok added, world') ∧
        ∃ version, added.get? "version" = some (.number version) ∧
          ((∃ ledger found, (⟨["store"]⟩ : LedgerStore).load world' = (.ok ledger, world') ∧
              (⟨["store"]⟩ : LedgerStore).search "a" .models (.number version) world' =
                (.ok found, world') ∧
              .table (keptRecord added) ∈ found) ↔
            HasFiniteThreshold
              [("file", .text "model.pt"), ("threshold", .number (.finite true .zero))] ∧
              version.isFinite = true) ∧
          (Schema.isCheckedKey "a" = true → version.isFinite = true) := by
  have hrecord := isNewRecord_threshold (.finite true .zero)
  obtain ⟨added, world', hadd⟩ : ∃ added world', (⟨["store"]⟩ : LedgerStore).add .models "a"
      [("file", .text "model.pt"), ("threshold", .number (.finite true .zero))] .fresh =
        (.ok added, world') :=
    Operation.exists_of_isOk (by decide +kernel)
  exact ⟨hrecord, added, world', hadd, add_leaves_store_readable_iff _ _ _ hrecord hadd⟩

/-- An addition can succeed and leave a store in which the record is not found. -/
theorem not_forall_add_leaves_store_readable :
    ¬∀ (store : LedgerStore) (entry : StoreEntry) (subject : String) (record added : Dict Value)
      (world world' : World Devices), IsNewRecord record →
      store.add entry subject record world = (.ok added, world') →
      ∃ version ledger found, added.get? "version" = some (.number version) ∧
        store.load world' = (.ok ledger, world') ∧
        store.search subject entry (.number version) world' = (.ok found, world') ∧
        .table (keptRecord added) ∈ found := by
  intro h
  -- The threshold is no number: it is written as null, which the schema refuses.
  have hrecord := isNewRecord_threshold .nan
  obtain ⟨added, world', hadd⟩ : ∃ added world', (⟨["store"]⟩ : LedgerStore).add .models "a"
      [("file", .text "model.pt"), ("threshold", .number .nan)] .fresh = (.ok added, world') :=
    Operation.exists_of_isOk (by decide +kernel)
  obtain ⟨version, ledger, found, _, hload, hsearch, hmem⟩ := h _ _ _ _ _ _ _ hrecord hadd
  obtain ⟨_, _, version', instant, _, _, _, _, hadded, _⟩ := (add_eq_ok_iff _).mp hadd
  have hthreshold : ("threshold", .number .nan) ∈ added := by
    rw [hadded]
    exact Dict.mem_of_get? (by simp [get?_completeRecord, Dict.get?_cons])
  have hfinite := isFinite_of_found_after_add hrecord hadd hload hsearch hmem hthreshold
  cases hfinite

end LedgerStore

end Dispatch
