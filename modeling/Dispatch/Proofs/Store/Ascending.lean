import Dispatch.Proofs.Store.Log

/-!
# Ledgers of any number of additions

Doubles count only so far, and a threshold that is not finite is written as null.  Still the
versions that additions give to the records of a domain never fall, and sorting keeps records
of one version in their order.  So the record that was added last is the latest one, however
many there are and whatever they hold.

A ledger of such additions holds the documents of the records.
-/

namespace Dispatch

namespace Number

/-- A number that counts from one has no sign to lose. -/
theorem IsCount.settled_eq {x : Number} (h : IsCount 1 x) : x.settled = x := by
  cases x with
  | finite negative m =>
      have hone := ((isCount_finite_iff (by omega)).mp h).2
      have hpos : (0 : Int) < one := Int.natCast_pos.mpr one_pos
      cases negative with
      | true =>
          simp only [signed, if_true] at hone
          omega
      | false => rfl
  | _ => rfl

end Number

namespace Ledger

/-! ## The version of one more record -/

/-- The largest version is below none of the versions. -/
theorem not_less_of_foldlM {records : List Value} {start largest : Number}
    (hstart : start.IsCount 0)
    (hcounts : ∀ record ∈ records, ∃ x, version? record = some x ∧ x.IsCount 0)
    (h : records.foldlM largerVersion start = .ok largest) :
    largest.IsCount 0 ∧ largest.less start = false ∧
      ∀ record ∈ records, ∀ x, version? record = some x → largest.less x = false := by
  induction records generalizing start with
  | nil =>
      cases h
      exact ⟨hstart, largest.not_less_self, by simp⟩
  | cons record rest ih =>
      obtain ⟨⟨x, hx, hcount⟩, hrest⟩ := List.forall_mem_cons.mp hcounts
      have hmax := hstart.max hcount
      obtain ⟨hstartLe, hxLe⟩ := Number.not_less_max hstart.isFinite hcount.isFinite
      rw [List.foldlM_cons, largerVersion, hx] at h
      obtain ⟨hlargest, hbefore, hafter⟩ := ih hmax hrest h
      refine ⟨hlargest, Number.not_less_trans hmax.isFinite hbefore hstartLe, ?_⟩
      refine List.forall_mem_cons.mpr ⟨fun y hy => ?_, hafter⟩
      rw [hx, Option.some.injEq] at hy
      exact hy ▸ Number.not_less_trans hmax.isFinite hbefore hxLe

/-- The version of one more record counts, and is below none of the versions before. -/
theorem not_less_of_nextVersion {records : List Value} {version : Number}
    (hcounts : ∀ record ∈ records, ∃ x, version? record = some x ∧ x.IsCount 0)
    (h : nextVersion records = .ok version) :
    version.IsCount 1 ∧ ∀ record ∈ records, ∀ x, version? record = some x →
      version.less x = false := by
  obtain ⟨largest, hlargest, hversion⟩ := exists_of_bind_eq_ok h
  cases hversion
  obtain ⟨hcount, _, hbounds⟩ := not_less_of_foldlM Number.isCount_zero hcounts hlargest
  refine ⟨hcount.add_one, fun record hrecord x hx => ?_⟩
  exact Number.not_less_trans hcount.isFinite hcount.not_less_add_one (hbounds record hrecord x hx)

/-! ## Ascending records -/

/-- Records as documents have them. -/
def documents (records : List (Dict Value)) : List Value :=
  records.map fun record => .table (Value.serialMembers record)

/-- A record with a version that counts, as an addition completes one. -/
def IsCompleted (subject : String) (record : Dict Value) : Prop :=
  ∃ given version createdAt, IsNewRecord given ∧ version.IsCount 1 ∧
    record = completeRecord given subject version createdAt

/-- Completed records of a domain with versions that never fall. -/
structure IsAscending (subject : String) (records : List (Dict Value)) : Prop where
  completed : ∀ record ∈ records, IsCompleted subject record
  ordered : (documents records).Pairwise fun earlier later => versionLe earlier later = true

section

variable {subject : String} {record : Dict Value}

theorem IsCompleted.isPlain (h : IsCompleted subject record) : (Value.table record).IsPlain := by
  obtain ⟨given, version, createdAt, hgiven, _, rfl⟩ := h
  exact hgiven.isPlain_complete subject version createdAt

theorem IsCompleted.serial?_eq (h : IsCompleted subject record) :
    (Value.table record).serial? = some (.table (Value.serialMembers record)) :=
  Value.serial?_table (Value.isPlain_table_iff.mp h.isPlain).2

/-- A member of the document of a record is the document of the member. -/
theorem IsCompleted.member_document (h : IsCompleted subject record) (name : String) :
    (Value.table (Value.serialMembers record)).member name =
      ((record.get? name).bind Value.serial?).getD .missing := by
  rw [Value.member_table, Value.get?_serialMembers (Value.isPlain_table_iff.mp h.isPlain).1.nodup]

/-- The document of a record has its version. -/
theorem version?_document {given : Dict Value} (hgiven : IsNewRecord given) (subject : String)
    {version : Number} (hversion : version.IsCount 1) (createdAt : String) :
    version? (.table (Value.serialMembers (completeRecord given subject version createdAt))) =
      some version := by
  have hcompleted : IsCompleted subject (completeRecord given subject version createdAt) :=
    ⟨given, version, createdAt, hgiven, hversion, rfl⟩
  have hserial : (Value.number version).serial? = some (.number version) := by
    rw [Value.serial?, Number.serial?_of_isFinite hversion.isFinite, hversion.settled_eq]
    rfl
  change ((Value.table (Value.serialMembers _)).member "version").toNumber? = _
  rw [hcompleted.member_document, get?_completeRecord, if_neg (by decide), if_pos rfl,
    Option.bind_some, hserial]
  rfl

theorem IsCompleted.exists_version (h : IsCompleted subject record) :
    ∃ version, version? (.table (Value.serialMembers record)) = some version ∧
      version.IsCount 1 := by
  obtain ⟨given, version, createdAt, hgiven, hversion, rfl⟩ := h
  exact ⟨version, version?_document hgiven subject hversion createdAt, hversion⟩

end

theorem isAscending_nil (subject : String) : IsAscending subject [] where
  completed := by simp
  ordered := List.Pairwise.nil

section

variable {subject : String} {records : List (Dict Value)} (h : IsAscending subject records)

include h

theorem IsAscending.exists_version {value : Value} (hvalue : value ∈ documents records) :
    ∃ version, version? value = some version ∧ version.IsCount 1 := by
  obtain ⟨record, hrecord, rfl⟩ := List.mem_map.mp hvalue
  exact (h.completed record hrecord).exists_version

theorem IsAscending.isDocument {value : Value} (hvalue : value ∈ documents records) :
    value.IsDocument := by
  obtain ⟨record, hrecord, rfl⟩ := List.mem_map.mp hvalue
  have hcompleted := h.completed record hrecord
  exact hcompleted.isPlain.isDocument hcompleted.serial?_eq

/-- Documents of records are their own reductions, and one more record is reduced to its own. -/
theorem IsAscending.serial?_list : (Value.list (documents records)).serial? =
    some (.list (documents records)) :=
  (Value.IsDocument.list fun _ hvalue => h.isDocument hvalue).serial?_eq

theorem IsAscending.serial?_concat {record : Dict Value} (hrecord : IsCompleted subject record) :
    (Value.list (documents records ++ [.table record])).serial? =
      some (.list (documents (records ++ [record]))) := by
  have hdocuments := h.serial?_list
  rw [Value.serial?, Option.some.injEq, Value.list.injEq, Value.serialItems_eq_map] at hdocuments
  rw [Value.serial?, Value.serialItems_eq_map, List.map_append, hdocuments, List.map_singleton,
    hrecord.serial?_eq, Option.getD_some, documents, documents, List.map_append,
    List.map_singleton]

/-- One more record with the next version leaves records ascending. -/
theorem IsAscending.concat {given : Dict Value} (hgiven : IsNewRecord given) {version : Number}
    (hversion : nextVersion (documents records) = .ok version) (createdAt : String) :
    IsAscending subject (records ++ [completeRecord given subject version createdAt]) := by
  obtain ⟨hcount, hlast⟩ := not_less_of_nextVersion (fun value hvalue => by
    obtain ⟨x, hx, hone⟩ := h.exists_version hvalue
    exact ⟨x, hx, hone.mono (by omega) (by omega)⟩) hversion
  constructor
  · intro record hrecord
    rcases List.mem_append.mp hrecord with hbefore | hnew
    · exact h.completed record hbefore
    · rw [List.mem_singleton.mp hnew]
      exact ⟨given, version, createdAt, hgiven, hcount, rfl⟩
  · rw [documents, List.map_append, List.pairwise_append]
    refine ⟨h.ordered, List.pairwise_singleton _ _, fun earlier hearlier later hlater => ?_⟩
    rw [List.map_singleton, List.mem_singleton] at hlater
    obtain ⟨x, hx, _⟩ := h.exists_version hearlier
    rw [hlater, versionLe, hx, version?_document hgiven subject hcount createdAt]
    exact Bool.not_eq_eq_eq_not.mpr (hlast earlier hearlier x hx)

/-- Ascending records are sorted already. -/
theorem IsAscending.sortByVersion_documents :
    sortByVersion (documents records) = .ok (documents records) := by
  refine sortByVersion_of_pairwise (fun value hvalue => ?_) h.ordered
  obtain ⟨x, hx, hcount⟩ := h.exists_version hvalue
  refine ⟨x, hx, ?_⟩
  rintro rfl
  exact absurd hcount.isFinite (by decide)

omit h in
theorem select_latest_documents :
    select .latest (documents records) = .ok (documents records.getLast?.toList) := by
  rw [select, documents, List.getLast?_map]
  cases records.getLast? with
  | none => rfl
  | some record => rfl

end

/-! ## Ledgers that hold documents -/

/-- A ledger holds the documents of the records in a log. -/
def HoldsDocuments (ledger : Value) (log : Log) : Prop :=
  ∀ entry subject, (entryTable ledger entry).get? subject =
    if log entry subject = [] then none else some (.list (documents (log entry subject)))

/-- The records of a log are ascending, domain by domain. -/
def IsAscendingLog (log : Log) : Prop :=
  ∀ entry subject, IsAscending subject (log entry subject)

theorem holdsDocuments_empty : HoldsDocuments empty fun _ _ => [] := by
  intro entry subject
  cases entry <;> rfl

section

variable {ledger : Value} {log : Log} (h : HoldsDocuments ledger log)

include h

/-- Records that are found for a domain are those of the log; no other domain is answered. -/
theorem HoldsDocuments.eq_documents {entry : StoreEntry} {subject : String}
    {records : List Value}
    (hrecords : recordList (stored (entryTable ledger entry) subject) = .ok records) :
    records = documents (log entry subject) := by
  rw [stored, h entry subject] at hrecords
  by_cases hempty : log entry subject = []
  · rw [hempty]
    simp only [hempty, if_true] at hrecords
    split at hrecords
    next => cases hrecords
    next =>
      cases hrecords
      rfl
  · simp only [hempty, if_false, recordList] at hrecords
    cases hrecords
    rfl

theorem HoldsDocuments.recordsToSearch_eq (entry : StoreEntry) (subject : String) :
    recordsToSearch (stored (entryTable ledger entry) subject) =
      recordList (stored (entryTable ledger entry) subject) := by
  rw [stored, h entry subject]
  by_cases hempty : log entry subject = []
  · simp only [hempty, if_true]
    split <;> rfl
  · simp only [hempty, if_false]
    rfl

/-- The latest record that is found was added last. -/
theorem HoldsDocuments.search_latest {entry : StoreEntry} {subject : String}
    (hlog : IsAscending subject (log entry subject)) {found : List Value}
    (hfound : search ledger entry subject .latest = .ok found) :
    found = documents (log entry subject).getLast?.toList := by
  obtain ⟨records, hrecords, hfound⟩ := exists_of_bind_eq_ok hfound
  rw [h.recordsToSearch_eq] at hrecords
  cases h.eq_documents hrecords
  obtain ⟨sorted, hsorted, hfound⟩ := exists_of_bind_eq_ok hfound
  rw [hlog.sortByVersion_documents] at hsorted
  cases hsorted
  rw [select_latest_documents] at hfound
  exact (Except.ok.inj hfound).symm

/-- Written and read again, a ledger with one more record holds the log with that record. -/
theorem HoldsDocuments.concat (hlog : IsAscendingLog log) (hledger : HasTables ledger)
    {entry : StoreEntry} {subject : String} {record : Dict Value}
    (hrecord : IsCompleted subject record) {reduced : Value}
    (hreduced : (setRecords ledger entry subject
      (documents (log entry subject) ++ [.table record])).serial? = some reduced) :
    HoldsDocuments reduced (log.concat entry subject record) := by
  have hplain : ∀ value ∈ documents (log entry subject) ++ [.table record], value.IsPlain := by
    intro value hvalue
    rcases List.mem_append.mp hvalue with hbefore | hnew
    · exact ((hlog entry subject).isDocument hbefore).isPlain
    · rw [List.mem_singleton.mp hnew]
      exact hrecord.isPlain
  have htables := hledger.setRecords entry subject _ hplain
  intro other name
  have htable := Value.isPlain_table_iff.mp (htables.isPlain_entryTable other)
  have hothers : ((entryTable ledger other).get? name).bind Value.serial? =
      if log other name = [] then none else some (.list (documents (log other name))) := by
    rw [h other name]
    split
    next => rfl
    next => exact (hlog other name).serial?_list
  rw [htables.entryTable_serial hreduced, Value.get?_serialMembers htable.1.nodup,
    entryTable_setRecords hledger, Log.concat]
  by_cases hsame : other = entry ∧ name = subject
  · obtain ⟨rfl, rfl⟩ := hsame
    rw [if_pos rfl, Dict.get?_insert, if_pos rfl, Option.bind_some,
      (hlog other name).serial?_concat hrecord]
    simp
  · rw [if_neg hsame]
    split
    next hentry =>
      subst hentry
      rw [Dict.get?_insert, if_neg fun hname => hsame ⟨rfl, hname⟩]
      exact hothers
    next => exact hothers

end

end Ledger

end Dispatch
