import Dispatch.Proofs.Store.Numbering
import Dispatch.Proofs.Store.Readability

/-!
# What searches find

A ledger may have been edited by hand: the records of a domain stand in any order, and
several can have one version.  Searching sorts them by version and keeps those of one version
in the order of the file.  The three ways of searching select from the same sorted list, so
that they agree with each other.

`LedgerStore.searches_agree` puts this together with what loading makes of the file, and with
what is answered for a domain without records.
-/

namespace Dispatch

namespace Number

variable {x y : Number} {a b : Int}

theorem exists_units_of_isFinite (h : x.isFinite = true) : ∃ a, x.units? = some a := by
  cases x with
  | finite negative m => exact ⟨signed negative m, rfl⟩
  | nan => cases h
  | infinite negative => cases h

/-- Finite numbers are compared by their units. -/
theorem less_of_units (hx : x.units? = some a) (hy : y.units? = some b) :
    x.less y = decide (a < b) := by
  cases x with
  | finite negative m =>
      cases y with
      | finite negative' m' =>
          cases hx
          cases hy
          rfl
      | _ => cases hy
  | _ => cases hx

/-- A number equals a finite one where it has the same units. -/
theorem equal_iff_units (hx : x.units? = some a) : x.equal y = true ↔ y.units? = some a := by
  cases x with
  | finite negative m =>
      cases hx
      cases y with
      | finite negative' m' => simp [equal, units?, eq_comm]
      | nan => simp [equal, units?]
      | infinite negative' => simp [equal, units?]
  | _ => cases hx

end Number

namespace Ledger

/-! ## Records with a finite version -/

/-- A record whose version is a finite number. -/
def IsVersioned (record : Value) : Prop :=
  ∃ x : Number, record.member "version" = .number x ∧ x.isFinite = true

/-- The version of a record in units, where it has a finite one. -/
def versionUnits (record : Value) : Int :=
  ((version? record).bind Number.units?).getD 0

theorem IsVersioned.of_accepts {record : Value} (hplain : record.IsPlain)
    (h : recordSchema.accepts record = true) : IsVersioned record := by
  obtain ⟨x, hx, hcount⟩ := member_version_of_accepts hplain h
  exact ⟨x, hx, hcount.isFinite⟩

section

variable {record other : Value} {records : List Value}

theorem IsVersioned.isTruthy (h : IsVersioned record) : record.isTruthy = true := by
  obtain ⟨x, hx, _⟩ := h
  cases record with
  | object kind members => rfl
  | _ => cases hx

theorem IsVersioned.units (h : IsVersioned record) :
    ∃ x, version? record = some x ∧ record.member "version" = .number x ∧
      x.units? = some (versionUnits record) := by
  obtain ⟨x, hx, hfinite⟩ := h
  obtain ⟨a, ha⟩ := Number.exists_units_of_isFinite hfinite
  have hversion := version?_of_member hx
  refine ⟨x, hversion, hx, ?_⟩
  rw [versionUnits, hversion, Option.bind_some, ha, Option.getD_some]

theorem IsVersioned.versionLe_eq (h : IsVersioned record) (h' : IsVersioned other) :
    versionLe record other = decide (versionUnits record ≤ versionUnits other) := by
  obtain ⟨x, hx, _, hunits⟩ := h.units
  obtain ⟨y, hy, _, hunits'⟩ := h'.units
  rw [versionLe, hx, hy]
  simp only [Number.less_of_units hunits' hunits, ← decide_not, Int.not_lt]

theorem IsVersioned.versionLess_eq (h : IsVersioned record) (h' : IsVersioned other) :
    versionLess record other = decide (versionUnits record < versionUnits other) := by
  obtain ⟨x, hx, _, hunits⟩ := h.units
  obtain ⟨y, hy, _, hunits'⟩ := h'.units
  rw [versionLess, hx, hy]
  exact Number.less_of_units hunits hunits'

/-- A record has a version exactly when the units are the same. -/
theorem IsVersioned.versionIs_iff (h : IsVersioned record) (version : Number) :
    versionIs version record = true ↔ version.units? = some (versionUnits record) := by
  obtain ⟨x, _, hx, hunits⟩ := h.units
  rw [versionIs, hx]
  exact Number.equal_iff_units hunits

theorem IsVersioned.hasVersion_eq (h : IsVersioned record) (version : Number) :
    hasVersion version record = .ok (versionIs version record) := by
  obtain ⟨x, hx, _⟩ := h
  cases record with
  | object kind members => simp only [hasVersion, versionIs, hx]
  | _ => cases hx

/-! ## The sorted list -/

/-- A list of records in ascending order, in which those of one version keep their order. -/
structure SortsTo (records sorted : List Value) : Prop where
  perm : sorted.Perm records
  ascending : sorted.Pairwise fun earlier later => versionLess later earlier = false
  stable : ∀ version, sorted.filter (versionIs version) = records.filter (versionIs version)

/-- Records with finite versions are merged by their units, which are totally ordered. -/
theorem sortByVersion_eq_mergeSort (h : ∀ record ∈ records, IsVersioned record) :
    sortByVersion records =
      .ok (records.mergeSort fun a b => decide (versionUnits a ≤ versionUnits b)) := by
  have hmerge := List.map_mergeSort (r := versionLe)
    (s := fun a b => decide (versionUnits a ≤ versionUnits b)) (f := id) (l := records)
    fun a ha b hb => (h a ha).versionLe_eq (h b hb)
  rw [List.map_id, List.map_id] at hmerge
  rw [sortByVersion_of_numbers, hmerge]
  intro record hrecord
  obtain ⟨x, hx, _, hunits⟩ := (h record hrecord).units
  refine ⟨x, hx, ?_⟩
  rintro rfl
  cases hunits

theorem sortsTo_mergeSort (h : ∀ record ∈ records, IsVersioned record) :
    SortsTo records (records.mergeSort fun a b => decide (versionUnits a ≤ versionUnits b)) := by
  have htrans (a b c : Value) (hab : decide (versionUnits a ≤ versionUnits b) = true)
      (hbc : decide (versionUnits b ≤ versionUnits c) = true) :
      decide (versionUnits a ≤ versionUnits c) = true := by
    rw [decide_eq_true_iff] at hab hbc ⊢
    exact Int.le_trans hab hbc
  have htotal (a b : Value) : (decide (versionUnits a ≤ versionUnits b) ||
      decide (versionUnits b ≤ versionUnits a)) = true := by
    rw [Bool.or_eq_true, decide_eq_true_iff, decide_eq_true_iff]
    exact Int.le_total _ _
  have hperm := List.mergeSort_perm records
    fun a b => decide (versionUnits a ≤ versionUnits b)
  refine ⟨hperm, ?_, fun version => ?_⟩
  · apply (List.pairwise_mergeSort htrans htotal records).imp_of_mem
    intro earlier later hearlier hlater hle
    have hearlier' := h earlier (hperm.mem_iff.mp hearlier)
    have hlater' := h later (hperm.mem_iff.mp hlater)
    rw [hlater'.versionLess_eq hearlier', decide_eq_false_iff_not, Int.not_lt]
    exact of_decide_eq_true hle
  · -- Records of one version have the same units, so that their list is sorted already.
    have hunits : ∀ record ∈ records.filter (versionIs version),
        version.units? = some (versionUnits record) := by
      intro record hrecord
      obtain ⟨hmem, hversion⟩ := List.mem_filter.mp hrecord
      exact ((h record hmem).versionIs_iff version).mp hversion
    have hsame : (records.filter (versionIs version)).Pairwise
        fun a b => decide (versionUnits a ≤ versionUnits b) = true := by
      apply List.pairwise_of_forall_mem_list
      intro a ha b hb
      have hequal := (hunits a ha).symm.trans (hunits b hb)
      rw [Option.some.inj hequal]
      exact decide_eq_true (Int.le_refl _)
    have hsublist := (List.sublist_mergeSort htrans htotal hsame List.filter_sublist).filter
      (versionIs version)
    rw [List.filter_filter] at hsublist
    simp only [Bool.and_self] at hsublist
    exact (hsublist.eq_of_length (hperm.filter _).length_eq.symm).symm

theorem SortsTo.eq_nil_iff (h : SortsTo records sorted) : sorted = [] ↔ records = [] := by
  rw [← List.length_eq_zero_iff, h.perm.length_eq, List.length_eq_zero_iff]

/-- A record of the largest version, the last one of that version. -/
structure IsLatest (records : List Value) (record : Value) : Prop where
  mem : record ∈ records
  largest : ∀ other ∈ records, versionLess record other = false
  last : ∃ version, record.member "version" = .number version ∧
    (records.filter (versionIs version)).getLast? = some record

/-- The last of sorted records is the latest one. -/
theorem SortsTo.isLatest (h : SortsTo records sorted)
    (hversioned : ∀ record ∈ records, IsVersioned record)
    (hlast : sorted.getLast? = some record) : IsLatest records record := by
  have hmem : record ∈ records := h.perm.mem_iff.mp (List.mem_of_getLast? hlast)
  have hrecord := hversioned record hmem
  obtain ⟨front, rfl⟩ := List.getLast?_eq_some_iff.mp hlast
  refine ⟨hmem, fun other hother => ?_, ?_⟩
  · rcases List.mem_append.mp (h.perm.mem_iff.mpr hother) with hfront | hsame
    · exact (List.pairwise_append.mp h.ascending).2.2 other hfront record (by simp)
    · rw [List.mem_singleton.mp hsame, hrecord.versionLess_eq hrecord]
      exact decide_eq_false (Int.lt_irrefl _)
  · obtain ⟨version, _, hversion, hunits⟩ := hrecord.units
    have hsame : versionIs version record = true := (hrecord.versionIs_iff version).mpr hunits
    refine ⟨version, hversion, ?_⟩
    rw [← h.stable, List.filter_append, List.filter_cons_of_pos hsame, List.filter_nil,
      List.getLast?_concat]

/-! ## The ways of searching -/

/-- What the ways of searching find of records, in accordance with each other. -/
structure Finds (records sorted : List Value)
    (found : StoreVersion → Except Failure (List Value)) : Prop where
  sorts : SortsTo records sorted
  all : found .all = .ok sorted
  latest : found .latest = .ok sorted.getLast?.toList
  latest_eq_nil_iff : found .latest = .ok [] ↔ records = []
  isLatest : ∀ record, found .latest = .ok [record] → IsLatest records record
  number : ∀ version, found (.number version) = .ok (sorted.filter (versionIs version))

/-- Records with finite versions are found in all ways. -/
theorem finds_select (h : ∀ record ∈ records, IsVersioned record) :
    ∃ sorted, Finds records sorted fun version =>
      (sortByVersion records).bind (select version) := by
  have hsorts := sortsTo_mergeSort h
  rw [sortByVersion_eq_mergeSort h]
  generalize (records.mergeSort fun a b => decide (versionUnits a ≤ versionUnits b)) = sorted
    at hsorts ⊢
  have hsorted : ∀ record ∈ sorted, IsVersioned record := fun record hrecord =>
    h record (hsorts.perm.mem_iff.mp hrecord)
  have hlatest : select .latest sorted = .ok sorted.getLast?.toList := by
    rw [select, List.filter_eq_self.mpr]
    intro record hrecord
    exact (hsorted record (List.mem_of_getLast? (Option.mem_toList.mp hrecord))).isTruthy
  have hnil : select .latest sorted = .ok [] ↔ records = [] := by
    rw [hlatest, ← hsorts.eq_nil_iff, ← List.getLast?_eq_none_iff]
    cases sorted.getLast? <;> simp
  refine ⟨sorted, hsorts, rfl, hlatest, hnil, fun record hrecord => ?_, fun version => ?_⟩
  · have hsame : select .latest sorted = .ok [record] := hrecord
    rw [hlatest, Except.ok.injEq] at hsame
    exact hsorts.isLatest h (Option.toList_eq_singleton_iff.mp hsame)
  · exact filterM_eq_filter fun record hrecord => (hsorted record hrecord).hasVersion_eq version

end

/-! ## Domains of a ledger -/

/-- What is found in a ledger, by how the name of a domain stands in the table. -/
structure IsSearched (ledger : Value) (entry : StoreEntry) (subject : String) : Prop where
  listed : ∀ records, (entryTable ledger entry).get? subject = some (.list records) →
    (∀ record ∈ records, recordSchema.accepts record = true) →
    ∃ sorted, Finds records sorted (search ledger entry subject)
  absent : (entryTable ledger entry).get? subject = none → subject ∉ Dict.builtinNames →
    ∀ version, search ledger entry subject version = .ok []
  inherited : (entryTable ledger entry).get? subject = none → subject ∈ Dict.builtinNames →
    ∀ version, search ledger entry subject version = .error .badOperand

theorem search_of_records {ledger : Value} {entry : StoreEntry} {subject : String}
    {records : List Value}
    (h : recordsToSearch (stored (entryTable ledger entry) subject) = .ok records) :
    search ledger entry subject = fun version => (sortByVersion records).bind (select version) := by
  funext version
  rw [search, h]
  rfl

theorem IsLedger.isSearched {ledger : Value} (h : IsLedger ledger) (entry : StoreEntry)
    (subject : String) : IsSearched ledger entry subject where
  listed records hlisted haccepted := by
    have hstored : stored (entryTable ledger entry) subject = .list records := by
      rw [stored, hlisted]
    have hlist : recordList (stored (entryTable ledger entry) subject) = .ok records := by
      rw [hstored, recordList]
    have hfound : recordsToSearch (stored (entryTable ledger entry) subject) = .ok records := by
      rw [hstored]
      rfl
    have hplain := isPlain_of_recordList h hlist
    obtain ⟨sorted, hfinds⟩ := finds_select fun record hrecord =>
      IsVersioned.of_accepts (hplain record hrecord) (haccepted record hrecord)
    refine ⟨sorted, ?_⟩
    rw [search_of_records hfound]
    exact hfinds
  absent hnone hname version := by
    have hstored : stored (entryTable ledger entry) subject = .missing := by
      simp only [stored, hnone, if_neg hname]
    have hnil : sortByVersion [] = .ok [] := sortByVersion_of_pairwise (by simp) .nil
    have hfound : recordsToSearch (stored (entryTable ledger entry) subject) = .ok [] := by
      rw [hstored]
      rfl
    rw [search_of_records hfound, hnil]
    rcases version with _ | _ | version
    · rfl
    · rfl
    · rfl
  inherited hnone hname version := by
    have hstored : stored (entryTable ledger entry) subject = .atom .function := by
      simp only [stored, hnone, if_pos hname]
    rw [search, hstored]
    rfl

/-- What loading makes of what reading the file gives. -/
inductive LoadsAs (path : String) :
    Except FileError (List UInt8) → Except Failure Value → Prop
  | missing : LoadsAs path (.error .notFound) (.ok empty)
  | unreadable {error : FileError} (h : error ≠ .notFound) :
      LoadsAs path (.error error) (.error (.unreadableLedger path))
  | notDocument {bytes : List UInt8} (h : Json.read? (Utf8.decode bytes) = none) :
      LoadsAs path (.ok bytes) (.error (.ledgerNotJson path))
  | refused {bytes : List UInt8} {value : Value} {violation : Violation}
      (hread : Json.read? (Utf8.decode bytes) = some value)
      (h : schema.accepts value = false) :
      LoadsAs path (.ok bytes) (.error (.refused .store ("store ledger " ++ path) violation))
  | accepted {bytes : List UInt8} {value : Value}
      (hread : Json.read? (Utf8.decode bytes) = some value)
      (h : schema.accepts value = true) : LoadsAs path (.ok bytes) (.ok value)

/-- A ledger that is not loaded is a failure of the store. -/
theorem LoadsAs.realm_eq {path : String} {bytes : Except FileError (List UInt8)}
    {failure : Failure} (h : LoadsAs path bytes (.error failure)) : failure.realm = .store := by
  cases h with
  | unreadable _ => rfl
  | notDocument _ => rfl
  | refused _ _ => rfl

theorem loadsAs_ofText (path : String) (bytes : List UInt8) :
    LoadsAs path (.ok bytes) (ofText path (Utf8.decode bytes)) := by
  rw [ofText]
  split
  next hread => exact .notDocument hread
  next value hread =>
    rw [Schema.checkValue]
    split
    next hnone => exact .accepted hread (Schema.accepts_iff.mpr hnone)
    next violation hviolation =>
      refine .refused hread (Bool.eq_false_iff.mpr fun haccepted => ?_)
      rw [Schema.accepts_iff, hviolation] at haccepted
      cases haccepted

end Ledger

namespace LedgerStore

open Ledger

variable {σ : Type} (store : LedgerStore)

theorem loadsAs_ledgerIn (tree : FileTree) :
    LoadsAs store.ledgerPath (tree.read store.ledgerFile) (store.ledgerIn tree) := by
  rw [ledgerIn]
  split
  next bytes hread =>
    rw [hread]
    exact loadsAs_ofText _ bytes
  next hread =>
    rw [hread]
    exact .missing
  next error hother hread =>
    rw [hread]
    exact .unreadable fun hmissing => hother hmissing

/--
Searching loads the ledger and finds records in it, in ways that agree, and neither changes
the world.  It fails as loading does, for a cause of the store.
-/
theorem searches_agree (world : World σ) (entry : StoreEntry) (subject : String) :
    ∃ loaded, store.load world = (loaded, world) ∧
      LoadsAs store.ledgerPath (world.tree.read store.ledgerFile) loaded ∧
      (∀ failure, loaded = .error failure → failure.realm = .store) ∧
      (∀ version, store.search subject entry version world =
        (loaded.bind fun ledger => Ledger.search ledger entry subject version, world)) ∧
      ∀ ledger, loaded = .ok ledger → IsSearched ledger entry subject := by
  refine ⟨store.ledgerIn world.tree, store.load_apply world, store.loadsAs_ledgerIn world.tree,
    fun failure hfailure => ?_, fun version => store.search_apply subject entry version world,
    fun ledger hledger => (isLedger_of_ledgerIn hledger).isSearched entry subject⟩
  exact (hfailure ▸ store.loadsAs_ledgerIn world.tree).realm_eq

end LedgerStore

end Dispatch
