import Dispatch.Proofs.Store.Versions
import Mathlib.Data.List.Induction

/-!
# Records numbered one after the other

Records that were added to an empty domain have the versions one, two and so on, which
doubles count exactly up to `2 ^ 53`.  For such records the next version is one more than
how many there are, sorting changes nothing, and a version stands for a place.
-/

namespace Dispatch

namespace Number

theorem settled_ofInt {n : Nat} (h : n ≤ 2 ^ 53) : (ofInt n).settled = ofInt n := by
  rw [ofInt_natCast h]
  rfl

theorem isFinite_ofInt {n : Nat} (h : n ≤ 2 ^ 53) : (ofInt n).isFinite = true := by
  rw [ofInt_natCast h]
  rfl

theorem ofInt_ne_nan {n : Nat} (h : n ≤ 2 ^ 53) : ofInt n ≠ .nan := by
  rw [ofInt_natCast h]
  simp

/-- A number equals at most one whole number. -/
theorem eq_of_equal_ofInt {a b : Nat} (ha : a ≤ 2 ^ 53) (hb : b ≤ 2 ^ 53) {x : Number}
    (hax : (ofInt a).equal x = true) (hbx : (ofInt b).equal x = true) : a = b := by
  rw [ofInt_natCast ha] at hax
  rw [ofInt_natCast hb] at hbx
  cases x with
  | nan => cases hax
  | infinite negative => cases hax
  | finite negative m =>
      have hfirst := of_decide_eq_true hax
      have hsecond := of_decide_eq_true hbx
      rw [← hsecond, signed_wholeMagnitude, signed_wholeMagnitude] at hfirst
      have hone : (one : Int) ≠ 0 := Int.natCast_ne_zero.mpr (Nat.pos_iff_ne_zero.mp one_pos)
      exact Int.ofNat_inj.mp ((Int.mul_eq_mul_right_iff hone).mp hfirst)

theorem ofInt_injective {a b : Nat} (ha : a ≤ 2 ^ 53) (hb : b ≤ 2 ^ 53)
    (h : ofInt a = ofInt b) : a = b := by
  have hless := less_ofInt ha hb
  have hmore := less_ofInt hb ha
  rw [h, less_ofInt hb hb, decide_eq_decide] at hless hmore
  omega

end Number

theorem Value.serial?_ofInt {n : Nat} (h : n ≤ 2 ^ 53) :
    (Value.number (.ofInt n)).serial? = some (.number (.ofInt n)) := by
  rw [Value.serial?, Number.serial?_of_isFinite (Number.isFinite_ofInt h), Number.settled_ofInt h]
  rfl

namespace Ledger

/-! ## Versions that are whole numbers -/

/-- The versions of records, in their order. -/
def HasVersions (records : List Value) (versions : List Nat) : Prop :=
  records.map (·.member "version") = versions.map fun version => .number (.ofInt version)

theorem le_foldl_max (versions : List Nat) (start : Nat) :
    start ≤ versions.foldl max start ∧
      ∀ version ∈ versions, version ≤ versions.foldl max start := by
  induction versions generalizing start with
  | nil => simp
  | cons version rest ih =>
      obtain ⟨hstart, hrest⟩ := ih (max start version)
      refine ⟨Nat.le_trans (Nat.le_max_left _ _) hstart, List.forall_mem_cons.mpr ⟨?_, hrest⟩⟩
      exact Nat.le_trans (Nat.le_max_right _ _) hstart

theorem foldl_max_le {versions : List Nat} {start bound : Nat} (hstart : start ≤ bound)
    (h : ∀ version ∈ versions, version ≤ bound) : versions.foldl max start ≤ bound := by
  induction versions generalizing start with
  | nil => exact hstart
  | cons version rest ih =>
      obtain ⟨hversion, hrest⟩ := List.forall_mem_cons.mp h
      exact ih (Nat.max_le.mpr ⟨hstart, hversion⟩) hrest

/-- The largest of numbers that follow each other is the last one. -/
theorem foldl_max_range (start count : Nat) :
    ((List.range count).map (start + 1 + ·)).foldl max start = start + count := by
  induction count with
  | zero => rfl
  | succ count ih =>
      rw [List.range_succ, List.map_append, List.foldl_append, ih]
      simp only [List.map_singleton, List.foldl_cons, List.foldl_nil]
      omega

/-- A version that is a whole number is kept when the record is written and read. -/
theorem member_version_serial {record : Value} (hplain : record.IsPlain) {version : Nat}
    (h : record.member "version" = .number (.ofInt version)) (hversion : version ≤ 2 ^ 53) :
    (record.serial?.getD .null).member "version" = .number (.ofInt version) := by
  obtain ⟨members, rfl⟩ := hplain.eq_table "version" (by simp [h])
  obtain ⟨hordered, hmembers⟩ := Value.isPlain_table_iff.mp hplain
  rw [Value.serial?_table hmembers, Option.getD_some, Schema.member_serialMembers hordered, h,
    Value.serial?_ofInt hversion, Option.getD_some]

/-- Records that each have a whole number as their version have versions together. -/
theorem exists_hasVersions {records : List Value} {bound : Nat}
    (h : ∀ record ∈ records, ∃ version ≤ bound,
      record.member "version" = .number (.ofInt (version : Nat))) :
    ∃ versions, HasVersions records versions ∧ ∀ version ∈ versions, version ≤ bound := by
  induction records with
  | nil => exact ⟨[], rfl, by simp⟩
  | cons record rest ih =>
      obtain ⟨⟨version, hle, hmember⟩, hrest⟩ := List.forall_mem_cons.mp h
      obtain ⟨versions, hversions, hbound⟩ := ih hrest
      refine ⟨version :: versions, ?_, List.forall_mem_cons.mpr ⟨hle, hbound⟩⟩
      rw [HasVersions, List.map_cons, List.map_cons, hmember, hversions]

namespace HasVersions

variable {records : List Value} {versions : List Nat} (h : HasVersions records versions)

include h

theorem append {more : List Value} {others : List Nat} (hmore : HasVersions more others) :
    HasVersions (records ++ more) (versions ++ others) := by
  rw [HasVersions, List.map_append, List.map_append, h, hmore]

theorem exists_version {record : Value} (hrecord : record ∈ records) :
    ∃ version ∈ versions, record.member "version" = .number (.ofInt version) := by
  have hmember := List.mem_map_of_mem (f := (·.member "version")) hrecord
  rw [h] at hmember
  obtain ⟨version, hversion, hsame⟩ := List.mem_map.mp hmember
  exact ⟨version, hversion, hsame.symm⟩

/-- Written and read again, records have the same versions. -/
theorem serialItems (hplain : ∀ record ∈ records, record.IsPlain)
    (hbound : ∀ version ∈ versions, version ≤ 2 ^ 53) :
    HasVersions (Value.serialItems records) versions := by
  rw [HasVersions, Value.serialItems_eq_map, List.map_map, ← h]
  refine List.map_congr_left fun record hrecord => ?_
  obtain ⟨version, hversion, hmember⟩ := h.exists_version hrecord
  exact (member_version_serial (hplain record hrecord) hmember (hbound version hversion)).trans
    hmember.symm

theorem foldlM_largerVersion (hbound : ∀ version ∈ versions, version ≤ 2 ^ 53) {start : Nat}
    (hstart : start ≤ 2 ^ 53) :
    records.foldlM largerVersion (.ofInt start) =
      .ok (.ofInt (versions.foldl max start : Nat)) := by
  induction records generalizing versions start with
  | nil =>
      cases versions with
      | nil => rfl
      | cons version rest => cases h
  | cons record rest ih =>
      cases versions with
      | nil => cases h
      | cons version others =>
          obtain ⟨hmember, hrest⟩ := List.cons.inj h
          obtain ⟨hversion, hothers⟩ := List.forall_mem_cons.mp hbound
          rw [List.foldlM_cons, largerVersion, version?_of_member hmember]
          simp only [Number.max_ofInt hstart hversion]
          exact ih hrest hothers (Nat.max_le.mpr ⟨hstart, hversion⟩)

/-- The next version is one more than the largest one. -/
theorem nextVersion {largest : Nat} (hlargest : versions.foldl max 0 = largest)
    (hnext : largest + 1 ≤ 2 ^ 53) :
    Ledger.nextVersion records = .ok (.ofInt (largest + 1 : Nat)) := by
  have hbound : ∀ version ∈ versions, version ≤ 2 ^ 53 := by
    intro version hversion
    have hle := (le_foldl_max versions 0).2 version hversion
    omega
  have hzero : (0 : Number) = .ofInt (0 : Nat) := rfl
  rw [Ledger.nextVersion, hzero, h.foldlM_largerVersion hbound (Nat.zero_le _), hlargest,
    ← Number.ofInt_add_one hnext]
  rfl

end HasVersions

/-! ## Added records -/

/-- A completed record of a domain, with a finite threshold and a whole number as its version. -/
def IsAdded (subject : String) (version : Nat) (record : Dict Value) : Prop :=
  ∃ given createdAt, IsNewRecord given ∧ HasFiniteThreshold given ∧
    record = completeRecord given subject (.ofInt version) createdAt

/-- Completed records of a domain, with finite thresholds and versions that count from one. -/
def IsNumbered (subject : String) (records : List (Dict Value)) : Prop :=
  ∀ i record, records[i]? = some record → ∃ given createdAt, IsNewRecord given ∧
    HasFiniteThreshold given ∧
    record = completeRecord given subject (.ofInt (i + 1 : Nat)) createdAt

/-- Records as the values that a ledger keeps of them. -/
def keptRecords (records : List (Dict Value)) : List Value :=
  records.map fun record => .table (keptRecord record)

/-- A filter keeps one element when the test holds at one place only. -/
theorem filter_eq_singleton {α : Type} {test : α → Bool} {l : List α} {n : Nat} {a : α}
    (ha : l[n]? = some a) (htest : test a = true)
    (hothers : ∀ i b, l[i]? = some b → i ≠ n → test b = false) : l.filter test = [a] := by
  induction l generalizing n with
  | nil => simp at ha
  | cons first rest ih =>
      cases n with
      | zero =>
          rw [List.getElem?_cons_zero, Option.some.injEq] at ha
          subst ha
          rw [List.filter_cons_of_pos htest, List.filter_eq_nil_iff.mpr]
          intro b hb
          obtain ⟨i, hi⟩ := List.mem_iff_getElem?.mp hb
          simp [hothers (i + 1) b (by simpa using hi) (Nat.succ_ne_zero i)]
      | succ n =>
          have hfirst := hothers 0 first rfl (Nat.succ_ne_zero n).symm
          rw [List.filter_cons_of_neg (by simp [hfirst])]
          apply ih (by simpa using ha)
          intro i b hb hi
          exact hothers (i + 1) b (by simpa using hb) (by omega)

theorem isNumbered_nil (subject : String) : IsNumbered subject [] := by
  intro i record h
  simp at h

theorem IsNumbered.of_append {subject : String} {records more : List (Dict Value)}
    (h : IsNumbered subject (records ++ more)) : IsNumbered subject records := by
  intro i record hrecord
  have hi : i < records.length := (List.getElem?_eq_some_iff.mp hrecord).1
  exact h i record (by rw [List.getElem?_append_left hi, hrecord])

/-- One more record with the next version leaves records numbered. -/
theorem IsNumbered.concat {subject : String} {records : List (Dict Value)}
    (h : IsNumbered subject records) {given : Dict Value} (hgiven : IsNewRecord given)
    (hthreshold : HasFiniteThreshold given) (createdAt : String) :
    IsNumbered subject (records ++
      [completeRecord given subject (.ofInt (records.length + 1 : Nat)) createdAt]) := by
  intro i record hrecord
  rcases Nat.lt_or_ge i records.length with hi | hi
  · rw [List.getElem?_append_left hi] at hrecord
    exact h i record hrecord
  · rw [List.getElem?_append_right hi, List.getElem?_singleton] at hrecord
    split at hrecord
    next hzero =>
      cases hrecord
      have hlast : i = records.length := by omega
      rw [hlast]
      exact ⟨given, createdAt, hgiven, hthreshold, rfl⟩
    next => cases hrecord

namespace IsAdded

variable {subject : String} {version : Nat} {record : Dict Value}
  (h : IsAdded subject version record)

include h

theorem isPlain : (Value.table record).IsPlain := by
  obtain ⟨given, createdAt, hgiven, _, rfl⟩ := h
  exact hgiven.isPlain_complete subject _ createdAt

theorem get?_version : record.get? "version" = some (.number (.ofInt version)) := by
  obtain ⟨given, createdAt, _, _, rfl⟩ := h
  simp [get?_completeRecord]

variable (hversion : version ≤ 2 ^ 53)

include hversion

theorem serialMembers_eq : Value.serialMembers record = keptRecord record := by
  obtain ⟨given, createdAt, hgiven, hthreshold, rfl⟩ := h
  refine serialMembers_eq_keptRecord (fun field hfield =>
    hgiven.isFieldValue subject _ createdAt hfield) fun name x hx => ?_
  exact hgiven.isFinite_of_mem subject _ createdAt hthreshold (Number.isFinite_ofInt hversion) hx

/-- The document of an added record is what a ledger keeps of it. -/
theorem serial?_table : (Value.table record).serial? = some (.table (keptRecord record)) := by
  have hplain := Value.isPlain_table_iff.mp h.isPlain
  rw [Value.serial?_table hplain.2, h.serialMembers_eq hversion]

theorem isDocument_kept : (Value.table (keptRecord record)).IsDocument :=
  h.isPlain.isDocument (h.serial?_table hversion)

/-- The version is kept. -/
theorem member_version :
    (Value.table (keptRecord record)).member "version" = .number (.ofInt version) := by
  have hordered := (Value.isPlain_table_iff.mp h.isPlain).1
  rw [Value.member_table, ← h.serialMembers_eq hversion,
    Value.get?_serialMembers hordered.nodup, h.get?_version, Option.bind_some,
    Value.serial?_ofInt hversion, Option.getD_some]

end IsAdded

section

variable {subject : String} {records : List (Dict Value)} (h : IsNumbered subject records)
  (hlength : records.length ≤ 2 ^ 53)

include h hlength

/-! ## What is kept of numbered records -/

omit hlength in
theorem IsNumbered.isAdded {i : Nat} {record : Dict Value} (hrecord : records[i]? = some record) :
    IsAdded subject (i + 1) record :=
  h i record hrecord

theorem IsNumbered.exists_isAdded {record : Dict Value} (hrecord : record ∈ records) :
    ∃ version ≤ 2 ^ 53, IsAdded subject version record := by
  obtain ⟨i, hi⟩ := List.mem_iff_getElem?.mp hrecord
  have hlt := (List.getElem?_eq_some_iff.mp hi).1
  exact ⟨i + 1, by omega, h.isAdded hi⟩

theorem IsNumbered.serial?_table {record : Dict Value} (hrecord : record ∈ records) :
    (Value.table record).serial? = some (.table (keptRecord record)) := by
  obtain ⟨version, hversion, hadded⟩ := h.exists_isAdded hlength hrecord
  exact hadded.serial?_table hversion

theorem IsNumbered.isDocument_kept {value : Value} (hvalue : value ∈ keptRecords records) :
    value.IsDocument := by
  obtain ⟨record, hrecord, rfl⟩ := List.mem_map.mp hvalue
  obtain ⟨version, hversion, hadded⟩ := h.exists_isAdded hlength hrecord
  exact hadded.isDocument_kept hversion

omit hlength in
/-- The version of a record is its place. -/
theorem IsNumbered.get?_version {i : Nat} {record : Dict Value}
    (hrecord : records[i]? = some record) :
    record.get? "version" = some (.number (.ofInt (i + 1 : Nat))) :=
  (h.isAdded hrecord).get?_version

theorem IsNumbered.member_version {i : Nat} {record : Dict Value}
    (hrecord : records[i]? = some record) :
    (Value.table (keptRecord record)).member "version" = .number (.ofInt (i + 1 : Nat)) := by
  have hlt := (List.getElem?_eq_some_iff.mp hrecord).1
  exact (h.isAdded hrecord).member_version (by omega)

theorem IsNumbered.version?_kept {i : Nat} {record : Dict Value}
    (hrecord : records[i]? = some record) :
    version? (.table (keptRecord record)) = some (.ofInt (i + 1 : Nat)) := by
  change ((Value.table (keptRecord record)).member "version").toNumber? = _
  rw [h.member_version hlength hrecord]
  rfl

/-! ## The next version -/

theorem IsNumbered.hasVersions_kept :
    HasVersions (keptRecords records) ((List.range records.length).map (0 + 1 + ·)) := by
  apply List.ext_getElem (by simp [keptRecords])
  intro i hi _
  have hlt : i < records.length := by simpa [keptRecords] using hi
  have hversion := h.member_version hlength (List.getElem?_eq_getElem hlt)
  simp only [keptRecords, List.getElem_map, List.getElem_range]
  rw [hversion, Nat.zero_add, Nat.add_comm]

/-- The next version is one more than how many records there are. -/
theorem IsNumbered.nextVersion_kept (hnext : records.length + 1 ≤ 2 ^ 53) :
    nextVersion (keptRecords records) = .ok (.ofInt (records.length + 1 : Nat)) := by
  have hlargest := (foldl_max_range 0 records.length).trans (Nat.zero_add _)
  exact (h.hasVersions_kept hlength).nextVersion hlargest hnext

/-! ## Searching -/

/-- Numbered records are in ascending order already. -/
theorem IsNumbered.sortByVersion_kept :
    sortByVersion (keptRecords records) = .ok (keptRecords records) := by
  apply sortByVersion_of_pairwise
  · intro value hvalue
    obtain ⟨record, hrecord, rfl⟩ := List.mem_map.mp hvalue
    obtain ⟨i, hi⟩ := List.mem_iff_getElem?.mp hrecord
    have hlt := (List.getElem?_eq_some_iff.mp hi).1
    exact ⟨_, h.version?_kept hlength hi, Number.ofInt_ne_nan (by omega)⟩
  · rw [List.pairwise_iff_getElem]
    intro i j hi hj hlt
    simp only [keptRecords, List.length_map] at hi hj
    have hfirst := h.version?_kept hlength (List.getElem?_eq_getElem hi)
    have hsecond := h.version?_kept hlength (List.getElem?_eq_getElem hj)
    simp only [keptRecords, List.getElem_map, versionLe, hfirst, hsecond]
    rw [Number.less_ofInt (by omega) (by omega)]
    simp
    omega

omit h hlength in
theorem select_number_kept (version : Number) :
    select (.number version) (keptRecords records) =
      .ok ((keptRecords records).filter (versionIs version)) := by
  apply filterM_eq_filter
  intro value hvalue
  obtain ⟨record, _, rfl⟩ := List.mem_map.mp hvalue
  exact hasVersion_table version _

theorem IsNumbered.versionIs_kept {i : Nat} {value : Value}
    (hvalue : (keptRecords records)[i]? = some value) (version : Number) :
    versionIs version value = (Number.ofInt (i + 1 : Nat)).equal version := by
  rw [keptRecords, List.getElem?_map, Option.map_eq_some_iff] at hvalue
  obtain ⟨record, hrecord, rfl⟩ := hvalue
  rw [versionIs, h.member_version hlength hrecord]

/-- A version selects the record at its place. -/
theorem IsNumbered.select_number {n : Nat} {record : Dict Value}
    (hrecord : records[n]? = some record) {version : Number}
    (hversion : (Number.ofInt (n + 1 : Nat)).equal version = true) :
    select (.number version) (keptRecords records) = .ok [.table (keptRecord record)] := by
  have hn := (List.getElem?_eq_some_iff.mp hrecord).1
  have hkept : (keptRecords records)[n]? = some (.table (keptRecord record)) := by
    rw [keptRecords, List.getElem?_map, hrecord, Option.map_some]
  rw [select_number_kept, filter_eq_singleton hkept]
  · rw [h.versionIs_kept hlength hkept, hversion]
  · intro i value hvalue hne
    have hi := (List.getElem?_eq_some_iff.mp hvalue).1
    rw [keptRecords, List.length_map] at hi
    rw [h.versionIs_kept hlength hvalue, Bool.eq_false_iff]
    intro hequal
    have hplaces := Number.eq_of_equal_ofInt (by omega) (by omega) hequal hversion
    omega

/-- A version that is no place selects nothing. -/
theorem IsNumbered.select_number_eq_nil {version : Number}
    (hversion : ∀ n < records.length, (Number.ofInt (n + 1 : Nat)).equal version = false) :
    select (.number version) (keptRecords records) = .ok [] := by
  rw [select_number_kept, List.filter_eq_nil_iff.mpr]
  intro value hvalue
  obtain ⟨i, hi⟩ := List.mem_iff_getElem?.mp hvalue
  have hlt := (List.getElem?_eq_some_iff.mp hi).1
  rw [keptRecords, List.length_map] at hlt
  rw [h.versionIs_kept hlength hi, hversion i hlt]
  simp

omit h hlength in
/-- The latest record is the last one. -/
theorem select_latest_kept :
    select .latest (keptRecords records) = .ok (keptRecords records.getLast?.toList) := by
  rw [select, keptRecords, List.getLast?_map]
  cases records.getLast? with
  | none => rfl
  | some record => rfl

end

end Ledger

end Dispatch
