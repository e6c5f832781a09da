import Dispatch.Proofs.Number.Counting
import Dispatch.Proofs.Schema
import Dispatch.Proofs.Sorting
import Dispatch.Store.Ledger

/-!
# Records and their versions

`IsNewRecord` says what callers may hand over as a record.  Completed with a domain,
a version and a time, such a record is accepted when its threshold is finite, and its
document is `keptRecord`: members without a value are left out, and zero has no sign.

The version of a new record is decided by all records of its domain.  It is finite
only when every version is a number, and then the records can still be sorted after
they were written and read.
-/

namespace Dispatch.Ledger

/-- A member of a record as callers give it. -/
inductive IsNewField : String × Value → Prop
  | file (path : String) : IsNewField ("file", .text path)
  | uqType (kind : String) : IsNewField ("uq_type", .text kind)
  | noUqType : IsNewField ("uq_type", .missing)
  | threshold (x : Number) : IsNewField ("threshold", .number x)
  | noThreshold : IsNewField ("threshold", .missing)

/-- A record as callers give it: a file, and perhaps a kind of uncertainty and a threshold. -/
structure IsNewRecord (record : Dict Value) : Prop where
  ordered : record.IsOrdered
  file : ∃ path, ("file", .text path) ∈ record
  fields : ∀ field ∈ record, IsNewField field

/-- The threshold of a record is finite, if it has one. -/
def HasFiniteThreshold (record : Dict Value) : Prop :=
  ∀ x, ("threshold", .number x) ∈ record → x.isFinite = true

/-- What a ledger keeps of a record: no members without a value, and zero without its sign. -/
def keptRecord (record : Dict Value) : Dict Value :=
  record.filterMap fun (name, value) => match value with
    | .missing => none
    | .number x => some (name, .number x.settled)
    | value => some (name, value)

/-! ## Completed records -/

/-- The values that records hold. -/
def IsFieldValue (value : Value) : Prop :=
  value = .missing ∨ (∃ s, value = .text s) ∨ ∃ x, value = .number x

theorem IsNewField.isFieldValue {field : String × Value} (h : IsNewField field) :
    IsFieldValue field.2 := by
  cases h <;> simp [IsFieldValue]

theorem IsNewField.eq_of_uqType {value : Value} (h : IsNewField ("uq_type", value)) :
    value = .missing ∨ ∃ kind, value = .text kind := by
  generalize hfield : ("uq_type", value) = field at h
  cases h <;> simp_all

theorem IsNewField.eq_of_threshold {value : Value} (h : IsNewField ("threshold", value)) :
    value = .missing ∨ ∃ x, value = .number x := by
  generalize hfield : ("threshold", value) = field at h
  cases h <;> simp_all

theorem IsFieldValue.isPlain {value : Value} (h : IsFieldValue value) : value.IsPlain := by
  rcases h with rfl | ⟨s, rfl⟩ | ⟨x, rfl⟩
  · exact .missing
  · exact .text s
  · exact .number x

section

variable {record : Dict Value} (subject : String) (version : Number) (createdAt : String)

theorem get?_completeRecord (name : String) :
    (completeRecord record subject version createdAt).get? name =
      if name = "created_at" then some (.text createdAt)
      else if name = "version" then some (.number version)
      else if name = "domain_name" then some (.text subject)
      else record.get? name := by
  simp only [completeRecord, Dict.get?_insert]

theorem mem_completeRecord {field : String × Value}
    (h : field ∈ completeRecord record subject version createdAt) :
    field = ("domain_name", .text subject) ∨ field = ("version", .number version) ∨
      field = ("created_at", .text createdAt) ∨ field ∈ record := by
  rcases Dict.mem_of_mem_insert h with h | h
  · exact Or.inr (Or.inr (Or.inl h))
  · rcases Dict.mem_of_mem_insert h with h | h
    · exact Or.inr (Or.inl h)
    · rcases Dict.mem_of_mem_insert h with h | h
      · exact Or.inl h
      · exact Or.inr (Or.inr (Or.inr h))

variable (h : IsNewRecord record)

include h

theorem IsNewRecord.isOrdered_complete :
    (completeRecord record subject version createdAt).IsOrdered :=
  ((h.ordered.insert _ _).insert _ _).insert _ _

theorem IsNewRecord.isFieldValue {field : String × Value}
    (hfield : field ∈ completeRecord record subject version createdAt) :
    IsFieldValue field.2 := by
  rcases mem_completeRecord subject version createdAt hfield with rfl | rfl | rfl | hfield
  · exact Or.inr (Or.inl ⟨subject, rfl⟩)
  · exact Or.inr (Or.inr ⟨version, rfl⟩)
  · exact Or.inr (Or.inl ⟨createdAt, rfl⟩)
  · exact (h.fields field hfield).isFieldValue

theorem IsNewRecord.isPlain_complete :
    (Value.table (completeRecord record subject version createdAt)).IsPlain :=
  .table (h.isOrdered_complete subject version createdAt) fun _ hfield =>
    (h.isFieldValue subject version createdAt hfield).isPlain

/-- The numbers of a completed record are its version and its threshold. -/
theorem IsNewRecord.isFinite_of_mem (hthreshold : HasFiniteThreshold record)
    (hversion : version.isFinite = true) {name : String} {x : Number}
    (hfield : (name, .number x) ∈ completeRecord record subject version createdAt) :
    x.isFinite = true := by
  rcases mem_completeRecord subject version createdAt hfield with heq | heq | heq | hfield
  · simp at heq
  · cases heq
    exact hversion
  · simp at heq
  · have hnew := h.fields _ hfield
    cases hnew
    exact hthreshold x hfield

end

/-- The document of a record with finite numbers is what the ledger keeps of it. -/
theorem serialMembers_eq_keptRecord {record : Dict Value}
    (hvalues : ∀ field ∈ record, IsFieldValue field.2)
    (hfinite : ∀ name x, (name, .number x) ∈ record → x.isFinite = true) :
    Value.serialMembers record = keptRecord record := by
  induction record with
  | nil => rfl
  | cons field rest ih =>
      obtain ⟨name, value⟩ := field
      have hrest := ih (fun f hf => hvalues f (List.mem_cons_of_mem _ hf))
        (fun n x hx => hfinite n x (List.mem_cons_of_mem _ hx))
      rcases hvalues (name, value) (by simp) with heq | ⟨s, heq⟩ | ⟨x, heq⟩
      · simp only at heq
        subst heq
        simpa [Value.serialMembers, Value.serial?, keptRecord] using hrest
      · simp only at heq
        subst heq
        simpa [Value.serialMembers, Value.serial?, keptRecord] using hrest
      · simp only at heq
        subst heq
        have hx := Number.serial?_of_isFinite (hfinite name x (by simp))
        simpa [Value.serialMembers, Value.serial?, keptRecord, hx] using hrest

/-- A number of a record is kept without the sign of zero. -/
theorem mem_keptRecord {record : Dict Value} {name : String} {x : Number}
    (h : (name, .number x) ∈ record) : (name, .number x.settled) ∈ keptRecord record :=
  List.mem_filterMap.mpr ⟨_, h, rfl⟩

theorem keys_keptRecord_sublist (record : Dict Value) :
    (Dict.keys (keptRecord record)).Sublist record.keys := by
  induction record with
  | nil => exact List.Sublist.refl _
  | cons field rest ih =>
      obtain ⟨name, value⟩ := field
      cases value with
      | missing => exact ih.cons name
      | _ => exact ih.cons_cons name

/-! ## Accepted records -/

theorem IsNewRecord.uqType_cases {record : Dict Value} (h : IsNewRecord record) :
    (record.get? "uq_type").getD .missing = .missing ∨
      ∃ kind, record.get? "uq_type" = some (.text kind) := by
  cases hfound : record.get? "uq_type" with
  | none => exact Or.inl rfl
  | some value =>
      rcases (h.fields _ (Dict.mem_of_get? hfound)).eq_of_uqType with rfl | ⟨kind, rfl⟩
      · exact Or.inl rfl
      · exact Or.inr ⟨kind, rfl⟩

theorem IsNewRecord.threshold_cases {record : Dict Value} (h : IsNewRecord record)
    (hthreshold : HasFiniteThreshold record) :
    (record.get? "threshold").getD .missing = .missing ∨
      ∃ x, record.get? "threshold" = some (.number x) ∧ x.isFinite = true := by
  cases hfound : record.get? "threshold" with
  | none => exact Or.inl rfl
  | some value =>
      have hmem := Dict.mem_of_get? hfound
      rcases (h.fields _ hmem).eq_of_threshold with rfl | ⟨x, rfl⟩
      · exact Or.inl rfl
      · exact Or.inr ⟨x, rfl, hthreshold x hmem⟩

/-- A completed record is accepted when its threshold is finite and its version counts. -/
theorem IsNewRecord.accepts_complete {record : Dict Value} (h : IsNewRecord record)
    (hthreshold : HasFiniteThreshold record) (subject : String) {version : Number}
    (hversion : version.IsCount 1) (createdAt : String) :
    recordSchema.accepts (.table (completeRecord record subject version createdAt)) = true := by
  obtain ⟨path, hfile⟩ := h.file
  have hpath := Dict.get?_of_mem h.ordered.nodup hfile
  have hget (name : String) : (completeRecord record subject version createdAt).get? name = _ :=
    get?_completeRecord subject version createdAt name
  have hmember (name : String) : (Value.table (completeRecord record subject version
      createdAt)).member name = ((if name = "created_at" then some (.text createdAt)
        else if name = "version" then some (.number version)
        else if name = "domain_name" then some (.text subject)
        else record.get? name).getD .missing) := by
    rw [Value.member_table, hget]
  have hkey (name : String) (hsome : ((completeRecord record subject version createdAt).get?
      name).isSome = true) : name ∈ (completeRecord record subject version createdAt).keys :=
    Dict.isSome_get?_iff.mp hsome
  rw [recordSchema, Schema.accepts_table_iff]
  refine ⟨?_, by simp, ?_⟩
  · simp only [List.forall_mem_cons, Schema.required, Schema.optional]
    refine ⟨fun _ => hkey _ ?_, fun _ => hkey _ ?_, fun _ => hkey _ ?_, by simp, by simp,
      fun _ => hkey _ ?_, by simp⟩ <;> simp [hget, hpath]
  · simp only [List.forall_mem_cons, Schema.required, Schema.optional]
    refine ⟨Or.inr ?_, Or.inr ?_, Or.inr ?_, ?_, ?_, Or.inr ?_, by simp⟩
    · exact Schema.accepts_anyText_iff.mpr ⟨subject, by simp [hmember]⟩
    · rw [hmember]
      exact Schema.accepts_count_iff.mpr hversion
    · exact Schema.accepts_anyText_iff.mpr ⟨path, by simp [hmember, hpath]⟩
    · rw [hmember]
      rcases h.uqType_cases with hmissing | ⟨kind, hkind⟩
      · exact Or.inl ⟨trivial, by simpa using hmissing⟩
      · exact Or.inr (Schema.accepts_anyText_iff.mpr ⟨kind, by simp [hkind]⟩)
    · rw [hmember]
      rcases h.threshold_cases hthreshold with hmissing | ⟨x, hx, hfinite⟩
      · exact Or.inl ⟨trivial, by simpa using hmissing⟩
      · exact Or.inr (Schema.accepts_number_iff.mpr ⟨x, by simp [hx], hfinite⟩)
    · exact Schema.accepts_anyText_iff.mpr ⟨createdAt, by simp [hmember]⟩

end Dispatch.Ledger
