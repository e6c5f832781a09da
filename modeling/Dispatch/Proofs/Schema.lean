import Dispatch.Schema.Checking
import Dispatch.Proofs.Json.Plain
import Dispatch.Proofs.Number.Counting

/-!
# What schemas accept

A schema accepts a plain value exactly when its parts are accepted; the first
section says so for each kind of schema.  From this it follows that reducing a value
to its document never makes it refused, since what is left out was either optional
or not looked at.
-/

namespace Dispatch.Schema

/-! ## Accepted parts -/

theorem accepts_iff {schema : Schema} {value : Value} :
    schema.accepts value = true ↔ schema.check? value = none := by
  simp [accepts]

theorem checkValue_of_accepts {schema : Schema} {value : Value} (label : String) (realm : Realm)
    (h : schema.accepts value = true) : schema.checkValue value label realm = .ok value := by
  rw [checkValue, accepts_iff.mp h]

theorem accepts_of_checkValue {schema : Schema} {value result : Value} {label : String}
    {realm : Realm} (h : schema.checkValue value label realm = .ok result) :
    schema.accepts value = true ∧ result = value := by
  rw [checkValue] at h
  split at h
  next hnone =>
    cases h
    exact ⟨accepts_iff.mpr hnone, rfl⟩
  next => cases h

/-- What comes after a check goes on with an accepted value. -/
theorem checkValue_bind {α : Type} {schema : Schema} {value : Value} {label : String}
    {realm : Realm} {next : Value → Except Failure α} (h : schema.accepts value = true) :
    (schema.checkValue value label realm >>= next) = next value := by
  rw [checkValue_of_accepts label realm h]
  rfl

/-- What comes after a check sees an accepted value, the one that was given. -/
theorem accepts_of_checkValue_bind {α : Type} {schema : Schema} {value : Value} {label : String}
    {realm : Realm} {next : Value → Except Failure α} {a : α}
    (h : (schema.checkValue value label realm >>= next) = .ok a) :
    schema.accepts value = true ∧ next value = .ok a := by
  cases hcheck : schema.checkValue value label realm with
  | error failure =>
      rw [hcheck] at h
      cases h
  | ok result =>
      obtain ⟨haccepted, rfl⟩ := accepts_of_checkValue hcheck
      rw [hcheck] at h
      exact ⟨haccepted, h⟩

section

attribute [local simp] accepts check?

theorem accepts_anyText_iff {value : Value} :
    anyText.accepts value = true ↔ ∃ s, value = .text s := by
  cases value <;> simp

theorem exists_text_of_accepts {least : Nat} {value : Value}
    (h : (text least).accepts value = true) : ∃ s, value = .text s := by
  cases value <;> simp at h ⊢

theorem exists_number_of_accepts {least greatest : Option Nat} {value : Value}
    (h : (integer least greatest).accepts value = true) : ∃ x, value = .number x := by
  cases value <;> simp at h ⊢

theorem accepts_number_iff {value : Value} :
    number.accepts value = true ↔ ∃ x : Number, value = .number x ∧ x.isFinite = true := by
  cases value <;> simp

end

/-- Integers with a lower bound are counts. -/
theorem accepts_count_iff {least : Nat} {x : Number} :
    (integer (some least) none).accepts (.number x) = true ↔ x.IsCount least := by
  rw [accepts_iff, check?, Number.IsCount]
  cases x.isInteger with
  | false => simp
  | true =>
      simp only [checkBounds?, checkBounds?.lower, true_and, if_true]
      cases x.less (.ofInt least) <;> simp

theorem accepts_union_iff {alternatives : List Schema} {value : Value} :
    (union alternatives).accepts value = true ↔
      ∃ schema ∈ alternatives, schema.accepts value = true := by
  have hone : acceptedByOne alternatives value = true ↔
      ∃ schema ∈ alternatives, schema.accepts value = true := by
    induction alternatives with
    | nil => simp [acceptedByOne]
    | cons schema rest ih => simp [acceptedByOne, ih, accepts]
  rw [← hone, accepts_iff, check?]
  cases acceptedByOne alternatives value <;> simp

theorem accepts_list_iff {items : Schema} {least : Nat} {values : List Value} :
    (list items least).accepts (.list values) = true ↔
      least ≤ values.length ∧ ∀ value ∈ values, items.accepts value = true := by
  rw [accepts_iff, check?]
  by_cases hlength : values.length < least
  · simp [hlength]
  · simp only [hlength, if_false, List.findSome?_eq_none_iff, Option.map_eq_none_iff,
      ← accepts_iff]
    constructor
    · intro h
      refine ⟨by omega, fun value hvalue => ?_⟩
      obtain ⟨i, hi, rfl⟩ := List.getElem_of_mem hvalue
      exact h (values[i], i) (List.mem_zipIdx_iff_getElem?.mpr (by simp))
    · rintro ⟨_, h⟩ ⟨value, i⟩ hmem
      exact h value (List.fst_mem_of_mem_zipIdx hmem)

theorem accepts_dictionary_iff {values : Schema} {members : Dict Value} :
    (dictionary values).accepts (.table members) = true ↔
      ∀ entry ∈ members, isCheckedKey entry.1 = true → values.accepts entry.2 = true := by
  rw [accepts_iff, check?]
  have hdictionary : isDictionary (.table members) = true := rfl
  simp only [hdictionary, if_true, List.findSome?_eq_none_iff, Value.members]
  apply forall₂_congr
  intro entry _
  cases isCheckedKey entry.1 <;> simp [accepts]

/-- What an accepted dictionary holds under checked keys is accepted. -/
theorem accepts_of_mem_members {values : Schema} {value : Value}
    (h : (dictionary values).accepts value = true) :
    ∀ entry ∈ value.members, isCheckedKey entry.1 = true → values.accepts entry.2 = true := by
  rw [accepts_iff, check?] at h
  split at h
  next =>
    intro entry hentry hkey
    have hnone := List.findSome?_eq_none_iff.mp h entry hentry
    simpa [hkey, accepts] using hnone
  next => cases h

theorem checkMembers?_eq_none_iff {parts : List (String × Bool × Schema)} {value : Value} :
    checkMembers? parts value = none ↔
      ∀ part ∈ parts, (part.2.1 = false ∧ value.member part.1 = .missing) ∨
        part.2.2.accepts (value.member part.1) = true := by
  induction parts with
  | nil => simp [checkMembers?]
  | cons part rest ih =>
      obtain ⟨name, required, schema⟩ := part
      rw [checkMembers?.eq_def]
      simp only [Option.or_eq_none_iff, ih, List.forall_mem_cons]
      refine and_congr ?_ Iff.rfl
      split
      next hmissing => simp [hmissing]
      next hother =>
        simp only [Option.map_eq_none_iff, accepts_iff]
        refine ⟨Or.inr, ?_⟩
        rintro (⟨hrequired, hmissing⟩ | haccepted)
        · exact (hother hrequired hmissing).elim
        · exact haccepted

/-- The members of an accepted object are accepted, or optional and absent. -/
theorem accepts_member_of_table {parts : List (String × Bool × Schema)} {closed : Bool}
    {value : Value} (h : (table parts closed).accepts value = true) :
    ∀ part ∈ parts, (part.2.1 = false ∧ value.member part.1 = .missing) ∨
      part.2.2.accepts (value.member part.1) = true := by
  rw [accepts_iff, check?] at h
  split at h
  next =>
    simp only [Option.or_eq_none_iff] at h
    exact checkMembers?_eq_none_iff.mp h.2.2
  next => cases h

/-- A table is accepted when no required member is absent, none is unknown, and all are accepted. -/
theorem accepts_table_iff {parts : List (String × Bool × Schema)} {closed : Bool}
    {members : Dict Value} :
    (table parts closed).accepts (.table members) = true ↔
      (∀ part ∈ parts, part.2.1 = true → part.1 ∈ members.keys) ∧
      (closed = true → ∀ name ∈ members.keys, name ∈ parts.map Prod.fst) ∧
      ∀ part ∈ parts,
        (part.2.1 = false ∧ (Value.table members).member part.1 = .missing) ∨
          part.2.2.accepts ((Value.table members).member part.1) = true := by
  have htable : isTable (.table members) = true := rfl
  have hheld : heldNames (.table members) = members.keys := by
    simp [heldNames, ObjectClass.hiddenNames]
  rw [accepts_iff, check?]
  simp only [htable, if_true, hheld, Option.or_eq_none_iff, checkMembers?_eq_none_iff]
  refine and_congr ?_ (and_congr ?_ Iff.rfl)
  · simp [missingMember?, List.find?_eq_none]
  · cases closed with
    | false => simp [unknownMember?]
    | true =>
        simp only [unknownMember?, if_true, Option.map_eq_none_iff, List.find?_eq_none,
          List.contains_eq_mem, Bool.not_eq_true', decide_eq_false_iff_not, Decidable.not_not,
          forall_const]

/-! ## Reductions of accepted values -/

/-- Whether the schema refuses missing values and accepts the reductions of what it accepts. -/
structure KeepsReductions (schema : Schema) : Prop where
  missing : schema.accepts .missing = false
  serial : ∀ {v w : Value}, v.IsPlain → v.serial? = some w → schema.accepts v = true →
    schema.accepts w = true

theorem keepsReductions_of_eq {schema : Schema} (hmissing : schema.accepts .missing = false)
    (h : ∀ v, schema.accepts v = true → v.serial? = some v) : KeepsReductions schema where
  missing := hmissing
  serial := by
    intro v w _ hw hv
    rw [h v hv] at hw
    cases hw
    exact hv

theorem keepsReductions_number : KeepsReductions number where
  missing := rfl
  serial := by
    intro v w _ hw hv
    obtain ⟨x, rfl, hx⟩ := accepts_number_iff.mp hv
    rw [Value.serial?, Number.serial?_of_isFinite hx] at hw
    cases hw
    exact accepts_number_iff.mpr ⟨_, rfl, by rw [Number.isFinite_settled, hx]⟩

theorem checkBounds?_settled (least greatest : Option Nat) (x : Number) :
    checkBounds? least greatest x.settled = checkBounds? least greatest x := by
  cases greatest <;> cases least <;>
    simp only [checkBounds?, checkBounds?.lower, Number.less_settled, Number.less_settled_right]

theorem keepsReductions_integer (least greatest : Option Nat) :
    KeepsReductions (integer least greatest) where
  missing := rfl
  serial := by
    intro v w _ hw hv
    cases v with
    | number x =>
        rw [accepts_iff, check?] at hv
        by_cases hinteger : x.isInteger = true
        · have hx : x.isFinite = true := by
            cases x with
            | finite negative magnitude => rfl
            | _ => simp [Number.isInteger, Number.units?] at hinteger
          rw [Value.serial?, Number.serial?_of_isFinite hx] at hw
          cases hw
          rw [accepts_iff]
          simpa only [check?, Option.map_some, Option.getD_some, Number.isInteger_settled,
            checkBounds?_settled] using hv
        · simp [hinteger] at hv
    | _ => simp [accepts, check?] at hv

theorem keepsReductions_list {items : Schema} (least : Nat) (hitems : KeepsReductions items) :
    KeepsReductions (list items least) where
  missing := rfl
  serial := by
    intro v w hplain hw hv
    cases hplain with
    | @list values hvalues =>
        rw [Value.serial?, Value.serialItems_eq_map] at hw
        cases hw
        rw [accepts_list_iff] at hv ⊢
        refine ⟨by simpa using hv.1, fun reduced hreduced => ?_⟩
        obtain ⟨value, hvalue, rfl⟩ := List.mem_map.mp hreduced
        have haccepted := hv.2 value hvalue
        have hpresent : value ≠ .missing := by
          rintro rfl
          simp [hitems.missing] at haccepted
        obtain ⟨w, hw⟩ := (hvalues value hvalue).serial?_isSome hpresent
        rw [hw]
        exact hitems.serial (hvalues value hvalue) hw haccepted
    | _ => simp [accepts, check?] at hv

theorem keepsReductions_dictionary {values : Schema} (hvalues : KeepsReductions values) :
    KeepsReductions (dictionary values) where
  missing := rfl
  serial := by
    intro v w hplain hw hv
    cases hplain with
    | @table members _ hmembers =>
        rw [Value.serial?_table hmembers] at hw
        cases hw
        rw [accepts_dictionary_iff] at hv ⊢
        rintro ⟨name, reduced⟩ hreduced hkey
        obtain ⟨value, hvalue, hserial⟩ := Value.mem_serialMembers.mp hreduced
        exact hvalues.serial (hmembers _ hvalue) hserial (hv _ hvalue hkey)
    | _ => simp [accepts, check?, isDictionary] at hv

theorem member_serialMembers {members : Dict Value} (hordered : members.IsOrdered)
    (name : String) :
    (Value.table (Value.serialMembers members)).member name =
      ((Value.table members).member name).serial?.getD .missing := by
  simp only [Value.member, Value.members, Value.get?_serialMembers hordered.nodup]
  cases members.get? name <;> rfl

/-- A member that is accepted is there, and its reduction is accepted. -/
theorem exists_serial_of_accepts_member {schema : Schema} (hschema : KeepsReductions schema)
    {members : Dict Value} (hmembers : ∀ entry ∈ members, entry.2.IsPlain) {name : String}
    (h : schema.accepts ((Value.table members).member name) = true) :
    ∃ value w, (name, value) ∈ members ∧ (Value.table members).member name = value ∧
      value.serial? = some w ∧ schema.accepts w = true := by
  cases hget : members.get? name with
  | none => simp [Value.member, Value.members, hget, hschema.missing] at h
  | some value =>
      have hmem := Dict.mem_of_get? hget
      have hmember : (Value.table members).member name = value := by
        simp [Value.member, Value.members, hget]
      rw [hmember] at h
      have hpresent : value ≠ .missing := by
        rintro rfl
        simp [hschema.missing] at h
      obtain ⟨w, hw⟩ := (hmembers _ hmem).serial?_isSome hpresent
      exact ⟨value, w, hmem, hmember, hw, hschema.serial (hmembers _ hmem) hw h⟩

theorem keepsReductions_table {parts : List (String × Bool × Schema)} (closed : Bool)
    (hparts : ∀ part ∈ parts, KeepsReductions part.2.2) :
    KeepsReductions (table parts closed) where
  missing := rfl
  serial := by
    intro v w hplain hw hv
    cases hplain with
    | @table members hordered hmembers =>
        rw [Value.serial?_table hmembers] at hw
        cases hw
        rw [accepts_table_iff] at hv ⊢
        obtain ⟨hrequired, hclosed, haccepted⟩ := hv
        refine ⟨?_, ?_, ?_⟩
        · intro part hpart hneeded
          rcases haccepted part hpart with ⟨hoptional, _⟩ | h
          · simp [hneeded] at hoptional
          · obtain ⟨value, w, hmem, _, hw, _⟩ :=
              exists_serial_of_accepts_member (hparts part hpart) hmembers h
            exact Dict.mem_keys_of_mem (Value.mem_serialMembers.mpr ⟨value, hmem, hw⟩)
        · intro h name hname
          exact hclosed h name ((Value.keys_serialMembers_sublist members).mem hname)
        · intro part hpart
          rw [member_serialMembers hordered]
          rcases haccepted part hpart with ⟨hoptional, hmissing⟩ | h
          · exact Or.inl ⟨hoptional, by rw [hmissing]; rfl⟩
          · obtain ⟨value, w, _, hmember, hw, hw'⟩ :=
              exists_serial_of_accepts_member (hparts part hpart) hmembers h
            exact Or.inr (by rw [hmember, hw]; exact hw')
    | _ => simp [accepts, check?, isTable] at hv

theorem keepsReductions_union {alternatives : List Schema}
    (h : ∀ schema ∈ alternatives, KeepsReductions schema) :
    KeepsReductions (union alternatives) where
  missing := by
    rw [Bool.eq_false_iff]
    intro hmissing
    obtain ⟨schema, hschema, haccepted⟩ := accepts_union_iff.mp hmissing
    simp [(h schema hschema).missing] at haccepted
  serial := by
    intro v w hplain hw hv
    obtain ⟨schema, hschema, haccepted⟩ := accepts_union_iff.mp hv
    exact accepts_union_iff.mpr ⟨schema, hschema, (h schema hschema).serial hplain hw haccepted⟩

mutual

/-- Reducing a value to its document never makes a schema refuse it. -/
theorem keepsReductions : ∀ schema : Schema, KeepsReductions schema
  | .text _ => keepsReductions_of_eq rfl fun v hv => by
      cases v <;> first | rfl | simp [accepts, check?] at hv
  | .boolean => keepsReductions_of_eq rfl fun v hv => by
      cases v <;> first | rfl | simp [accepts, check?] at hv
  | .number => keepsReductions_number
  | .integer least greatest => keepsReductions_integer least greatest
  | .literal _ => keepsReductions_of_eq rfl fun v hv => by
      cases v <;> first | rfl | simp [accepts, check?] at hv
  | .null => keepsReductions_of_eq rfl fun v hv => by
      cases v <;> first | rfl | simp [accepts, check?] at hv
  | .list items least => keepsReductions_list least (keepsReductions items)
  | .dictionary values => keepsReductions_dictionary (keepsReductions values)
  | .table parts closed => keepsReductions_table closed (keepsReductions_parts parts)
  | .union alternatives => keepsReductions_union (keepsReductions_alternatives alternatives)

theorem keepsReductions_parts :
    ∀ parts : List (String × Bool × Schema), ∀ part ∈ parts, KeepsReductions part.2.2
  | [] => by simp
  | (_, _, schema) :: rest =>
      List.forall_mem_cons.mpr ⟨keepsReductions schema, keepsReductions_parts rest⟩

theorem keepsReductions_alternatives :
    ∀ alternatives : List Schema, ∀ schema ∈ alternatives, KeepsReductions schema
  | [] => by simp
  | schema :: rest =>
      List.forall_mem_cons.mpr ⟨keepsReductions schema, keepsReductions_alternatives rest⟩

end

theorem accepts_missing (schema : Schema) : schema.accepts .missing = false :=
  (keepsReductions schema).missing

theorem ne_missing_of_accepts {schema : Schema} {value : Value}
    (h : schema.accepts value = true) : value ≠ .missing := by
  rintro rfl
  simp [accepts_missing] at h

/-- An open table is accepted when its members are, or are optional and absent. -/
theorem accepts_open_iff {parts : List (String × Bool × Schema)} {members : Dict Value} :
    (table parts false).accepts (.table members) = true ↔
      ∀ part ∈ parts,
        (part.2.1 = false ∧ (Value.table members).member part.1 = .missing) ∨
          part.2.2.accepts ((Value.table members).member part.1) = true := by
  refine ⟨accepts_member_of_table, fun h => accepts_table_iff.mpr ⟨?_, by simp, h⟩⟩
  intro part hpart hrequired
  by_contra hkey
  have hmissing : (Value.table members).member part.1 = .missing := by
    rw [Value.member_table, Dict.get?_eq_none hkey, Option.getD_none]
  rcases h part hpart with ⟨hoptional, _⟩ | haccepted
  · simp [hrequired] at hoptional
  · exact ne_missing_of_accepts haccepted hmissing

/-- An open table whose members are all required is accepted when they are. -/
theorem accepts_required_iff {parts : List (String × Bool × Schema)} (hne : parts ≠ [])
    (hrequired : ∀ part ∈ parts, part.2.1 = true) {v : Value} (hv : v.IsPlain) :
    (table parts false).accepts v = true ↔
      ∀ part ∈ parts, part.2.2.accepts (v.member part.1) = true := by
  constructor
  · intro h part hpart
    rcases accepts_member_of_table h part hpart with ⟨hoptional, _⟩ | haccepted
    · simp [hrequired part hpart] at hoptional
    · exact haccepted
  · intro h
    obtain ⟨part, hpart⟩ := List.exists_mem_of_ne_nil parts hne
    obtain ⟨members, rfl⟩ := hv.eq_table part.1 (ne_missing_of_accepts (h part hpart))
    exact accepts_open_iff.mpr fun part hpart => Or.inr (h part hpart)

end Dispatch.Schema
