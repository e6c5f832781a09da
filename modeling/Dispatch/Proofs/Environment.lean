import Dispatch.Environment
import Dispatch.Proofs.Dict
import Dispatch.Proofs.Results

/-!
# What environments are made of

An environment is made of two sources.  Variables are given by a value of any kind, which
must be a table of texts or nothing.  Below them lie the defined variables of a base
environment.

Validating takes exactly the values that `Environment.IsGiven` describes, and says of every
other value what `Environment.IsRefused` describes.  An environment on top of a base is the
merge of both, as `Environment.IsMerge` has it.
-/

namespace Dispatch

/-- A base environment binds variables to texts, or leaves them undefined. -/
def IsBaseEnvironment (base : Dict Value) : Prop :=
  ∀ entry ∈ base, entry.2 = .missing ∨ ∃ s, entry.2 = .text s

namespace Environment

/-- An environment that binds every variable to a text. -/
structure IsText (environment : Environment) : Prop where
  ordered : Dict.IsOrdered environment
  values : ∀ entry ∈ environment, ∃ s, entry.2 = .text s

/-- Nothing, or a table of no class of its own in which all variables are texts. -/
inductive IsGiven : Value → Prop
  | absent {value : Value} (h : value.isPresent = false) : IsGiven value
  | table {kind : ObjectClass} {members : Dict Value} (hkind : kind = .plain ∨ kind = .bare)
      (htexts : ∀ entry ∈ members, ∃ s, entry.2 = .text s) : IsGiven (.object kind members)

/-- Why a value is no environment: its kind, or the first of its variables that is no text. -/
inductive IsRefused (field : String) : Value → Failure → Prop
  | list (items : List Value) : IsRefused field (.list items) (.badEnvironment "array" field)
  | object {kind : ObjectClass} (members : Dict Value) (hkind : ¬(kind = .plain ∨ kind = .bare)) :
      IsRefused field (.object kind members) (.badEnvironment kind.tag field)
  | other {value : Value} (hpresent : value.isPresent = true)
      (hlist : ∀ items, value ≠ .list items)
      (hobject : ∀ kind members, value ≠ .object kind members) :
      IsRefused field value (.badEnvironment value.typeName field)
  | notText {kind : ObjectClass} {front back : Dict Value} {name : String} {value : Value}
      (hkind : kind = .plain ∨ kind = .bare) (hfront : ∀ entry ∈ front, ∃ s, entry.2 = .text s)
      (hvalue : ∀ s, value ≠ .text s) :
      IsRefused field (.object kind (front ++ (name, value) :: back))
        (.badVariable field name value.typeName)

/--
An environment in which given variables lie on top of the defined variables of a base.  Its
array indices come first, in ascending order, then the other names of the base, and then
those that are only given; the reserved key is left out.
-/
structure IsMerge (environment : Environment) (base given : Dict Value) : Prop where
  bound : ∀ name value, name ≠ Dict.reservedKey →
    (Dict.get? environment name = some value ↔ given.get? name = some value ∨
      name ∉ given.keys ∧ base.get? name = some value ∧ value ≠ .missing)
  unreserved : Dict.reservedKey ∉ Dict.keys environment
  keys_eq : ∃ numbers : List Nat, numbers.Pairwise (· < ·) ∧
    (∀ n ∈ numbers, n ≤ largestIndex) ∧
    Dict.keys environment = numbers.map toString ++
      ((defined base).names ++ given.names.filter (· ∉ (defined base).keys)).filter
        (· ≠ Dict.reservedKey)

/-! ## Validating -/

section

variable {field : String} {value : Value} {environment : Environment} {failure : Failure}

theorem checkVariable_eq_ok_iff {entry : String × Value} {done : Unit} :
    checkVariable field entry = .ok done ↔ ∃ s, entry.2 = .text s := by
  rw [checkVariable]
  split
  next s htext => simp [htext]
  next hother => simpa using fun s htext => hother s htext

theorem checkVariable_eq_error {name : String} (h : ∀ s, value ≠ .text s) :
    checkVariable field (name, value) = .error (.badVariable field name value.typeName) := by
  cases value with
  | text s => exact absurd rfl (h s)
  | _ => rfl

theorem IsGiven.text_of_mem (h : IsGiven value) :
    ∀ entry ∈ value.members, ∃ s, entry.2 = .text s := by
  cases h with
  | absent habsent =>
      cases value with
      | missing | null => simp [Value.members]
      | _ => cases habsent
  | table _ htexts => exact htexts

theorem validate_of_isGiven (h : IsGiven value) (field : String) :
    validate value field = .ok (Dict.assignAll [] value.members) := by
  cases h with
  | absent habsent =>
      cases value with
      | missing | null => rfl
      | _ => cases habsent
  | @table kind members hkind htexts =>
      have hcheck : members.mapM (checkVariable field) = .ok (members.map fun _ => ()) :=
        mapM_eq_ok_map fun entry hentry => checkVariable_eq_ok_iff.mpr (htexts entry hentry)
      rw [validate, if_pos hkind, List.forM_eq_forM, forM_eq_map_mapM, hcheck]
      rfl

theorem validate_of_isRefused (h : IsRefused field value failure) :
    validate value field = .error failure := by
  cases h with
  | list items => rfl
  | object members hkind => rw [validate, if_neg hkind]
  | other hpresent hlist hobject =>
      cases value with
      | missing | null => cases hpresent
      | list items => exact absurd rfl (hlist items)
      | object kind members => exact absurd rfl (hobject kind members)
      | bool _ | number _ | text _ | atom _ => rfl
  | @notText kind front back name other hkind hfront hvalue =>
      have hcheck : (front ++ (name, other) :: back).mapM (checkVariable field) =
          .error (.badVariable field name other.typeName) := by
        refine mapM_eq_error_iff.mpr ⟨front, (name, other), back, rfl, fun entry hentry => ?_,
          checkVariable_eq_error hvalue⟩
        exact ⟨(), checkVariable_eq_ok_iff.mpr (hfront entry hentry)⟩
      rw [validate, if_pos hkind, List.forM_eq_forM, forM_eq_map_mapM, hcheck]
      rfl

/-- A value is given as an environment, or there is a reason why it is none. -/
theorem isGiven_or_isRefused (field : String) (value : Value) :
    IsGiven value ∨ ∃ failure, IsRefused field value failure := by
  cases value with
  | missing | null => exact Or.inl (.absent rfl)
  | list items => exact Or.inr ⟨_, .list items⟩
  | object kind members =>
      by_cases hkind : kind = .plain ∨ kind = .bare
      · rcases hcheck : members.mapM (checkVariable field) with failure | done
        · obtain ⟨front, ⟨name, value⟩, back, rfl, hfront, hfault⟩ := mapM_eq_error_iff.mp hcheck
          refine Or.inr ⟨_, .notText hkind (fun entry hentry => ?_) fun s htext => ?_⟩
          · obtain ⟨done, hdone⟩ := hfront entry hentry
            exact checkVariable_eq_ok_iff.mp hdone
          · rw [htext] at hfault
            cases hfault
        · refine Or.inl (.table hkind fun entry hentry => ?_)
          obtain ⟨done, hdone⟩ := mapM_eq_ok_iff.mp ⟨_, hcheck⟩ entry hentry
          exact checkVariable_eq_ok_iff.mp hdone
      · exact Or.inr ⟨_, .object members hkind⟩
  | bool _ | number _ | text _ | atom _ =>
      exact Or.inr ⟨_, .other rfl (by simp) (by simp)⟩

theorem validate_eq_error_iff :
    validate value field = .error failure ↔ IsRefused field value failure := by
  refine ⟨fun h => ?_, validate_of_isRefused⟩
  rcases isGiven_or_isRefused field value with hgiven | ⟨cause, hrefused⟩
  · rw [validate_of_isGiven hgiven] at h
    cases h
  · rw [validate_of_isRefused hrefused] at h
    cases h
    exact hrefused

theorem exists_validate_iff (field : String) :
    (∃ environment, validate value field = .ok environment) ↔ IsGiven value := by
  refine ⟨fun ⟨environment, h⟩ => ?_, fun h => ⟨_, validate_of_isGiven h field⟩⟩
  rcases isGiven_or_isRefused field value with hgiven | ⟨failure, hrefused⟩
  · exact hgiven
  · rw [validate_of_isRefused hrefused] at h
    cases h

theorem IsRefused.realm_eq (h : IsRefused field value failure) :
    failure.realm = .configuration := by
  cases h <;> rfl

theorem isText_of_validate (h : validate value field = .ok environment) : environment.IsText := by
  have hgiven := (exists_validate_iff field).mp ⟨_, h⟩
  obtain rfl := Except.ok.inj (h.symm.trans (validate_of_isGiven hgiven field))
  refine ⟨Dict.isOrdered_nil.assignAll _, fun entry hentry => ?_⟩
  rcases Dict.mem_of_mem_assignAll hentry with hentry | hentry
  · simp at hentry
  · exact hgiven.text_of_mem entry hentry

end

/-! ## Merging -/

section

variable {environment : Environment} {base given : Dict Value}

/-- Where there is no base environment, it is as if there were an empty one. -/
theorem onTopOf_eq_merge (h : Dict.IsOrdered environment) (base : Option (Dict Value)) :
    environment.onTopOf base =
      (Dict.assignAll [] (defined (base.getD []))).merge environment := by
  cases base with
  | none => exact (Dict.ofList_eq_self h).symm
  | some base => rfl

theorem get?_defined (hbase : base.keys.Nodup) {name : String} {value : Value} :
    (defined base).get? name = some value ↔ base.get? name = some value ∧ value ≠ .missing := by
  rw [defined, Dict.get?_filter hbase, Option.filter_eq_some_iff, and_congr_right_iff]
  intro _
  cases value <;> simp

theorem isText_onTopOf (h : environment.IsText)
    {base : Option (Dict Value)} (hbase : ∀ b, base = some b → IsBaseEnvironment b) :
    (environment.onTopOf base).IsText := by
  cases base with
  | none => exact h
  | some base =>
      refine ⟨(Dict.isOrdered_nil.assignAll _).merge _, fun entry hentry => ?_⟩
      rcases Dict.mem_of_mem_merge hentry with hentry | hentry
      · rcases Dict.mem_of_mem_assignAll hentry with hentry | hentry
        · simp at hentry
        · obtain ⟨hmem, hdefined⟩ := List.mem_filter.mp hentry
          rcases hbase base rfl entry hmem with hmissing | htext
          · simp [hmissing] at hdefined
          · exact htext
      · exact h.values entry hentry

/-- Binding a variable to a text keeps an environment one of texts. -/
theorem IsText.insert (h : environment.IsText) (name s : String) :
    IsText (Dict.insert environment name (.text s)) := by
  refine ⟨h.ordered.insert name _, fun entry hentry => ?_⟩
  rcases Dict.mem_of_mem_insert hentry with rfl | hentry
  · exact ⟨s, rfl⟩
  · exact h.values entry hentry

/-- Variables on top of a base environment are merged with it. -/
theorem isMerge_onTopOf {base : Option (Dict Value)} (hgiven : given.keys.Nodup)
    (hbase : ∀ b, base = some b → b.keys.Nodup) :
    IsMerge (onTopOf (Dict.assignAll [] given) base) (base.getD []) given := by
  have hgivenOrdered := Dict.isOrdered_nil.assignAll given
  have hbaseNodup : (base.getD []).keys.Nodup := by
    cases base with
    | none => exact List.nodup_nil
    | some base => exact hbase base rfl
  have hdefined : (defined (base.getD [])).keys.Nodup := Dict.nodup_keys_filter hbaseNodup _
  rw [onTopOf_eq_merge hgivenOrdered]
  generalize base.getD [] = base at hbaseNodup hdefined
  have hordered := (Dict.isOrdered_nil.assignAll (defined base)).merge (Dict.assignAll [] given)
  constructor
  · intro name value hname
    rw [Dict.get?_merge _ hgivenOrdered.nodup, Dict.get?_assignAll_nil hgiven hname,
      Dict.get?_assignAll_nil hdefined hname, ← get?_defined hbaseNodup, ← Dict.isSome_get?_iff]
    cases given.get? name <;> simp
  · rw [Dict.mem_keys_merge, Dict.mem_keys_assignAll_nil, Dict.mem_keys_assignAll_nil]
    simp
  · rw [← Dict.names_merge_assignAll_nil hdefined hgiven]
    exact hordered.keys_eq

/-- An environment of texts without the reserved key is validated as it is. -/
theorem validate_table (h : environment.IsText)
    (hreserved : Dict.reservedKey ∉ Dict.keys environment) (field : String) :
    validate (.table environment) field = .ok environment := by
  rw [validate_of_isGiven (.table (Or.inl rfl) h.values) field]
  exact congrArg _ (Dict.assignAll_nil_eq_self h.ordered hreserved)

end

end Environment

end Dispatch
