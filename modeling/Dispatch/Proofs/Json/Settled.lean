import Dispatch.Proofs.Json.Plain
import Dispatch.Value.Members

/-!
# Values that come back from documents

`Value.IsJson` says what is read from a document with finite numbers, which
`Value.hasFiniteNumbers` looks for.  Written and read again it is the same but for the signs
of zeros, which `Value.fullySettled` drops at any depth.

Whatever was read can be written and read again.  What comes back then is `Value.asRead`,
with null in place of numbers out of range.
-/

namespace Dispatch

/-- What is read from a document with finite numbers; a zero that is read can have a sign. -/
inductive Value.IsJson : Value → Prop
  | null : IsJson .null
  | bool (value : Bool) : IsJson (.bool value)
  | number {x : Number} (hx : x.isFinite = true) : IsJson (.number x)
  | text (s : String) : IsJson (.text s)
  | list {items : List Value} (hitems : ∀ item ∈ items, IsJson item) : IsJson (.list items)
  | table {members : Dict Value} (hordered : members.IsOrdered)
      (hmembers : ∀ entry ∈ members, IsJson entry.2) : IsJson (.table members)

namespace Value

section

variable {value : Value} {name : String}

theorem IsJson.member (h : value.IsJson) (name : String) :
    value.member name = .missing ∨ (value.member name).IsJson := by
  cases h with
  | @table members _ hmembers =>
      rw [member_table]
      cases hget : members.get? name with
      | none => exact Or.inl rfl
      | some value => exact Or.inr (hmembers _ (Dict.mem_of_get? hget))
  | _ => exact Or.inl rfl

theorem IsJson.isPlain (h : value.IsJson) : value.IsPlain := by
  induction h with
  | null => exact .null
  | bool b => exact .bool b
  | number => exact .number _
  | text s => exact .text s
  | list _ ih => exact .list ih
  | table hordered _ ih => exact .table hordered ih

theorem IsDocument.isJson (h : value.IsDocument) : value.IsJson := by
  induction h with
  | null => exact .null
  | bool b => exact .bool b
  | number hx => exact .number (Number.isFinite_of_serial? hx)
  | text s => exact .text s
  | list _ ih => exact .list ih
  | table hordered _ ih => exact .table hordered ih

theorem IsJson.of_mem_members (h : value.IsJson) : ∀ entry ∈ value.members, entry.2.IsJson := by
  cases h with
  | table _ hmembers => exact hmembers
  | _ => simp [members]

theorem IsJson.of_mem_tableMember (h : value.IsJson) :
    ∀ entry ∈ value.tableMember name, entry.2.IsJson := by
  rcases h.member name with hmissing | hmember
  · simp [tableMember, hmissing, members]
  · exact hmember.of_mem_members

theorem IsJson.isOrdered_members (h : value.IsJson) :
    Dict.IsOrdered value.members := by
  cases h with
  | table hordered _ => exact hordered
  | _ => exact Dict.isOrdered_nil

theorem IsJson.isOrdered_tableMember (h : value.IsJson) (name : String) :
    (value.tableMember name).IsOrdered := by
  rw [tableMember]
  rcases h.member name with hmissing | hmember
  · rw [hmissing]
    exact Dict.isOrdered_nil
  · exact hmember.isOrdered_members

end

/-! ## Values in which all numbers are finite -/

mutual

/-- Whether all numbers in the value are finite, at any depth. -/
def hasFiniteNumbers : Value → Bool
  | .number x => x.isFinite
  | .list items => itemsHaveFiniteNumbers items
  | .object _ members => membersHaveFiniteNumbers members
  | _ => true

/-- Whether all numbers in the items of a list are finite. -/
def itemsHaveFiniteNumbers : List Value → Bool
  | [] => true
  | item :: rest => item.hasFiniteNumbers && itemsHaveFiniteNumbers rest

/-- Whether all numbers in the members of an object are finite. -/
def membersHaveFiniteNumbers : List (String × Value) → Bool
  | [] => true
  | (_, value) :: rest => value.hasFiniteNumbers && membersHaveFiniteNumbers rest

end

theorem itemsHaveFiniteNumbers_iff {items : List Value} :
    itemsHaveFiniteNumbers items = true ↔ ∀ item ∈ items, item.hasFiniteNumbers = true := by
  induction items with
  | nil => simp [itemsHaveFiniteNumbers]
  | cons item rest ih => simp [itemsHaveFiniteNumbers, ih]

theorem membersHaveFiniteNumbers_iff {members : List (String × Value)} :
    membersHaveFiniteNumbers members = true ↔
      ∀ entry ∈ members, entry.2.hasFiniteNumbers = true := by
  induction members with
  | nil => simp [membersHaveFiniteNumbers]
  | cons entry rest ih => simp [membersHaveFiniteNumbers, ih]

/-- What is read from a document has all that it takes but for finite numbers. -/
theorem IsRead.isJson {value : Value} (h : value.IsRead) (hfinite : value.hasFiniteNumbers = true) :
    value.IsJson := by
  induction h with
  | null => exact .null
  | bool b => exact .bool b
  | number x => exact .number hfinite
  | text s => exact .text s
  | list _ ih =>
      rw [hasFiniteNumbers, itemsHaveFiniteNumbers_iff] at hfinite
      exact .list fun item hitem => ih item hitem (hfinite item hitem)
  | table hordered _ ih =>
      rw [hasFiniteNumbers, membersHaveFiniteNumbers_iff] at hfinite
      exact .table hordered fun entry hentry => ih entry hentry (hfinite entry hentry)

/-! ## Values in which no zero has a sign -/

mutual

/-- A value in which zero has no sign, at any depth. -/
def fullySettled : Value → Value
  | .number x => .number x.settled
  | .list items => .list (fullySettledItems items)
  | .object kind members => .object kind (fullySettledMembers members)
  | value => value

/-- The items of a list with no signs of zeros. -/
def fullySettledItems : List Value → List Value
  | [] => []
  | item :: rest => item.fullySettled :: fullySettledItems rest

/-- The members of an object with no signs of zeros. -/
def fullySettledMembers : List (String × Value) → List (String × Value)
  | [] => []
  | (name, value) :: rest => (name, value.fullySettled) :: fullySettledMembers rest

end

theorem fullySettledItems_eq_map (items : List Value) :
    fullySettledItems items = items.map fullySettled := by
  induction items with
  | nil => rfl
  | cons item rest ih => rw [fullySettledItems, ih, List.map_cons]

theorem fullySettledMembers_eq_map (members : List (String × Value)) :
    fullySettledMembers members = members.map fun entry => (entry.1, entry.2.fullySettled) := by
  induction members with
  | nil => rfl
  | cons entry rest ih => rw [fullySettledMembers, ih, List.map_cons]

/-- A document holds what was read from one with the signs of its zeros dropped. -/
theorem IsJson.serial?_eq {value : Value} (h : value.IsJson) :
    value.serial? = some value.fullySettled := by
  induction h with
  | null => rfl
  | bool b => rfl
  | number hx =>
      rw [serial?, Number.serial?_of_isFinite hx]
      rfl
  | text s => rfl
  | @list items _ ih =>
      have hitems : items.map (fun item => item.serial?.getD .null) = items.map fullySettled :=
        List.map_congr_left fun item hitem => by rw [ih item hitem, Option.getD_some]
      rw [serial?, serialItems_eq_map, hitems, fullySettled, fullySettledItems_eq_map]
  | table _ hmembers ih =>
      rw [serial?_table fun entry hentry => (hmembers entry hentry).isPlain,
        serialMembers_eq_map ih, fullySettled, fullySettledMembers_eq_map]

theorem members_fullySettled (value : Value) :
    value.fullySettled.members =
      value.members.map fun entry => (entry.1, entry.2.fullySettled) := by
  cases value with
  | object kind members => exact fullySettledMembers_eq_map members
  | _ => rfl

theorem member_fullySettled (value : Value) (name : String) :
    value.fullySettled.member name = (value.member name).fullySettled := by
  rw [member, member, members_fullySettled, Dict.get?_map]
  rcases value.members.get? name with _ | found
  · rfl
  · rfl

/-! ## Values with numbers out of range -/

mutual

/-- The value as it is read again: null for a number out of range, and zero without a sign. -/
def asRead : Value → Value
  | .number x => if x.isFinite then .number x.settled else .null
  | .list items => .list (asReadItems items)
  | .object kind members => .object kind (asReadMembers members)
  | value => value

/-- The items of a list as they are read again. -/
def asReadItems : List Value → List Value
  | [] => []
  | item :: rest => item.asRead :: asReadItems rest

/-- The members of an object as they are read again. -/
def asReadMembers : List (String × Value) → List (String × Value)
  | [] => []
  | (name, value) :: rest => (name, value.asRead) :: asReadMembers rest

end

theorem asReadItems_eq_map (items : List Value) : asReadItems items = items.map asRead := by
  induction items with
  | nil => rfl
  | cons item rest ih => rw [asReadItems, ih, List.map_cons]

theorem asReadMembers_eq_map (members : List (String × Value)) :
    asReadMembers members = members.map fun entry => (entry.1, entry.2.asRead) := by
  induction members with
  | nil => rfl
  | cons entry rest ih => rw [asReadMembers, ih, List.map_cons]

theorem asRead_number {x : Number} (hfinite : x.isFinite = true) (hsettled : x.settled = x) :
    (Value.number x).asRead = .number x := by
  rw [asRead, if_pos hfinite, hsettled]

theorem serial?_number (x : Number) : (Value.number x).serial? = some (asRead (.number x)) := by
  rw [serial?, asRead]
  cases hx : x.isFinite with
  | true => rw [Number.serial?_of_isFinite hx, if_pos rfl]; rfl
  | false => rw [Number.serial?_eq_none hx, if_neg (by simp)]; rfl

/-- A document holds what was read from one as it will be read again. -/
theorem IsRead.serial?_eq {value : Value} (h : value.IsRead) :
    value.serial? = some value.asRead := by
  induction h with
  | null => rfl
  | bool b => rfl
  | number x => exact serial?_number x
  | text s => rfl
  | @list items _ ih =>
      have hitems : items.map (fun item => item.serial?.getD .null) = items.map asRead :=
        List.map_congr_left fun item hitem => by rw [ih item hitem, Option.getD_some]
      rw [serial?, serialItems_eq_map, hitems, asRead, asReadItems_eq_map]
  | table _ hmembers ih =>
      rw [serial?_table fun entry hentry => (hmembers entry hentry).isPlain,
        serialMembers_eq_map ih, asRead, asReadMembers_eq_map]

@[simp] theorem asRead_eq_missing_iff (value : Value) :
    value.asRead = .missing ↔ value = .missing := by
  cases value with
  | number x =>
      rw [asRead]
      split <;> simp
  | _ => simp [asRead]

/-- What is read again stays as it is. -/
theorem IsRead.asRead_asRead {value : Value} (h : value.IsRead) :
    value.asRead.asRead = value.asRead := by
  induction h with
  | null => rfl
  | bool b => rfl
  | number x =>
      cases hx : x.isFinite with
      | true => simp [asRead, hx, Number.isFinite_settled, Number.settled_settled]
      | false => simp [asRead, hx]
  | text s => rfl
  | list _ ih =>
      simp only [asRead, asReadItems_eq_map, List.map_map, list.injEq]
      exact List.map_congr_left ih
  | table _ _ ih =>
      simp only [asRead, asReadMembers_eq_map, List.map_map, object.injEq, true_and]
      exact List.map_congr_left fun entry hentry => congrArg _ (ih entry hentry)

/-- A member of what was read is missing or was read itself. -/
theorem IsRead.member {value : Value} (h : value.IsRead) (name : String) :
    value.member name = .missing ∨ (value.member name).IsRead := by
  cases h with
  | @table members _ hmembers =>
      rw [member_table]
      cases hget : members.get? name with
      | none => exact Or.inl rfl
      | some value => exact Or.inr (hmembers _ (Dict.mem_of_get? hget))
  | _ => exact Or.inl rfl

theorem members_asRead (value : Value) :
    value.asRead.members = value.members.map fun entry => (entry.1, entry.2.asRead) := by
  cases value with
  | object kind members => exact asReadMembers_eq_map members
  | number x =>
      rw [asRead]
      split <;> rfl
  | _ => rfl

theorem member_asRead (value : Value) (name : String) :
    value.asRead.member name = (value.member name).asRead := by
  rw [member, member, members_asRead, Dict.get?_map]
  rcases value.members.get? name with _ | found
  · rfl
  · rfl

/-- The document of a table answers its members as they are read again. -/
theorem member_serialMembers {members : Dict Value} (hnodup : members.keys.Nodup)
    (h : ∀ entry ∈ members, entry.2 = .missing ∨ entry.2.IsRead) (name : String) :
    (Value.table (serialMembers members)).member name =
      ((Value.table members).member name).asRead := by
  rw [member_table, member_table, get?_serialMembers hnodup]
  cases hget : members.get? name with
  | none => rfl
  | some value =>
      rcases h _ (Dict.mem_of_get? hget) with hmissing | hread
      · have hmissing : value = .missing := hmissing
        rw [hmissing]
        rfl
      · have hread : value.IsRead := hread
        rw [Option.bind_some, hread.serial?_eq, Option.getD_some, Option.getD_some]

end Value

end Dispatch
