import Dispatch.Json.Document
import Dispatch.Proofs.Json.RoundTrip

/-!
# Plain values and their documents

`Value.IsPlain` says of a value that all its objects are ordinary tables in
dictionary order, and that nothing in it lacks a document form but missing values.
What is read from a document, `Value.IsRead`, is plain, and a plain value can always be
written.

The document of a plain value is its reduction `Value.serial?`, which a document can
hold as it is.
-/

namespace Dispatch

/-- All objects are ordinary tables, and only missing values lack a document form. -/
inductive Value.IsPlain : Value → Prop
  | missing : IsPlain .missing
  | null : IsPlain .null
  | bool (value : Bool) : IsPlain (.bool value)
  | number (x : Number) : IsPlain (.number x)
  | text (s : String) : IsPlain (.text s)
  | list {items : List Value} (hitems : ∀ item ∈ items, IsPlain item) : IsPlain (.list items)
  | table {members : Dict Value} (hordered : members.IsOrdered)
      (hmembers : ∀ entry ∈ members, IsPlain entry.2) : IsPlain (.table members)

/-- What is read from a document; a number in it can be out of range. -/
inductive Value.IsRead : Value → Prop
  | null : IsRead .null
  | bool (value : Bool) : IsRead (.bool value)
  | number (x : Number) : IsRead (.number x)
  | text (s : String) : IsRead (.text s)
  | list {items : List Value} (hitems : ∀ item ∈ items, IsRead item) : IsRead (.list items)
  | table {members : Dict Value} (hordered : members.IsOrdered)
      (hmembers : ∀ entry ∈ members, IsRead entry.2) : IsRead (.table members)

/-! ## Numbers -/

namespace Number

/-- The number without the sign of zero. -/
def settled : Number → Number
  | .finite negative magnitude => .finite (negative && magnitude.units != 0) magnitude
  | x => x

theorem serial?_of_isFinite {x : Number} (h : x.isFinite = true) : x.serial? = some x.settled := by
  cases x with
  | nan => simp [isFinite] at h
  | infinite negative => simp [isFinite] at h
  | finite negative magnitude => rfl

theorem serial?_eq_none {x : Number} (h : x.isFinite = false) : x.serial? = none := by
  cases x with
  | nan => rfl
  | infinite negative => rfl
  | finite negative magnitude => simp [isFinite] at h

theorem settled_settled (x : Number) : x.settled.settled = x.settled := by
  cases x with
  | nan => rfl
  | infinite negative => rfl
  | finite negative magnitude => simp [settled]

theorem isFinite_settled (x : Number) : x.settled.isFinite = x.isFinite := by
  cases x <;> rfl

theorem signed_settled (negative : Bool) (m : Magnitude) :
    signed (negative && m.units != 0) m = signed negative m := by
  by_cases h : m.units = 0
  · simp [signed, h]
  · simp [signed, h]

theorem units?_settled (x : Number) : x.settled.units? = x.units? := by
  cases x with
  | nan => rfl
  | infinite negative => rfl
  | finite negative magnitude =>
      exact congrArg some (signed_settled negative magnitude)

theorem isInteger_settled (x : Number) : x.settled.isInteger = x.isInteger := by
  rw [isInteger, isInteger, units?_settled]

theorem less_settled (x y : Number) : x.settled.less y = x.less y := by
  cases x with
  | nan => rfl
  | infinite negative => rfl
  | finite negative magnitude =>
      cases y with
      | nan => rfl
      | infinite negative' => rfl
      | finite negative' magnitude' =>
          simp only [settled, less, signed_settled]

theorem less_settled_right (x y : Number) : x.less y.settled = x.less y := by
  cases y with
  | nan => rfl
  | infinite negative => rfl
  | finite negative magnitude =>
      cases x with
      | nan => rfl
      | infinite negative' => rfl
      | finite negative' magnitude' =>
          simp only [settled, less, signed_settled]

theorem serial?_settled {x : Number} (h : x.isFinite = true) :
    x.settled.serial? = some x.settled := by
  rw [serial?_of_isFinite (by rw [isFinite_settled, h]), settled_settled]

theorem isFinite_of_serial? {x y : Number} (h : x.serial? = some y) : x.isFinite = true := by
  cases x with
  | nan => simp [serial?] at h
  | infinite negative => simp [serial?] at h
  | finite negative magnitude => rfl

theorem serial?_of_serial? {x y : Number} (h : x.serial? = some y) : y.serial? = some y := by
  have hx := isFinite_of_serial? h
  rw [serial?_of_isFinite hx] at h
  cases h
  exact serial?_settled hx

end Number

namespace Value

theorem IsRead.isPlain {v : Value} (h : v.IsRead) : v.IsPlain := by
  induction h with
  | null => exact .null
  | bool value => exact .bool value
  | number x => exact .number x
  | text s => exact .text s
  | list _ ih => exact .list ih
  | table hordered _ ih => exact .table hordered ih

theorem IsDocument.isPlain {v : Value} (h : v.IsDocument) : v.IsPlain := by
  induction h with
  | null => exact .null
  | bool value => exact .bool value
  | number hx => exact .number _
  | text s => exact .text s
  | list _ ih => exact .list ih
  | table hordered _ ih => exact .table hordered ih

/-! ## Parts of plain values -/

theorem member_table (members : Dict Value) (name : String) :
    (Value.table members).member name = (members.get? name).getD .missing :=
  rfl

theorem IsPlain.member {v : Value} (h : v.IsPlain) (name : String) : (v.member name).IsPlain := by
  cases h with
  | @table members _ hmembers =>
      rw [member_table]
      cases hget : members.get? name with
      | none => exact .missing
      | some value => exact hmembers _ (Dict.mem_of_get? hget)
  | _ => exact .missing

/-- A plain value with a member is a table. -/
theorem IsPlain.eq_table {v : Value} (h : v.IsPlain) (name : String)
    (hmember : v.member name ≠ .missing) : ∃ members : Dict Value, v = .table members := by
  cases h with
  | @table members _ _ => exact ⟨members, rfl⟩
  | _ => exact absurd rfl hmember

theorem isPlain_table_iff {members : Dict Value} :
    (Value.table members).IsPlain ↔
      members.IsOrdered ∧ ∀ entry ∈ members, entry.2.IsPlain := by
  constructor
  · rintro ⟨⟩
    exact ⟨‹_›, ‹_›⟩
  · rintro ⟨hordered, hmembers⟩
    exact .table hordered hmembers

theorem IsPlain.insert {members : Dict Value} (h : (Value.table members).IsPlain) (name : String)
    {value : Value} (hvalue : value.IsPlain) :
    (Value.table (members.insert name value)).IsPlain := by
  rw [isPlain_table_iff] at h ⊢
  refine ⟨h.1.insert name value, fun entry hentry => ?_⟩
  rcases Dict.mem_of_mem_insert hentry with rfl | hentry
  · exact hvalue
  · exact h.2 entry hentry

/-! ## Reductions of plain values -/

/-- A plain table has no function among its members. -/
theorem replacesForm_of_isPlain {members : Dict Value}
    (h : ∀ entry ∈ members, IsPlain entry.2) : replacesForm members = false := by
  unfold replacesForm
  split
  next heq => nomatch h _ (Dict.mem_of_get? heq)
  next => rfl

theorem itemsWritable_iff {items : List Value} :
    itemsWritable items = true ↔ ∀ item ∈ items, item.isWritable = true := by
  induction items with
  | nil => simp [itemsWritable]
  | cons item rest ih => simp [itemsWritable, ih]

theorem membersWritable_iff {members : List (String × Value)} :
    membersWritable members = true ↔ ∀ entry ∈ members, entry.2.isWritable = true := by
  induction members with
  | nil => simp [membersWritable]
  | cons entry rest ih => simp [membersWritable, ih]

theorem isWritable_table {members : Dict Value}
    (h : ∀ entry ∈ members, entry.2.isWritable = true) :
    (Value.table members).isWritable = true := by
  rw [Value.isWritable, membersWritable_iff.mpr h, Bool.or_true]

theorem IsPlain.isWritable {v : Value} (h : v.IsPlain) : v.isWritable = true := by
  induction h with
  | missing => rfl
  | null => rfl
  | bool => rfl
  | number => rfl
  | text => rfl
  | list _ ih =>
      rw [Value.isWritable, itemsWritable_iff]
      exact ih
  | table _ _ ih => exact isWritable_table ih

theorem serial?_table {members : Dict Value} (h : ∀ entry ∈ members, IsPlain entry.2) :
    (Value.table members).serial? = some (.table (serialMembers members)) := by
  simp [serial?, replacesForm_of_isPlain h]

@[simp] theorem serial?_null : (Value.null).serial? = some .null :=
  rfl

@[simp] theorem serial?_bool (b : Bool) : (Value.bool b).serial? = some (.bool b) :=
  rfl

@[simp] theorem serial?_text (s : String) : (Value.text s).serial? = some (.text s) :=
  rfl

theorem serialItems_eq_map (items : List Value) :
    serialItems items = items.map fun item => item.serial?.getD .null := by
  induction items with
  | nil => rfl
  | cons item rest ih => simp [serialItems, ih]

theorem serialItems_append (items more : List Value) :
    serialItems (items ++ more) = serialItems items ++ serialItems more := by
  simp only [serialItems_eq_map, List.map_append]

theorem serialItems_eq_self {items : List Value} (h : ∀ item ∈ items, item.serial? = some item) :
    serialItems items = items := by
  rw [serialItems_eq_map]
  refine (List.map_congr_left fun item hitem => ?_).trans (List.map_id' _)
  rw [h item hitem, Option.getD_some]

theorem serialMembers_eq_filterMap (members : Dict Value) :
    serialMembers members =
      members.filterMap fun entry => entry.2.serial?.map fun value => (entry.1, value) := by
  induction members with
  | nil => rfl
  | cons entry rest ih =>
      obtain ⟨name, value⟩ := entry
      rw [serialMembers, List.filterMap_cons]
      cases value.serial? <;> simp [ih]

theorem mem_serialMembers {members : Dict Value} {name : String} {value : Value} :
    (name, value) ∈ serialMembers members ↔
      ∃ whole, (name, whole) ∈ members ∧ whole.serial? = some value := by
  simp [serialMembers_eq_filterMap]

theorem serialMembers_append (d e : Dict Value) :
    serialMembers (d ++ e) = serialMembers d ++ serialMembers e := by
  simp [serialMembers_eq_filterMap]

theorem keys_serialMembers_sublist (members : Dict Value) :
    (Dict.keys (serialMembers members)).Sublist members.keys := by
  induction members with
  | nil => exact List.Sublist.refl _
  | cons entry rest ih =>
      obtain ⟨name, value⟩ := entry
      rw [serialMembers]
      cases value.serial? with
      | none => exact ih.cons name
      | some value => exact ih.cons_cons name

theorem isOrdered_serialMembers {members : Dict Value} (h : members.IsOrdered) :
    Dict.IsOrdered (serialMembers members) :=
  h.of_sublist (keys_serialMembers_sublist members)

/-- The reduction of a table answers the reductions of what the table answers. -/
theorem get?_serialMembers {members : Dict Value} (h : members.keys.Nodup) (name : String) :
    Dict.get? (serialMembers members) name = (members.get? name).bind serial? := by
  induction members with
  | nil => rfl
  | cons entry rest ih =>
      obtain ⟨key, value⟩ := entry
      rw [Dict.keys_cons, List.nodup_cons] at h
      rw [serialMembers, Dict.get?_cons]
      by_cases hname : name = key
      · subst hname
        have hrest : Dict.get? (serialMembers rest) name = none :=
          Dict.get?_eq_none fun hmem => h.1 ((keys_serialMembers_sublist rest).mem hmem)
        cases hvalue : value.serial? with
        | none => simp [hrest, hvalue]
        | some value => simp [Dict.get?_cons, hvalue]
      · rw [if_neg hname]
        cases hvalue : value.serial? with
        | none => exact ih h.2
        | some value => simp only [Dict.get?_cons, if_neg hname, ih h.2]

theorem serialMembers_eq_map {members : Dict Value} {f : Value → Value}
    (h : ∀ entry ∈ members, entry.2.serial? = some (f entry.2)) :
    serialMembers members = members.map fun entry => (entry.1, f entry.2) := by
  induction members with
  | nil => rfl
  | cons entry rest ih =>
      obtain ⟨name, value⟩ := entry
      have hvalue : value.serial? = some (f value) := h (name, value) (by simp)
      simp only [serialMembers, hvalue, List.map_cons,
        ih fun e he => h e (List.mem_cons_of_mem _ he)]

theorem serialMembers_eq_self {members : Dict Value}
    (h : ∀ entry ∈ members, entry.2.serial? = some entry.2) : serialMembers members = members := by
  rw [serialMembers_eq_map (f := fun value => value) h]
  exact List.map_id members

/-- The reduction of a plain value can stand in a document. -/
theorem IsPlain.isDocument {v w : Value} (h : v.IsPlain) (hw : v.serial? = some w) :
    w.IsDocument := by
  induction h generalizing w with
  | missing => simp [serial?] at hw
  | null =>
      cases hw
      exact .null
  | bool value =>
      cases hw
      exact .bool value
  | text s =>
      cases hw
      exact .text s
  | number x =>
      rw [serial?] at hw
      cases hw
      cases hx : x.serial? with
      | none => exact .null
      | some y => exact .number (Number.serial?_of_serial? hx)
  | @list items _ ih =>
      rw [serial?, serialItems_eq_map] at hw
      cases hw
      apply IsDocument.list
      intro reduced hreduced
      obtain ⟨item, hitem, rfl⟩ := List.mem_map.mp hreduced
      cases hserial : item.serial? with
      | none => exact .null
      | some w => exact ih item hitem hserial
  | @table members hordered hmembers ih =>
      rw [serial?_table hmembers] at hw
      cases hw
      apply IsDocument.table (isOrdered_serialMembers hordered)
      intro entry hentry
      obtain ⟨whole, hwhole, hserial⟩ := mem_serialMembers.mp hentry
      exact ih _ hwhole hserial

theorem IsPlain.serial?_isSome {v : Value} (h : v.IsPlain) (hv : v ≠ .missing) :
    ∃ w, v.serial? = some w := by
  cases h with
  | missing => exact absurd rfl hv
  | table _ hmembers => exact ⟨_, serial?_table hmembers⟩
  | _ => exact ⟨_, rfl⟩

/-- What can stand in a document is its own reduction. -/
theorem IsDocument.serial?_eq {v : Value} (h : v.IsDocument) : v.serial? = some v := by
  induction h with
  | null => rfl
  | bool => rfl
  | text => rfl
  | number hx => simp [serial?, hx]
  | list _ ih => rw [serial?, serialItems_eq_self ih]
  | @table members _ hmembers ih =>
      rw [serial?_table fun entry hentry => (hmembers entry hentry).isPlain,
        serialMembers_eq_self ih]

end Value

/-! ## Writing plain values -/

namespace Json

variable {style : Style}

theorem write_of_isPlain {v : Value} (h : v.IsPlain) :
    write style v = .ok (v.serial?.map (print style)) := by
  rw [write, if_pos h.isWritable]

/-- A plain table is written as the document of its reduction. -/
theorem writeTable_of_isPlain {members : Dict Value} (h : (Value.table members).IsPlain) :
    writeTable style members = .ok (print style (.table (Value.serialMembers members))) := by
  cases h with
  | table _ hmembers =>
      rw [writeTable, write_of_isPlain (.table ‹_› hmembers), Value.serial?_table hmembers]
      rfl

/-! ## Reading -/

/-- What the readers give from so many nested calls on. -/
def GivesRead (fuel : Nat) : Prop :=
  (∀ cs v rest, readValue fuel cs = some (v, rest) → v.IsRead) ∧
  (∀ cs items rest, readItems fuel cs = some (items, rest) → ∀ item ∈ items, item.IsRead) ∧
  (∀ cs members rest, readMembers fuel cs = some (members, rest) →
    ∀ entry ∈ members, entry.2.IsRead)

theorem isRead_of_readValue {fuel : Nat} (ih : GivesRead fuel) {cs rest : List Char} {v : Value}
    (h : readValue (fuel + 1) cs = some (v, rest)) : v.IsRead := by
  rw [readValue] at h
  split at h
  next =>
    cases h
    exact .null
  next =>
    cases h
    exact .bool true
  next =>
    cases h
    exact .bool false
  next =>
    obtain ⟨read, _, heq⟩ := Option.map_eq_some_iff.mp h
    cases heq
    exact .text _
  next =>
    split at h
    next =>
      cases h
      exact .list (by simp)
    next =>
      obtain ⟨⟨items, rest'⟩, hread, heq⟩ := Option.map_eq_some_iff.mp h
      cases heq
      exact .list (ih.2.1 _ _ _ hread)
  next =>
    split at h
    next =>
      cases h
      exact .table Dict.isOrdered_nil (by simp)
    next =>
      obtain ⟨⟨members, rest'⟩, hread, heq⟩ := Option.map_eq_some_iff.mp h
      cases heq
      refine .table (Dict.isOrdered_ofList members) fun entry hentry => ?_
      exact ih.2.2 _ _ _ hread entry (Dict.mem_of_mem_ofList hentry)
  next =>
    obtain ⟨read, _, heq⟩ := Option.map_eq_some_iff.mp h
    cases heq
    exact .number _

theorem isRead_of_readItems {fuel : Nat} (ih : GivesRead fuel) {cs rest : List Char}
    {items : List Value} (h : readItems (fuel + 1) cs = some (items, rest)) :
    ∀ item ∈ items, item.IsRead := by
  rw [readItems] at h
  split at h
  next => cases h
  next first rest' hfirst =>
    have hread := ih.1 _ _ _ hfirst
    split at h
    next =>
      obtain ⟨⟨more, rest''⟩, hmore, heq⟩ := Option.map_eq_some_iff.mp h
      cases heq
      exact List.forall_mem_cons.mpr ⟨hread, ih.2.1 _ _ _ hmore⟩
    next =>
      cases h
      simpa using hread
    next => cases h

theorem isRead_of_readMembers {fuel : Nat} (ih : GivesRead fuel) {cs rest : List Char}
    {members : List (String × Value)} (h : readMembers (fuel + 1) cs = some (members, rest)) :
    ∀ entry ∈ members, entry.2.IsRead := by
  rw [readMembers] at h
  split at h
  next =>
    split at h
    next => cases h
    next name rest' _ =>
      split at h
      next =>
        split at h
        next => cases h
        next value rest'' hvalue =>
          have hread := ih.1 _ _ _ hvalue
          split at h
          next =>
            obtain ⟨⟨more, rest₃⟩, hmore, heq⟩ := Option.map_eq_some_iff.mp h
            cases heq
            exact List.forall_mem_cons.mpr ⟨hread, ih.2.2 _ _ _ hmore⟩
          next =>
            cases h
            simpa using hread
          next => cases h
      next => cases h
  next => cases h

theorem givesRead (fuel : Nat) : GivesRead fuel := by
  induction fuel with
  | zero => exact ⟨by simp [readValue], by simp [readItems], by simp [readMembers]⟩
  | succ fuel ih =>
      exact ⟨fun _ _ _ => isRead_of_readValue ih, fun _ _ _ => isRead_of_readItems ih,
        fun _ _ _ => isRead_of_readMembers ih⟩

theorem isRead_of_read? {text : String} {v : Value} (h : read? text = some v) : v.IsRead := by
  unfold read? at h
  simp only at h
  split at h
  next value rest hread =>
    split at h
    next =>
      cases h
      exact (givesRead _).1 _ _ _ hread
    next => cases h
  next => cases h

end Json

end Dispatch
