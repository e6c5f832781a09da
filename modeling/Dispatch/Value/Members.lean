import Dispatch.Value.Basic

/-!
# Members of accepted tables

Once a schema has accepted a table, its members are known to be of the kinds that
the schema asks for, and are taken with these functions.  A member of another kind
is taken as empty or absent.
-/

namespace Dispatch.Value

/-- A text, or the empty one. -/
def textMember (table : Value) (name : String) : String :=
  match table.member name with
  | .text content => content
  | _ => ""

/-- A text that may be null or absent. -/
def textMember? (table : Value) (name : String) : Option String :=
  match table.member name with
  | .text content => some content
  | _ => none

/-- True or false, if it is there. -/
def boolMember? (table : Value) (name : String) : Option Bool :=
  match table.member name with
  | .bool flag => some flag
  | _ => none

/-- True or false; an absent one is false. -/
def boolMember (table : Value) (name : String) : Bool :=
  (table.boolMember? name).getD false

/-- The items of a list. -/
def listMember (table : Value) (name : String) : List Value :=
  match table.member name with
  | .list items => items
  | _ => []

/-- The texts in a list. -/
def textsMember (table : Value) (name : String) : List String :=
  (table.listMember name).filterMap fun item => match item with
    | .text content => some content
    | _ => none

/-- The members of a table. -/
def tableMember (table : Value) (name : String) : Dict Value :=
  (table.member name).members

/-- A text or null. -/
def ofText? : Option String → Value
  | some content => .text content
  | none => .null

end Dispatch.Value
