import Dispatch.Dict
import Dispatch.Number.Basic

/-!
# Untyped values

Job descriptions, configurations and environments arrive as values of any kind,
and are checked before they are used.  `Value` has the kinds that JSON can hold
and also those that only a caller in memory can hand over: missing values,
atoms, and objects that are not plain tables.
-/

namespace Dispatch

/-- Values without parts that no document can hold. -/
inductive Atom
  | bigint
  | symbol
  | function
deriving DecidableEq

/-- What an object is, besides the table of its members. -/
inductive ObjectClass
  /-- An ordinary table. -/
  | plain
  /-- A table that answers to its own members only. -/
  | bare
  /-- A table of some class, which goes by a tag in messages. -/
  | tagged (tag : String)
  | date
  | regExp
  | error
  | bytes
  | boxedText
deriving DecidableEq

/-- A value of any kind. -/
inductive Value
  | missing
  | null
  | bool (value : Bool)
  | number (value : Number)
  | text (value : String)
  | atom (kind : Atom)
  | list (items : List Value)
  | object (kind : ObjectClass) (members : List (String × Value))

instance : Inhabited Value := ⟨.missing⟩

/-- An ordinary table with the given members. -/
abbrev Value.table (members : Dict Value) : Value :=
  .object .plain members

namespace ObjectClass

/-- The name that the class goes by in messages. -/
def tag : ObjectClass → String
  | .plain | .bare => "Object"
  | .tagged tag => tag
  | .date => "Date"
  | .regExp => "RegExp"
  | .error => "Error"
  | .bytes => "Uint8Array"
  | .boxedText => "String"

/-- Names that an object of the class holds without listing them among its members. -/
def hiddenNames : ObjectClass → List String
  | .error => ["stack", "message"]
  | .regExp => ["lastIndex"]
  | .boxedText => ["length"]
  | _ => []

end ObjectClass

namespace Value

/-- Neither missing nor null. -/
def isPresent : Value → Bool
  | .missing | .null => false
  | _ => true

/-- A value, unless it is missing or null. -/
def present? : Value → Option Value
  | .missing | .null => none
  | value => some value

/-- Whether the value counts as true in a condition. -/
def isTruthy : Value → Bool
  | .missing | .null => false
  | .bool value => value
  | .number value => !(value.equal 0) && value != .nan
  | .text value => value != ""
  | _ => true

/-- The kind of the value in one word; null and lists count as objects. -/
def typeName : Value → String
  | .missing => "undefined"
  | .bool _ => "boolean"
  | .number _ => "number"
  | .text _ => "string"
  | .atom .bigint => "bigint"
  | .atom .symbol => "symbol"
  | .atom .function => "function"
  | .null | .list _ | .object _ _ => "object"

/-- The members of an object; other values have none. -/
def members : Value → Dict Value
  | .object _ members => members
  | _ => []

/-- The member of an object under a name, or `missing`. -/
def member (value : Value) (name : String) : Value :=
  (value.members.get? name).getD .missing

end Value

end Dispatch
