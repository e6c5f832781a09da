import Dispatch.Number.Text
import Dispatch.Text.Units
import Dispatch.Value.Basic

/-!
# Writing JSON

A value is written in two steps.  `Value.serial?` reduces it to what a document
can hold: parts without a document form are left out of tables and are null in
lists, numbers that are not finite are null, and every object becomes a plain
table.  `Json.chars` then writes the reduced value in a style, on one line or
indented.

Large integers cannot be reduced at all; `Value.isWritable` says whether there are
none that the reduction would come to.
-/

namespace Dispatch

/-- The instant that every date value denotes, as documents write it. -/
def epochText : String :=
  "1970-01-01T00:00:00.000Z"

namespace Number

/-- A number as documents keep it: without the sign of zero, and finite. -/
def serial? : Number → Option Number
  | .finite negative magnitude =>
    some (.finite (negative && magnitude.units != 0) magnitude)
  | _ => none

end Number

namespace Value

/--
Whether the members of an object replace its document form.  A function named
`toJSON` does, and what it gives has no document form itself.
-/
def replacesForm (members : List (String × Value)) : Bool :=
  match Dict.get? members "toJSON" with
  | some (.atom .function) => true
  | _ => false

mutual

/-- Whether no part of the value that a document would hold is a large integer. -/
def isWritable : Value → Bool
  | .atom .bigint => false
  | .list items => itemsWritable items
  | .object _ members => replacesForm members || membersWritable members
  | _ => true

/-- Whether the items of a list are all writable. -/
def itemsWritable : List Value → Bool
  | [] => true
  | item :: rest => item.isWritable && itemsWritable rest

/-- Whether the members of a table are all writable. -/
def membersWritable : List (String × Value) → Bool
  | [] => true
  | (_, value) :: rest => value.isWritable && membersWritable rest

end

mutual

/-- What a document holds for the value, if anything. -/
def serial? : Value → Option Value
  | .missing | .atom _ => none
  | .null => some .null
  | .bool value => some (.bool value)
  | .number value => some ((value.serial?.map .number).getD .null)
  | .text value => some (.text value)
  | .list items => some (.list (serialItems items))
  | .object kind members =>
    if replacesForm members then none
    else match kind with
      | .date => some (.text epochText)
      | .boxedText => some ((Dict.get? members "0").getD (.text ""))
      | _ => some (.table (serialMembers members))

/-- The items of a list; one without a document form is null. -/
def serialItems : List Value → List Value
  | [] => []
  | item :: rest => (item.serial?.getD .null) :: serialItems rest

/-- The members of a table; one without a document form is left out. -/
def serialMembers : List (String × Value) → List (String × Value)
  | [] => []
  | (name, value) :: rest =>
    match value.serial? with
    | some value => (name, value) :: serialMembers rest
    | none => serialMembers rest

end

end Value

namespace Json

/-- How the parts of a document are laid out. -/
structure Style where
  /-- What stands before an item, a member or a closing bracket at a depth. -/
  lineBreak : Nat → List Char
  /-- What stands between a member's name and its value. -/
  colon : List Char

/-- The document on one line without blanks. -/
def Style.compact : Style :=
  ⟨fun _ => [], [':']⟩

/-- Every item and member on a line of its own, two blanks further in than its table or list. -/
def Style.indented : Style :=
  ⟨fun depth => '\n' :: List.replicate (2 * depth) ' ', [':', ' ']⟩

/-- A character inside a quoted text. -/
def escapeChar (c : Char) : List Char :=
  if c = '\x22' then ['\\', '\x22']
  else if c = '\\' then ['\\', '\\']
  else if c = '\x08' then ['\\', 'b']
  else if c = '\t' then ['\\', 't']
  else if c = '\n' then ['\\', 'n']
  else if c = '\x0C' then ['\\', 'f']
  else if c = '\r' then ['\\', 'r']
  else if c.toNat < 0x20 then
    ['\\', 'u', '0', '0', Nat.digitChar (c.toNat / 16), Nat.digitChar (c.toNat % 16)]
  else [c]

/-- A part of a quoted text; a surrogate that stands alone is written by its number. -/
def escapePoint : Text.Point → List Char
  | .char c => escapeChar c
  | .lone unit =>
    let n := unit.toNat
    ['\\', 'u', Nat.digitChar (n / 0x1000), Nat.digitChar (n / 0x100 % 16),
      Nat.digitChar (n / 0x10 % 16), Nat.digitChar (n % 16)]

/-- A quoted text. -/
def quotedChars (s : String) : List Char :=
  '\x22' :: (Text.points (textUnits s)).flatMap escapePoint ++ ['\x22']

mutual

/-- A value in a style, inside so many tables and lists. -/
def chars (style : Style) (depth : Nat) : Value → List Char
  | .missing | .null | .atom _ => "null".toList
  | .bool true => "true".toList
  | .bool false => "false".toList
  | .number value => value.chars
  | .text value => quotedChars value
  | .list [] => ['[', ']']
  | .list (item :: rest) =>
    '[' :: style.lineBreak (depth + 1) ++ chars style (depth + 1) item ++
      itemsChars style depth rest
  | .object _ [] => ['\x7b', '\x7d']
  | .object _ ((name, value) :: rest) =>
    '\x7b' :: style.lineBreak (depth + 1) ++ quotedChars name ++ style.colon ++
      chars style (depth + 1) value ++ membersChars style depth rest

/-- The items after the first, and the end of the list. -/
def itemsChars (style : Style) (depth : Nat) : List Value → List Char
  | [] => style.lineBreak depth ++ [']']
  | item :: rest =>
    ',' :: style.lineBreak (depth + 1) ++ chars style (depth + 1) item ++
      itemsChars style depth rest

/-- The members after the first, and the end of the table. -/
def membersChars (style : Style) (depth : Nat) : List (String × Value) → List Char
  | [] => style.lineBreak depth ++ ['\x7d']
  | (name, value) :: rest =>
    ',' :: style.lineBreak (depth + 1) ++ quotedChars name ++ style.colon ++
      chars style (depth + 1) value ++ membersChars style depth rest

end

/-- A document in a style. -/
def print (style : Style) (value : Value) : String :=
  String.ofList (chars style 0 value)

end Json

end Dispatch
