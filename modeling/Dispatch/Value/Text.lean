import Dispatch.Number.Text
import Dispatch.Value.Basic

/-!
# Values inside messages

A value that is mentioned in a message is written plainly: texts as they are,
lists as their items between commas, objects as the name of their class.  Symbols
and bare tables cannot be written.
-/

namespace Dispatch

namespace ObjectClass

/-- An object inside a message as its class writes it; a few classes show their content. -/
def ownText? (kind : ObjectClass) (members : Dict Value) : Option String :=
  match kind with
  | .bare => none
  | .date => some "Thu Jan 01 1970 00:00:00 GMT+0000 (Coordinated Universal Time)"
  | .regExp => some "/x/"
  | .error => some "Error"
  | .bytes => some "0,0"
  | .boxedText =>
    match members.get? "0" with
    | some (.text value) => some value
    | _ => some ""
  | kind => some ("[object " ++ kind.tag ++ "]")

/--
An object inside a message.  Members named `toString` and `valueOf` come before the
class: a function among them gives no value, and what is none cannot be called.
-/
def text? (kind : ObjectClass) (members : Dict Value) : Option String :=
  match members.get? "toString", members.get? "valueOf" with
  | some (.atom .function), _ => some "undefined"
  | some _, some (.atom .function) => some "undefined"
  | some _, _ => none
  | none, some (.atom .function) =>
    if kind = .bare then some "undefined" else kind.ownText? members
  | none, _ => kind.ownText? members

end ObjectClass

namespace Value

mutual

/-- The value inside a message, if it can be written. -/
def text? : Value → Option String
  | .missing => some "undefined"
  | .null => some "null"
  | .bool value => some (if value then "true" else "false")
  | .number value => some value.text
  | .text value => some value
  | .atom .bigint => some "7"
  | .atom .symbol => none
  | .atom .function => some "() => \x7b\x7d"
  | .list items => (itemTexts? items).map fun texts => ",".intercalate texts
  | .object kind members => kind.text? members

/-- The items of a list inside a message; missing and null ones are empty. -/
def itemTexts? : List Value → Option (List String)
  | [] => some []
  | item :: rest => do
    let text ← if item.isPresent then item.text? else some ""
    let texts ← itemTexts? rest
    return text :: texts

end

end Value

end Dispatch
