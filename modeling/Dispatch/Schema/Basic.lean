import Dispatch.Text.Units
import Dispatch.Value.Basic

/-!
# Schemas

A schema is data that describes which values are accepted.  `Schema.check?` finds
the first violation of a value, as a path into the value and what is wrong there.

Tables are checked member by member in the order of the schema, dictionaries in
the order of their entries.  A dictionary entry whose key has a line end in it is
not checked, and a union reports a violation of its own, never one of its
alternatives.
-/

namespace Dispatch

/-- What can be wrong with a value. -/
inductive Problem
  | notText
  | tooShort (least : Nat)
  | notBoolean
  | notNumber
  | notInteger
  | above (greatest : Nat)
  | below (least : Nat)
  | notLiteral (expected : String)
  | notNull
  | notList
  | tooFew (least : Nat)
  | notTable
  | missingMember
  | unknownMember
  | noAlternative
deriving DecidableEq

/-- The first problem of a value, with the names that lead to it. -/
structure Violation where
  path : List String
  problem : Problem
deriving DecidableEq

/-- A description of the values that are accepted. -/
inductive Schema
  /-- A text of at least so many sixteen-bit units. -/
  | text (least : Nat)
  | boolean
  /-- A finite number. -/
  | number
  /-- A whole number within bounds. -/
  | integer (least : Option Nat) (greatest : Option Nat)
  | literal (expected : String)
  | null
  /-- A list of at least so many items. -/
  | list (items : Schema) (least : Nat)
  /-- A dictionary, with one schema for all values. -/
  | dictionary (values : Schema)
  /-- A table of named members, each with whether it is required; a closed one has no others. -/
  | table (members : List (String × Bool × Schema)) (closed : Bool)
  | union (alternatives : List Schema)

namespace Problem

/-- The problem in words. -/
def message : Problem → String
  | .notText => "Expected string"
  | .tooShort least => s!"Expected string length greater or equal to {least}"
  | .notBoolean => "Expected boolean"
  | .notNumber => "Expected number"
  | .notInteger => "Expected integer"
  | .above greatest => s!"Expected integer to be less or equal to {greatest}"
  | .below least => s!"Expected integer to be greater or equal to {least}"
  | .notLiteral expected => s!"Expected '{expected}'"
  | .notNull => "Expected null"
  | .notList => "Expected array"
  | .tooFew least => s!"Expected array length to be greater or equal to {least}"
  | .notTable => "Expected object"
  | .missingMember => "Expected required property"
  | .unknownMember => "Unexpected property"
  | .noAlternative => "Expected union value"

end Problem

namespace Violation

/-- A violation at the value itself. -/
def here (problem : Problem) : Violation :=
  ⟨[], problem⟩

/-- The violation of a part, seen from the whole. -/
def under (name : String) (violation : Violation) : Violation :=
  ⟨name :: violation.path, violation.problem⟩

/-- A name as a step of a pointer. -/
def escapeName (name : String) : String :=
  String.ofList (name.toList.flatMap fun c =>
    if c = '~' then ['~', '0'] else if c = '/' then ['~', '1'] else [c])

/-- The path as a pointer; the whole value is at `/`. -/
def pointer (violation : Violation) : String :=
  match violation.path with
  | [] => "/"
  | path => String.join (path.map fun name => "/" ++ escapeName name)

/-- The violation in words. -/
def message (violation : Violation) : String :=
  violation.pointer ++ ": " ++ violation.problem.message

end Violation

namespace Schema

/-- Whether a key has no line end in it. -/
def isCheckedKey (key : String) : Bool :=
  (textUnits key).all fun unit =>
    !(unit == 0x000A || unit == 0x000D || unit == 0x2028 || unit == 0x2029)

/-- The names that an object holds, listed or hidden. -/
def heldNames : Value → List String
  | .object kind members => Dict.keys members ++ kind.hiddenNames
  | _ => []

/-- Objects that can be dictionaries: dates and bytes cannot. -/
def isDictionary : Value → Bool
  | .object kind _ => kind != .date && kind != .bytes
  | _ => false

/-- Whether a value is an object and no list. -/
def isTable : Value → Bool
  | .object _ _ => true
  | _ => false

/-- The first required member that is not held. -/
def missingMember? (members : List (String × Bool × Schema)) (held : List String) :
    Option Violation :=
  (members.find? fun m => m.2.1 && !held.contains m.1).map fun m => ⟨[m.1], .missingMember⟩

/-- The first held name that a closed table does not know. -/
def unknownMember? (members : List (String × Bool × Schema)) (closed : Bool)
    (held : List String) : Option Violation :=
  if closed then
    (held.find? fun name => !(members.map Prod.fst).contains name).map fun name =>
      ⟨[name], .unknownMember⟩
  else none

/-- Bounds on a whole number, the upper one first. -/
def checkBounds? (least greatest : Option Nat) (value : Number) : Option Violation :=
  match greatest with
  | some greatest =>
    if Number.less (.ofInt greatest) value then some (.here (.above greatest)) else lower least
  | none => lower least
where
  lower : Option Nat → Option Violation
  | some least =>
    if Number.less value (.ofInt least) then some (.here (.below least)) else none
  | none => none

mutual

/-- The first violation of a value, or nothing when it is accepted. -/
def check? : Schema → Value → Option Violation
  | .text least, value =>
    match value with
    | .text s => if (textUnits s).length < least then some (.here (.tooShort least)) else none
    | _ => some (.here .notText)
  | .boolean, value =>
    match value with
    | .bool _ => none
    | _ => some (.here .notBoolean)
  | .number, value =>
    match value with
    | .number x => if x.isFinite then none else some (.here .notNumber)
    | _ => some (.here .notNumber)
  | .integer least greatest, value =>
    match value with
    | .number x =>
      if x.isInteger then checkBounds? least greatest x else some (.here .notInteger)
    | _ => some (.here .notInteger)
  | .literal expected, value =>
    match value with
    | .text s => if s = expected then none else some (.here (.notLiteral expected))
    | _ => some (.here (.notLiteral expected))
  | .null, value =>
    match value with
    | .null => none
    | _ => some (.here .notNull)
  | .list items least, value =>
    match value with
    | .list values =>
      if values.length < least then some (.here (.tooFew least))
      else values.zipIdx.findSome? fun (value, i) =>
        (check? items value).map (Violation.under (toString i))
    | _ => some (.here .notList)
  | .dictionary values, value =>
    if isDictionary value then
      value.members.findSome? fun (key, value) =>
        if isCheckedKey key then (check? values value).map (Violation.under key) else none
    else some (.here .notTable)
  | .table members closed, value =>
    if isTable value then
      let held := heldNames value
      (missingMember? members held).or <|
        (unknownMember? members closed held).or <| checkMembers? members value
    else some (.here .notTable)
  | .union alternatives, value =>
    if acceptedByOne alternatives value then none else some (.here .noAlternative)

/-- The first violation of a member; optional members may be missing. -/
def checkMembers? : List (String × Bool × Schema) → Value → Option Violation
  | [], _ => none
  | (name, required, schema) :: rest, value =>
    let member := value.member name
    let violation :=
      match required, member with
      | false, .missing => none
      | _, _ => (check? schema member).map (Violation.under name)
    violation.or (checkMembers? rest value)

/-- Whether some alternative accepts the value. -/
def acceptedByOne : List Schema → Value → Bool
  | [], _ => false
  | schema :: rest, value => (check? schema value).isNone || acceptedByOne rest value

end

/-- Whether a value is accepted. -/
def accepts (schema : Schema) (value : Value) : Bool :=
  (schema.check? value).isNone

/-- A text of any length. -/
abbrev anyText : Schema :=
  .text 0

/-- A text or null. -/
def textOrNull : Schema :=
  .union [anyText, .null]

/-- A required member. -/
def required (name : String) (schema : Schema) : String × Bool × Schema :=
  (name, true, schema)

/-- An optional member. -/
def optional (name : String) (schema : Schema) : String × Bool × Schema :=
  (name, false, schema)

end Schema

end Dispatch
