import Dispatch.Number.Decimal
import Dispatch.Text.Units
import Dispatch.Value.Basic

/-!
# Reading JSON

A document is one value with blanks around it.  Tables keep their members in
dictionary order, and of a repeated name the last value counts.  A number is read
as the double nearest to it, and a text unit by unit, so that it can hold a surrogate
that stands alone.

The readers take characters from the front of a list and answer what they read
with the rest.  The nested ones are bounded by a count that `Json.read?` sets to
the length of the text, which is never reached first.
-/

namespace Dispatch.Json

/-- The characters between the parts of a document. -/
def isSpace (c : Char) : Bool :=
  c == ' ' || c == '\t' || c == '\n' || c == '\r'

/-- The rest after the blanks in front. -/
def skipSpace (cs : List Char) : List Char :=
  cs.dropWhile isSpace

/-- The value of a hexadecimal digit. -/
def hexDigit? (c : Char) : Option Nat :=
  if '0' ≤ c ∧ c ≤ '9' then some (c.toNat - '0'.toNat)
  else if 'a' ≤ c ∧ c ≤ 'f' then some (c.toNat - 'a'.toNat + 10)
  else if 'A' ≤ c ∧ c ≤ 'F' then some (c.toNat - 'A'.toNat + 10)
  else none

/-- The unit that four hexadecimal digits denote. -/
def hexUnit? (a b c d : Char) : Option Nat := do
  let a ← hexDigit? a
  let b ← hexDigit? b
  let c ← hexDigit? c
  let d ← hexDigit? d
  return ((a * 16 + b) * 16 + c) * 16 + d

/-- The character that an escape of one letter denotes. -/
def simpleEscape? (c : Char) : Option Char :=
  if c = '\x22' ∨ c = '\\' ∨ c = '/' then some c
  else if c = 'b' then some '\x08'
  else if c = 'f' then some '\x0C'
  else if c = 'n' then some '\n'
  else if c = 'r' then some '\r'
  else if c = 't' then some '\t'
  else none

/-- Units in front of a text that was read. -/
def prepend (units : List UInt16) (read : Option (List UInt16 × List Char)) :
    Option (List UInt16 × List Char) :=
  read.map fun (text, rest) => (units ++ text, rest)

/--
The units of a quoted text up to its closing quote.

A number names one unit, whatever stands next to it: two surrogates are a character only
because of the units that they are.
-/
def readText : List Char → Option (List UInt16 × List Char)
  | [] => none
  | '\x22' :: rest => some ([], rest)
  | '\\' :: 'u' :: a :: b :: c :: d :: rest =>
    match hexUnit? a b c d with
    | some unit => prepend [.ofNat unit] (readText rest)
    | none => none
  | '\\' :: c :: rest =>
    match simpleEscape? c with
    | some c => prepend (charUnits c) (readText rest)
    | none => none
  | c :: rest =>
    if c.toNat < 0x20 ∨ c = '\\' then none else prepend (charUnits c) (readText rest)

/-- The digits in front, and the rest. -/
def takeDigits (cs : List Char) : List Char × List Char :=
  (cs.takeWhile Char.isDigit, cs.dropWhile Char.isDigit)

/-- The digits after a point, if there is one; a point without digits is refused. -/
def readFraction : List Char → Option (List Char × List Char)
  | '.' :: rest =>
    match takeDigits rest with
    | ([], _) => none
    | read => some read
  | cs => some ([], cs)

/-- The digits of an exponent with its sign. -/
def readExponentDigits (negative : Bool) (cs : List Char) : Option (Int × List Char) :=
  match takeDigits cs with
  | ([], _) => none
  | (digits, rest) =>
    let size : Int := Nat.ofDigitChars 10 digits 0
    some (if negative then -size else size, rest)

/-- The exponent after its letter, if there is one; a letter without digits is refused. -/
def readExponent : List Char → Option (Int × List Char)
  | c :: rest =>
    if c = 'e' ∨ c = 'E' then
      match rest with
      | '-' :: rest => readExponentDigits true rest
      | '+' :: rest => readExponentDigits false rest
      | rest => readExponentDigits false rest
    else some (0, c :: rest)
  | [] => some (0, [])

/-- The digits before the point: a zero alone, or digits that do not begin with one. -/
def readWhole : List Char → Option (List Char × List Char)
  | '0' :: rest => some (['0'], rest)
  | cs =>
    match takeDigits cs with
    | ([], _) => none
    | read => some read

/-- A number without its sign. -/
def readUnsigned (negative : Bool) (cs : List Char) : Option (Number × List Char) := do
  let (whole, rest) ← readWhole cs
  let (fraction, rest) ← readFraction rest
  let (exponent, rest) ← readExponent rest
  let digits := Nat.ofDigitChars 10 (whole ++ fraction) 0
  return (.ofDecimal negative ⟨digits, exponent - fraction.length⟩, rest)

/-- A number. -/
def readNumber : List Char → Option (Number × List Char)
  | '-' :: rest => readUnsigned true rest
  | cs => readUnsigned false cs

mutual

/-- A value, after any blanks in front of it. -/
def readValue : Nat → List Char → Option (Value × List Char)
  | 0, _ => none
  | fuel + 1, cs =>
    match skipSpace cs with
    | 'n' :: 'u' :: 'l' :: 'l' :: rest => some (.null, rest)
    | 't' :: 'r' :: 'u' :: 'e' :: rest => some (.bool true, rest)
    | 'f' :: 'a' :: 'l' :: 's' :: 'e' :: rest => some (.bool false, rest)
    | '\x22' :: rest => (readText rest).map fun (text, rest) => (.text (Text.ofUnits text), rest)
    | '[' :: rest =>
      match skipSpace rest with
      | ']' :: rest => some (.list [], rest)
      | rest => (readItems fuel rest).map fun (items, rest) => (.list items, rest)
    | '\x7b' :: rest =>
      match skipSpace rest with
      | '\x7d' :: rest => some (.table [], rest)
      | rest =>
        (readMembers fuel rest).map fun (members, rest) => (.table (Dict.ofList members), rest)
    | cs => (readNumber cs).map fun (number, rest) => (.number number, rest)

/-- The items of a list that has some, up to the end of the list. -/
def readItems : Nat → List Char → Option (List Value × List Char)
  | 0, _ => none
  | fuel + 1, cs =>
    match readValue fuel cs with
    | none => none
    | some (item, rest) =>
      match skipSpace rest with
      | ',' :: rest => (readItems fuel rest).map fun (items, rest) => (item :: items, rest)
      | ']' :: rest => some ([item], rest)
      | _ => none

/-- The members of a table that has some, as written, up to the end of the table. -/
def readMembers : Nat → List Char → Option (List (String × Value) × List Char)
  | 0, _ => none
  | fuel + 1, cs =>
    match skipSpace cs with
    | '\x22' :: rest =>
      match readText rest with
      | none => none
      | some (name, rest) =>
        match skipSpace rest with
        | ':' :: rest =>
          match readValue fuel rest with
          | none => none
          | some (value, rest) =>
            match skipSpace rest with
            | ',' :: rest =>
              (readMembers fuel rest).map fun (members, rest) =>
                ((Text.ofUnits name, value) :: members, rest)
            | '\x7d' :: rest => some ([(Text.ofUnits name, value)], rest)
            | _ => none
        | _ => none
    | _ => none

end

/-- The value of a document, unless the text is none. -/
def read? (text : String) : Option Value :=
  let cs := text.toList
  match readValue (cs.length + 1) cs with
  | some (value, rest) => if skipSpace rest = [] then some value else none
  | none => none

end Dispatch.Json
