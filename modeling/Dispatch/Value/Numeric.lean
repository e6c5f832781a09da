import Dispatch.Json.Reader
import Dispatch.Text.Blank
import Dispatch.Value.Text

/-!
# Values where a number is expected

Versions in unchecked records may be of any kind.  A text counts as the number it
spells, a list as the number its text spells, and what spells none is undefined.
-/

namespace Dispatch

namespace Number

/-- The value of digits in a base, unless one of them is none. -/
def ofBase? (base : Nat) (digits : List Char) : Option Nat :=
  if digits = [] then none
  else digits.foldl (fun value c => do
    let value ← value
    let digit ← Json.hexDigit? c
    if digit < base then some (value * base + digit) else none) (some 0)

/-- Decimal digits with an optional point and exponent, and nothing after them. -/
def ofDecimalChars? (negative : Bool) (cs : List Char) : Option Number := do
  let (whole, rest) := Json.takeDigits cs
  let (fraction, rest) := match rest with
    | '.' :: rest => Json.takeDigits rest
    | rest => ([], rest)
  if whole ++ fraction = [] then none
  let (exponent, rest) ← Json.readExponent rest
  if rest ≠ [] then none
  some (.ofDecimal negative
    ⟨Nat.ofDigitChars 10 (whole ++ fraction) 0, exponent - fraction.length⟩)

/-- An unsigned number or infinity, and nothing after it. -/
def ofUnsignedChars? (negative : Bool) (cs : List Char) : Option Number :=
  if cs = "Infinity".toList then some (.infinite negative) else ofDecimalChars? negative cs

/-- The number that a text spells; a blank one spells zero. -/
def ofText (text : String) : Number :=
  let read := match trimChars text.toList with
    | [] => some (0 : Number)
    | '0' :: 'x' :: digits | '0' :: 'X' :: digits =>
      (ofBase? 16 digits).map fun n => ofInt n
    | '0' :: 'o' :: digits | '0' :: 'O' :: digits =>
      (ofBase? 8 digits).map fun n => ofInt n
    | '0' :: 'b' :: digits | '0' :: 'B' :: digits =>
      (ofBase? 2 digits).map fun n => ofInt n
    | '-' :: rest => ofUnsignedChars? true rest
    | '+' :: rest => ofUnsignedChars? false rest
    | cs => ofUnsignedChars? false cs
  read.getD .nan

end Number

namespace Value

/-- The number that a value counts as, unless it is of a kind that counts as none. -/
def toNumber? : Value → Option Number
  | .missing | .atom .function => some .nan
  | .null => some 0
  | .bool value => some (if value then 1 else 0)
  | .number value => some value
  | .text value => some (.ofText value)
  | .object .date _ => some 0
  | .atom _ => none
  | value => value.text?.map .ofText

end Value

end Dispatch
