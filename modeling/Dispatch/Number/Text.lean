import Dispatch.Number.Decimal

/-!
# How numbers are written

A number is written with the fewest digits that denote it.  Between `1e-6` and
`1e21` it is written positionally, outside with an exponent that always has a
sign; whole numbers have no point, and both zeros are `0`.
-/

namespace Dispatch

namespace Number

/-- The digits without the zeros at their end. -/
def stripZeros (digits : List Char) : List Char :=
  (digits.reverse.dropWhile (· == '0')).reverse

/-- The exponent with its sign, after the letter `e`. -/
def exponentChars : Int → List Char
  | .ofNat n => 'e' :: '+' :: Nat.toDigits 10 n
  | .negSucc n => 'e' :: '-' :: Nat.toDigits 10 (n + 1)

/--
Digits with the decimal point after the first `point` of them.

The point is written in place when it falls within twenty-one digits and at most
six zeros before the first digit; otherwise it follows the first digit.
-/
def layout (digits : List Char) (point : Int) : List Char :=
  let count : Int := digits.length
  if count ≤ point ∧ point ≤ 21 then
    digits ++ List.replicate (point - count).toNat '0'
  else if 0 < point ∧ point ≤ 21 then
    digits.take point.toNat ++ '.' :: digits.drop point.toNat
  else if -6 < point ∧ point ≤ 0 then
    '0' :: '.' :: List.replicate (-point).toNat '0' ++ digits
  else match digits with
    | [digit] => digit :: exponentChars (point - 1)
    | digit :: more => digit :: '.' :: more ++ exponentChars (point - 1)
    | [] => exponentChars (point - 1)

/-- A decimal in the layout of numbers, without the zeros at the end of its digits. -/
def decimalChars (d : Decimal) : List Char :=
  let digits := Nat.toDigits 10 d.digits
  layout (stripZeros digits) (digits.length + d.exponent)

/-- A magnitude as text. -/
def magnitudeChars (m : Magnitude) : List Char :=
  if m.units = 0 then ['0'] else decimalChars m.shortest

/-- A number as text. -/
def chars : Number → List Char
  | .nan => "NaN".toList
  | .infinite false => "Infinity".toList
  | .infinite true => "-Infinity".toList
  | .finite negative magnitude =>
    if negative && magnitude.units != 0 then '-' :: magnitudeChars magnitude
    else magnitudeChars magnitude

/-- A number as text. -/
def text (x : Number) : String :=
  String.ofList x.chars

instance : ToString Number := ⟨text⟩

end Number

end Dispatch
