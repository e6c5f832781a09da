import Dispatch.Number.Basic

/-!
# Decimal forms of a number

A decimal `digits * 10 ^ exponent` denotes the number nearest to it.  In the
other direction, `Magnitude.shortest` picks the decimal with the fewest digits
that denotes a given magnitude, and among those the one closest to it.

Every candidate is kept only if it is read back as the same magnitude, so the
decimal that is chosen always denotes the magnitude it was chosen for.
-/

namespace Dispatch

attribute [local instance] corePow

/-- The decimal `digits * 10 ^ exponent`. -/
structure Decimal where
  digits : Nat
  exponent : Int
deriving DecidableEq

/-- The number of decimal digits that a natural number is written with. -/
def decimalLength (n : Nat) : Nat :=
  (Nat.toDigits 10 n).length

namespace Decimal

/-- Beyond this many places from the point no decimal is a positive finite number. -/
def farPlaces : Nat :=
  400

/--
The magnitude nearest to a decimal, or nothing when it is too large.

Decimals far outside the range of magnitudes are decided by their length alone.
-/
def magnitude? (d : Decimal) : Option Magnitude :=
  if d.digits = 0 then some .zero
  else match d.exponent with
    | .ofNat places =>
      if farPlaces < places then none
      else Magnitude.nearest? (d.digits * 10 ^ places * Number.one) 1
    | .negSucc places =>
      if decimalLength d.digits + farPlaces < places + 1 then some .zero
      else Magnitude.nearest? (d.digits * Number.one) (10 ^ (places + 1))

end Decimal

namespace Magnitude

/-- The position of the first digit: a magnitude `x` has `10 ^ (p - 1) ≤ x < 10 ^ p`. -/
def leadingPlace (m : Magnitude) : Int :=
  if Number.one ≤ m.units then decimalLength (m.units / Number.one)
  else 1 - (decimalLength ((Number.one - 1) / m.units) : Int)

/-- The two decimals around a magnitude with their last digit at a place, the closer first. -/
def neighbours (m : Magnitude) (place : Int) : List Decimal :=
  let (numerator, denominator) := match place with
    | .ofNat places => (m.units, Number.one * 10 ^ places)
    | .negSucc places => (m.units * 10 ^ (places + 1), Number.one)
  let below := numerator / denominator
  let rest := numerator % denominator
  if 2 * rest < denominator ∨ (2 * rest = denominator ∧ below % 2 = 0) then
    [⟨below, place⟩, ⟨below + 1, place⟩]
  else [⟨below + 1, place⟩, ⟨below, place⟩]

/-- The closest decimal with its last digit at a place that denotes the magnitude. -/
def decimalAt? (m : Magnitude) (place : Int) : Option Decimal :=
  (m.neighbours place).find? fun d => d.magnitude? == some m

/-- The magnitude written out to its last digit. -/
def exactDecimal (m : Magnitude) : Decimal :=
  ⟨m.units * 5 ^ fractionBits, -(fractionBits : Int)⟩

/-- The decimal with the fewest digits that denotes the magnitude. -/
def shortest (m : Magnitude) : Decimal :=
  let first := m.leadingPlace
  match (List.range 17).findSome? fun n : Nat => m.decimalAt? (first - (n + 1)) with
  | some d => d
  | none => m.exactDecimal

end Magnitude

namespace Number

/-- The number that a signed decimal denotes; one that is too large is infinite. -/
def ofDecimal (negative : Bool) (d : Decimal) : Number :=
  match d.magnitude? with
  | some magnitude => .finite negative magnitude
  | none => .infinite negative

end Number

end Dispatch
