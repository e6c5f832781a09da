/-!
# Double-precision numbers

The numbers in job descriptions are binary floating-point numbers with a
significand of 53 bits.  Every finite one is a whole multiple of `2 ^ -1074`,
the smallest positive number, so a magnitude is kept as that multiple and all
arithmetic is exact arithmetic on natural numbers followed by one rounding.

`Magnitude.nearest?` is that rounding: it takes any quotient to the nearest
magnitude, a half going to the even neighbour, and answers nothing when the
quotient is too large.
-/

namespace Dispatch

/-- Powers of natural numbers as the core library has them, whatever else is in scope. -/
@[reducible] def corePow : Pow Nat Nat :=
  instPowNat

attribute [local instance] corePow

/-- The binary places after the point that the smallest number needs. -/
def fractionBits : Nat :=
  1074

/-- The binary places that the largest number fills, before and after the point. -/
def magnitudeBits : Nat :=
  1024 + fractionBits

/-- The first multiple of `2 ^ -1074` that is too large: it stands for `2 ^ 1024`. -/
def magnitudeLimit : Nat :=
  2 ^ magnitudeBits

theorem magnitudeLimit_pos : 0 < magnitudeLimit :=
  Nat.two_pow_pos magnitudeBits

/-- A finite magnitude, as a multiple of `2 ^ -1074`. -/
structure Magnitude where
  /-- The multiple. -/
  units : Nat
  /-- At most 53 bits are significant. -/
  significant : ∃ significand shift : Nat,
    significand < 2 ^ (53 : Nat) ∧ units = significand * 2 ^ shift
  /-- The largest magnitude is just below `2 ^ 1024`. -/
  bounded : units < magnitudeLimit
deriving DecidableEq

/-- The quotient rounded to an integer, a half going to the even neighbour. -/
def roundHalfEven (numerator denominator : Nat) : Nat :=
  let quotient := numerator / denominator
  let rest := numerator % denominator
  if 2 * rest < denominator then quotient
  else if denominator < 2 * rest then quotient + 1
  else quotient + quotient % 2

theorem roundHalfEven_le (numerator denominator : Nat) :
    roundHalfEven numerator denominator ≤ numerator / denominator + 1 := by
  unfold roundHalfEven
  dsimp only
  split
  · omega
  · split <;> omega

namespace Magnitude

/-- The number of low bits of a quotient that do not fit the significand. -/
def excess (quotient : Nat) : Nat :=
  quotient.log2 - 52

theorem div_two_pow_excess_lt (quotient : Nat) :
    quotient / 2 ^ excess quotient < 2 ^ (53 : Nat) := by
  rw [Nat.div_lt_iff_lt_mul (Nat.two_pow_pos _), ← Nat.pow_add]
  refine Nat.lt_of_lt_of_le Nat.lt_log2_self (Nat.pow_le_pow_right (by omega) ?_)
  unfold excess
  omega

/-- A significand of at most `2 ^ 53` is significant at any shift. -/
theorem significant_of_le {significand shift : Nat} (h : significand ≤ 2 ^ (53 : Nat)) :
    ∃ s t : Nat, s < 2 ^ (53 : Nat) ∧ significand * 2 ^ shift = s * 2 ^ t := by
  rcases Nat.lt_or_eq_of_le h with h | h
  · exact ⟨significand, shift, h, rfl⟩
  · refine ⟨2 ^ 52, shift + 1, Nat.pow_lt_pow_right (by omega) (by omega), ?_⟩
    rw [h, ← Nat.pow_add, ← Nat.pow_add]
    congr 1
    omega

/--
The magnitude nearest to `numerator / denominator` units, a half going to the
even significand, or nothing when it would exceed the largest magnitude.
-/
def nearest? (numerator denominator : Nat) : Option Magnitude :=
  let shift := excess (numerator / denominator)
  let significand := roundHalfEven numerator (denominator * 2 ^ shift)
  if h : significand * 2 ^ shift < magnitudeLimit then
    some ⟨significand * 2 ^ shift, significant_of_le (by
      refine Nat.le_trans (roundHalfEven_le _ _) ?_
      rw [← Nat.div_div_eq_div_mul]
      exact div_two_pow_excess_lt _), h⟩
  else none

/-- The magnitude of zero. -/
def zero : Magnitude :=
  ⟨0, ⟨0, 0, Nat.two_pow_pos _, by omega⟩, magnitudeLimit_pos⟩

end Magnitude

/-- A double-precision number. -/
inductive Number
  | nan
  | infinite (negative : Bool)
  | finite (negative : Bool) (magnitude : Magnitude)
deriving DecidableEq

namespace Number

/-- The number of units in one. -/
def one : Nat :=
  2 ^ fractionBits

/-- The number nearest to a signed quotient of units. -/
def ofUnits (negative : Bool) (numerator denominator : Nat) : Number :=
  match Magnitude.nearest? numerator denominator with
  | some magnitude => .finite negative magnitude
  | none => .infinite negative

/-- The number nearest to an integer. -/
def ofInt (n : Int) : Number :=
  ofUnits (decide (n < 0)) (n.natAbs * one) 1

instance (n : Nat) : OfNat Number n where
  ofNat := ofInt n

/-- Neither infinite nor undefined. -/
def isFinite : Number → Bool
  | .finite _ _ => true
  | _ => false

/-- A magnitude with its sign, in units. -/
def signed (negative : Bool) (magnitude : Magnitude) : Int :=
  if negative then -(magnitude.units : Int) else magnitude.units

/-- The signed multiple of `2 ^ -1074` that a finite number is. -/
def units? : Number → Option Int
  | .finite negative magnitude => some (signed negative magnitude)
  | _ => none

/-- Finite and whole. -/
def isInteger (x : Number) : Bool :=
  match x.units? with
  | some units => units % (one : Int) == 0
  | none => false

/-- The integer that a finite number has before its point. -/
def truncate? (x : Number) : Option Int :=
  x.units?.map fun units => units.tdiv one

/-- Strictly smaller; an undefined number is never comparable. -/
def less : Number → Number → Bool
  | .nan, _ => false
  | _, .nan => false
  | .infinite a, .infinite b => a && !b
  | .infinite a, .finite _ _ => a
  | .finite _ _, .infinite b => !b
  | .finite a x, .finite b y => decide (signed a x < signed b y)

/-- Equal as numbers: the two zeros agree, an undefined number equals nothing. -/
def equal : Number → Number → Bool
  | .nan, _ => false
  | _, .nan => false
  | .infinite a, .infinite b => a == b
  | .infinite _, .finite _ _ => false
  | .finite _ _, .infinite _ => false
  | .finite a x, .finite b y => decide (signed a x = signed b y)

/-- The larger number, undefined when either is; positive zero is above negative zero. -/
def max : Number → Number → Number
  | .nan, _ => .nan
  | _, .nan => .nan
  | x, y =>
    if less x y then y
    else if less y x then x
    else match x with
      | .finite true _ => y
      | _ => x

/-- The sum, rounded once. -/
def add : Number → Number → Number
  | .nan, _ => .nan
  | _, .nan => .nan
  | .infinite a, .infinite b => if a = b then .infinite a else .nan
  | .infinite a, .finite _ _ => .infinite a
  | .finite _ _, .infinite b => .infinite b
  | .finite a x, .finite b y =>
    let sum := signed a x + signed b y
    if sum = 0 then .finite (a && b) .zero
    else ofUnits (decide (sum < 0)) sum.natAbs 1

/-- The product, rounded once. -/
def mul : Number → Number → Number
  | .nan, _ => .nan
  | _, .nan => .nan
  | .infinite a, .infinite b => .infinite (a != b)
  | .infinite a, .finite b y => if y.units = 0 then .nan else .infinite (a != b)
  | .finite a x, .infinite b => if x.units = 0 then .nan else .infinite (a != b)
  | .finite a x, .finite b y => ofUnits (a != b) (x.units * y.units) one

instance : Add Number := ⟨add⟩

instance : Mul Number := ⟨mul⟩

end Number

end Dispatch
