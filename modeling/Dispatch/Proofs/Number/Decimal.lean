import Dispatch.Number.Decimal
import Dispatch.Proofs.Number.Rounding

/-!
# What a decimal denotes

The magnitude of a decimal depends on its value only: zeros may move between the
digits and the exponent.  The decimal that is chosen for a magnitude denotes that
magnitude.
-/

namespace Dispatch

theorem lt_ten_pow_decimalLength (n : Nat) : n < 10 ^ decimalLength n :=
  (Nat.length_toDigits_le_iff (by omega) Nat.length_toDigits_pos).mp (Nat.le_refl _)

theorem two_pow_three_mul_le (n : Nat) : 2 ^ (3 * n) ≤ 10 ^ n := by
  rw [Nat.pow_mul]
  exact Nat.pow_le_pow_left (by omega) n

namespace Decimal

/-- The numerator of a decimal, in units. -/
def numerator (d : Decimal) : Nat :=
  d.digits * 10 ^ d.exponent.toNat * Number.one

/-- The denominator of a decimal. -/
def denominator (d : Decimal) : Nat :=
  10 ^ (-d.exponent).toNat

theorem denominator_pos (d : Decimal) : 0 < d.denominator :=
  Nat.pow_pos (by omega)

/-- A decimal with more places than any number is too large. -/
theorem magnitudeLimit_le_of_far {digits places : Nat} (hdigits : digits ≠ 0)
    (hfar : farPlaces < places) : magnitudeLimit ≤ digits * 10 ^ places * Number.one := by
  have hpow : 2 ^ (3 * farPlaces) ≤ 10 ^ places :=
    calc 2 ^ (3 * farPlaces) ≤ 10 ^ farPlaces := two_pow_three_mul_le farPlaces
      _ ≤ 10 ^ places := Nat.pow_le_pow_right (by omega) (Nat.le_of_lt hfar)
  calc magnitudeLimit = 2 ^ magnitudeBits := rfl
    _ ≤ 2 ^ (3 * farPlaces + fractionBits) := Nat.pow_le_pow_right (by omega) (by decide)
    _ = 2 ^ (3 * farPlaces) * Number.one := by rw [Nat.pow_add, Number.one]
    _ ≤ 10 ^ places * Number.one := Nat.mul_le_mul_right _ hpow
    _ ≤ digits * 10 ^ places * Number.one :=
        Nat.mul_le_mul_right _ (Nat.le_mul_of_pos_left _ (Nat.pos_of_ne_zero hdigits))

/-- A decimal whose first digit is behind all places of the smallest number is too small. -/
theorem two_mul_lt_of_far {digits places : Nat}
    (hfar : decimalLength digits + farPlaces < places) :
    2 * (digits * Number.one) < 10 ^ places := by
  have hone : 2 * Number.one < 10 ^ farPlaces := by
    calc 2 * Number.one = 2 ^ (fractionBits + 1) := by
          rw [Number.one, Nat.mul_comm, ← Nat.pow_succ]
      _ < 2 ^ (3 * farPlaces) := Nat.pow_lt_pow_right (by omega) (by decide)
      _ ≤ 10 ^ farPlaces := two_pow_three_mul_le farPlaces
  calc 2 * (digits * Number.one) = digits * (2 * Number.one) := by ring
    _ < 10 ^ decimalLength digits * 10 ^ farPlaces :=
        Nat.mul_lt_mul'' (lt_ten_pow_decimalLength digits) hone
    _ = 10 ^ (decimalLength digits + farPlaces) := (Nat.pow_add _ _ _).symm
    _ ≤ 10 ^ places := Nat.pow_le_pow_right (by omega) (Nat.le_of_lt hfar)

/-- Deciding decimals far outside the range by their length changes nothing. -/
theorem magnitude?_eq_nearest? (d : Decimal) :
    d.magnitude? = Magnitude.nearest? d.numerator d.denominator := by
  obtain ⟨digits, exponent⟩ := d
  by_cases hzero : digits = 0
  · rw [magnitude?, if_pos hzero, numerator, hzero, Nat.zero_mul, Nat.zero_mul,
      Magnitude.nearest?_of_small (by simpa using denominator_pos _)]
  rw [magnitude?, if_neg hzero]
  cases exponent with
  | ofNat places =>
      simp only [numerator, denominator]
      have hdenominator : 10 ^ (-(Int.ofNat places)).toNat = 1 := by simp
      have htoNat : (Int.ofNat places).toNat = places := rfl
      rw [hdenominator, htoNat]
      split
      next hfar =>
        symm
        apply Magnitude.nearest?_of_large (by omega)
        rw [Nat.mul_one]
        exact magnitudeLimit_le_of_far hzero hfar
      next => rfl
  | negSucc places =>
      simp only [numerator, denominator]
      have htoNat : (Int.negSucc places).toNat = 0 := rfl
      have hneg : (-(Int.negSucc places)).toNat = places + 1 := by
        rw [Int.neg_negSucc]
        rfl
      rw [htoNat, hneg, Nat.pow_zero, Nat.mul_one]
      split
      next hfar =>
        symm
        apply Magnitude.nearest?_of_small
        exact two_mul_lt_of_far hfar
      next => rfl

/-- Zeros may move from the digits to the exponent. -/
theorem magnitude?_mul_pow (digits zeros : Nat) (exponent : Int) :
    magnitude? ⟨digits * 10 ^ zeros, exponent⟩ = magnitude? ⟨digits, exponent + zeros⟩ := by
  rw [magnitude?_eq_nearest?, magnitude?_eq_nearest?]
  apply Magnitude.nearest?_eq_of_cross_eq (denominator_pos _) (denominator_pos _)
  have hbalance : zeros + exponent.toNat + (-(exponent + zeros)).toNat =
      (exponent + zeros).toNat + (-exponent).toNat := by omega
  have hpow : 10 ^ zeros * 10 ^ exponent.toNat * 10 ^ (-(exponent + zeros)).toNat =
      10 ^ (exponent + zeros).toNat * 10 ^ (-exponent).toNat := by
    rw [← Nat.pow_add, ← Nat.pow_add, ← Nat.pow_add, hbalance]
  calc digits * 10 ^ zeros * 10 ^ exponent.toNat * Number.one * 10 ^ (-(exponent + zeros)).toNat
      = digits * Number.one *
          (10 ^ zeros * 10 ^ exponent.toNat * 10 ^ (-(exponent + zeros)).toNat) := by ring
    _ = digits * Number.one * (10 ^ (exponent + zeros).toNat * 10 ^ (-exponent).toNat) := by
        rw [hpow]
    _ = digits * 10 ^ (exponent + zeros).toNat * Number.one * 10 ^ (-exponent).toNat := by ring

end Decimal

namespace Magnitude

theorem magnitude?_of_decimalAt? {m : Magnitude} {place : Int} {d : Decimal}
    (h : m.decimalAt? place = some d) : d.magnitude? = some m := by
  have hfound := List.find?_some h
  simpa using hfound

theorem magnitude?_exactDecimal (m : Magnitude) : m.exactDecimal.magnitude? = some m := by
  have hnumerator : m.exactDecimal.numerator = m.units * 10 ^ fractionBits := by
    have hten : 10 ^ fractionBits = 5 ^ fractionBits * 2 ^ fractionBits := by
      rw [← Nat.mul_pow]
    have htoNat : (-(fractionBits : Int)).toNat = 0 := by omega
    simp only [Decimal.numerator, exactDecimal, htoNat, Nat.pow_zero, Nat.mul_one, Number.one]
    rw [hten, Nat.mul_assoc]
  have hdenominator : m.exactDecimal.denominator = 10 ^ fractionBits := by
    simp only [Decimal.denominator, exactDecimal, Int.neg_neg, Int.toNat_natCast]
  rw [Decimal.magnitude?_eq_nearest?, hnumerator, hdenominator]
  exact nearest?_units_mul m (Nat.pow_pos (by omega))

/-- The decimal chosen for a magnitude denotes it. -/
theorem magnitude?_shortest (m : Magnitude) : m.shortest.magnitude? = some m := by
  unfold shortest
  dsimp only
  split
  next d hfound =>
    obtain ⟨n, -, hn⟩ := List.exists_of_findSome?_eq_some hfound
    exact magnitude?_of_decimalAt? hn
  next => exact magnitude?_exactDecimal m

theorem digits_shortest_pos {m : Magnitude} (h : m.units ≠ 0) : 0 < m.shortest.digits := by
  rw [Nat.pos_iff_ne_zero]
  intro hzero
  have hm := magnitude?_shortest m
  rw [Decimal.magnitude?, if_pos hzero] at hm
  cases hm
  exact h rfl

end Magnitude

namespace Number

theorem ofDecimal_mul_pow (negative : Bool) (digits zeros : Nat) (exponent : Int) :
    ofDecimal negative ⟨digits * 10 ^ zeros, exponent⟩ =
      ofDecimal negative ⟨digits, exponent + zeros⟩ := by
  rw [ofDecimal, Decimal.magnitude?_mul_pow, ofDecimal]

theorem ofDecimal_shortest (negative : Bool) (m : Magnitude) :
    ofDecimal negative m.shortest = .finite negative m := by
  rw [ofDecimal, Magnitude.magnitude?_shortest]

end Number

end Dispatch
