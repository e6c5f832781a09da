import Dispatch.Number.Basic
import Mathlib.Tactic.Common
import Mathlib.Tactic.Ring

/-!
# Rounding to a magnitude

`Magnitude.nearest?` is a function of the quotient alone, however it is written as
numerator and denominator, and takes a quotient that is a magnitude to itself.
Whole numbers of at most 53 bits are magnitudes, so adding and comparing them is
exact.
-/

namespace Dispatch

theorem roundHalfEven_mul_right (numerator denominator : Nat) {c : Nat} (hc : 0 < c) :
    roundHalfEven (numerator * c) (denominator * c) = roundHalfEven numerator denominator := by
  have hquotient : numerator * c / (denominator * c) = numerator / denominator :=
    Nat.mul_div_mul_right numerator denominator hc
  have hrest : numerator * c % (denominator * c) = numerator % denominator * c :=
    Nat.mul_mod_mul_right c numerator denominator
  have hlt (a b : Nat) : a * c < b * c ↔ a < b := Nat.mul_lt_mul_right hc
  simp only [roundHalfEven, hquotient, hrest, ← Nat.mul_assoc, hlt]

theorem roundHalfEven_of_dvd {numerator denominator : Nat} (hpos : 0 < denominator)
    (h : denominator ∣ numerator) :
    roundHalfEven numerator denominator = numerator / denominator := by
  simp [roundHalfEven, Nat.mod_eq_zero_of_dvd h, hpos]

theorem roundHalfEven_of_small {numerator denominator : Nat} (h : 2 * numerator < denominator) :
    roundHalfEven numerator denominator = 0 := by
  have hlt : numerator < denominator := by omega
  simp [roundHalfEven, Nat.mod_eq_of_lt hlt, Nat.div_eq_of_lt hlt, h]

theorem le_roundHalfEven (numerator denominator : Nat) :
    numerator / denominator ≤ roundHalfEven numerator denominator := by
  unfold roundHalfEven
  dsimp only
  split
  · exact Nat.le_refl _
  · split <;> omega

namespace Magnitude

/-- The units that a quotient is rounded to, before it is known whether they fit. -/
def rounded (numerator denominator : Nat) : Nat :=
  roundHalfEven numerator (denominator * 2 ^ excess (numerator / denominator)) *
    2 ^ excess (numerator / denominator)

theorem eq_of_units_eq {m n : Magnitude} (h : m.units = n.units) : m = n := by
  obtain ⟨units, _, _⟩ := m
  obtain ⟨units', _, _⟩ := n
  cases h
  rfl

theorem nearest?_eq_some_iff {numerator denominator : Nat} {m : Magnitude} :
    nearest? numerator denominator = some m ↔ rounded numerator denominator = m.units := by
  simp only [nearest?]
  constructor
  · intro h
    split at h
    · cases h
      rfl
    · simp at h
  · intro h
    have hlt : rounded numerator denominator < magnitudeLimit := h ▸ m.bounded
    rw [rounded] at h hlt
    rw [dif_pos hlt]
    exact congrArg some (eq_of_units_eq h)

theorem nearest?_eq_none_iff {numerator denominator : Nat} :
    nearest? numerator denominator = none ↔ magnitudeLimit ≤ rounded numerator denominator := by
  simp [nearest?, rounded]

theorem nearest?_eq_of_rounded_eq {n d n' d' : Nat} (h : rounded n d = rounded n' d') :
    nearest? n d = nearest? n' d' := by
  ext m
  rw [nearest?_eq_some_iff, nearest?_eq_some_iff, h]

theorem nearest?_mul_right (numerator denominator : Nat) {c : Nat} (hc : 0 < c) :
    nearest? (numerator * c) (denominator * c) = nearest? numerator denominator := by
  apply nearest?_eq_of_rounded_eq
  have hquotient : numerator * c / (denominator * c) = numerator / denominator :=
    Nat.mul_div_mul_right numerator denominator hc
  rw [rounded, hquotient, Nat.mul_right_comm denominator, roundHalfEven_mul_right _ _ hc, rounded]

/-- Equal quotients are rounded alike. -/
theorem nearest?_eq_of_cross_eq {n d n' d' : Nat} (hd : 0 < d) (hd' : 0 < d')
    (h : n * d' = n' * d) : nearest? n d = nearest? n' d' := by
  calc nearest? n d
      = nearest? (n * d') (d * d') := (nearest?_mul_right n d hd').symm
    _ = nearest? (n' * d) (d' * d) := by rw [h, Nat.mul_comm d d']
    _ = nearest? n' d' := nearest?_mul_right n' d' hd

/-- The bits that do not fit the significand of a magnitude are zero. -/
theorem two_pow_excess_dvd_units (m : Magnitude) : 2 ^ excess m.units ∣ m.units := by
  obtain ⟨significand, shift, hsignificand, hunits⟩ := m.significant
  by_cases hsmall : m.units < 2 ^ 53
  · have hexcess : excess m.units = 0 := by
      by_cases hzero : m.units = 0
      · simp [hzero, excess]
      · have hlog : m.units.log2 < 53 := (Nat.log2_lt hzero).mpr hsmall
        unfold excess
        omega
    simp [hexcess]
  · have hpos : m.units ≠ 0 := by
      intro hzero
      simp [hzero] at hsmall
    have hlog : 2 ^ m.units.log2 ≤ m.units := Nat.log2_self_le hpos
    have hupper : m.units < 2 ^ (53 + shift) := by
      rw [hunits, Nat.pow_add]
      exact Nat.mul_lt_mul_of_pos_right hsignificand (Nat.two_pow_pos shift)
    have hlt : m.units.log2 < 53 + shift :=
      (Nat.pow_lt_pow_iff_right (by omega)).mp (Nat.lt_of_le_of_lt hlog hupper)
    have hshift : excess m.units ≤ shift := by
      unfold excess
      omega
    calc 2 ^ excess m.units ∣ 2 ^ shift := Nat.pow_dvd_pow 2 hshift
      _ ∣ m.units := hunits ▸ Nat.dvd_mul_left _ _

/-- A magnitude is the one nearest to itself. -/
theorem nearest?_units (m : Magnitude) : nearest? m.units 1 = some m := by
  rw [nearest?_eq_some_iff, rounded, Nat.div_one, Nat.one_mul,
    roundHalfEven_of_dvd (Nat.two_pow_pos _) m.two_pow_excess_dvd_units,
    Nat.div_mul_cancel m.two_pow_excess_dvd_units]

/-- A quotient equal to a magnitude is rounded to it. -/
theorem nearest?_units_mul (m : Magnitude) {c : Nat} (hc : 0 < c) :
    nearest? (m.units * c) c = some m := by
  have h := nearest?_mul_right m.units 1 hc
  rw [Nat.one_mul] at h
  rw [h, nearest?_units]

theorem nearest?_of_small {numerator denominator : Nat} (h : 2 * numerator < denominator) :
    nearest? numerator denominator = some zero := by
  have hlt : numerator < denominator := by omega
  rw [nearest?_eq_some_iff, rounded, Nat.div_eq_of_lt hlt]
  have hexcess : excess 0 = 0 := rfl
  rw [hexcess, Nat.pow_zero, Nat.mul_one denominator, roundHalfEven_of_small h]
  rfl

/-- What reaches the limit is not rounded to a magnitude. -/
theorem nearest?_of_large {numerator denominator : Nat} (hd : 0 < denominator)
    (h : magnitudeLimit * denominator ≤ numerator) : nearest? numerator denominator = none := by
  have hquotient : magnitudeLimit ≤ numerator / denominator :=
    (Nat.le_div_iff_mul_le hd).mpr h
  have hpos : numerator / denominator ≠ 0 := by
    have := magnitudeLimit_pos
    omega
  have hlog : magnitudeBits ≤ (numerator / denominator).log2 :=
    (Nat.le_log2 hpos).mpr hquotient
  have hbits : magnitudeBits = 2098 := rfl
  rw [nearest?_eq_none_iff, rounded]
  -- Rounding loses at most the bits below the significand, and `2 ^ log2` has none there.
  have hexcess : excess (numerator / denominator) + 52 = (numerator / denominator).log2 := by
    unfold excess
    omega
  have hfloor : 2 ^ 52 ≤ roundHalfEven numerator
      (denominator * 2 ^ excess (numerator / denominator)) := by
    refine Nat.le_trans ?_ (le_roundHalfEven _ _)
    rw [← Nat.div_div_eq_div_mul, Nat.le_div_iff_mul_le (Nat.two_pow_pos _), ← Nat.pow_add,
      Nat.add_comm, hexcess]
    exact Nat.log2_self_le hpos
  calc magnitudeLimit = 2 ^ magnitudeBits := rfl
    _ ≤ 2 ^ (52 + excess (numerator / denominator)) :=
      Nat.pow_le_pow_right (by omega) (by omega)
    _ = 2 ^ 52 * 2 ^ excess (numerator / denominator) := Nat.pow_add _ _ _
    _ ≤ _ := Nat.mul_le_mul_right _ hfloor

theorem rounded_le {n : Nat} (hn : 2 ^ 52 ≤ n) : rounded n 1 ≤ 2 * n := by
  have hpos : n ≠ 0 := by
    rintro rfl
    simp at hn
  have hlog : 52 ≤ n.log2 := (Nat.le_log2 hpos).mpr hn
  have hpow : 2 ^ excess n ≤ n :=
    Nat.le_trans (Nat.pow_le_pow_right (by omega) (by unfold excess; omega)) (Nat.log2_self_le hpos)
  rw [rounded, Nat.div_one, Nat.one_mul]
  calc roundHalfEven n (2 ^ excess n) * 2 ^ excess n
      ≤ (n / 2 ^ excess n + 1) * 2 ^ excess n := Nat.mul_le_mul_right _ (roundHalfEven_le _ _)
    _ = n / 2 ^ excess n * 2 ^ excess n + 2 ^ excess n := by ring
    _ ≤ n + n := Nat.add_le_add (Nat.div_mul_le_self _ _) hpow
    _ = 2 * n := by ring

/-- Rounding does not fall below a magnitude that the quotient reaches. -/
theorem le_rounded {m : Magnitude} {n : Nat} (h : m.units ≤ n) : m.units ≤ rounded n 1 := by
  rw [rounded, Nat.div_one, Nat.one_mul]
  have hfloor : n / 2 ^ excess n * 2 ^ excess n ≤ roundHalfEven n (2 ^ excess n) * 2 ^ excess n :=
    Nat.mul_le_mul_right _ (le_roundHalfEven _ _)
  refine Nat.le_trans ?_ hfloor
  by_cases hexcess : excess n ≤ excess m.units
  · -- The bits that are cut off are zero in the magnitude.
    have hdvd : 2 ^ excess n ∣ m.units :=
      Nat.dvd_trans (Nat.pow_dvd_pow 2 hexcess) m.two_pow_excess_dvd_units
    calc m.units = m.units / 2 ^ excess n * 2 ^ excess n := (Nat.div_mul_cancel hdvd).symm
      _ ≤ n / 2 ^ excess n * 2 ^ excess n := Nat.mul_le_mul_right _ (Nat.div_le_div_right h)
  · -- The first bit of the quotient is kept, and the magnitude is below it.
    have hlog : 52 + excess n = n.log2 := by
      unfold excess at hexcess ⊢
      omega
    have hne : n ≠ 0 := by
      rintro rfl
      simp [excess] at hexcess
    have hbelow : m.units < 2 ^ n.log2 := by
      by_cases hzero : m.units = 0
      · rw [hzero]
        exact Nat.two_pow_pos _
      · refine (Nat.log2_lt hzero).mp ?_
        unfold excess at hexcess
        omega
    have hfirst : 2 ^ 52 ≤ n / 2 ^ excess n := by
      rw [Nat.le_div_iff_mul_le (Nat.two_pow_pos _), ← Nat.pow_add, hlog]
      exact Nat.log2_self_le hne
    calc m.units ≤ 2 ^ n.log2 := Nat.le_of_lt hbelow
      _ = 2 ^ 52 * 2 ^ excess n := by rw [← hlog, Nat.pow_add]
      _ ≤ n / 2 ^ excess n * 2 ^ excess n := Nat.mul_le_mul_right _ hfirst

theorem excess_eq {n shift : Nat} (hlower : 2 ^ 52 * 2 ^ shift ≤ n)
    (hupper : n < 2 ^ 53 * 2 ^ shift) : excess n = shift := by
  rw [← Nat.pow_add] at hlower hupper
  have hpos : n ≠ 0 := by
    have := Nat.two_pow_pos (52 + shift)
    omega
  have hle : 52 + shift ≤ n.log2 := (Nat.le_log2 hpos).mpr hlower
  have hlt : n.log2 < 53 + shift := (Nat.log2_lt hpos).mpr hupper
  unfold excess
  omega

/-- What is less than half of the last bit of a significand is lost in a sum. -/
theorem rounded_add_of_small {significand shift rest : Nat} (hlower : 2 ^ 52 ≤ significand)
    (hupper : significand < 2 ^ 53) (hrest : 2 * rest < 2 ^ shift) :
    rounded (2 ^ shift * significand + rest) 1 = 2 ^ shift * significand := by
  have hpow : 0 < 2 ^ shift := Nat.two_pow_pos shift
  have hexcess : excess (2 ^ shift * significand + rest) = shift := by
    apply excess_eq
    · rw [Nat.mul_comm]
      exact Nat.le_trans (Nat.mul_le_mul_left _ hlower) (Nat.le_add_right _ _)
    · calc 2 ^ shift * significand + rest < 2 ^ shift * (significand + 1) := by
            rw [Nat.mul_add, Nat.mul_one]
            omega
        _ ≤ 2 ^ shift * 2 ^ 53 := Nat.mul_le_mul_left _ hupper
        _ = 2 ^ 53 * 2 ^ shift := Nat.mul_comm _ _
  have hdiv : (2 ^ shift * significand + rest) / 2 ^ shift = significand := by
    rw [Nat.mul_add_div hpow, Nat.div_eq_of_lt (by omega), Nat.add_zero]
  have hmod : (2 ^ shift * significand + rest) % 2 ^ shift = rest := by
    rw [Nat.mul_add_mod, Nat.mod_eq_of_lt (by omega)]
  simp only [rounded, Nat.div_one, Nat.one_mul, hexcess, roundHalfEven, hdiv, hmod]
  rw [if_pos hrest, Nat.mul_comm]

theorem nearest?_add_of_small (m : Magnitude) {rest : Nat} (hpos : 1 ≤ excess m.units)
    (h : 2 * rest < 2 ^ excess m.units) : nearest? (m.units + rest) 1 = some m := by
  obtain ⟨significand, hsignificand⟩ := m.two_pow_excess_dvd_units
  have hlog : 52 + excess m.units = m.units.log2 := by
    unfold excess at hpos ⊢
    omega
  have hne : m.units ≠ 0 := by
    intro hzero
    simp [hzero, excess] at hpos
  have hlower : 2 ^ excess m.units * 2 ^ 52 ≤ m.units := by
    rw [← Nat.pow_add, Nat.add_comm, hlog]
    exact Nat.log2_self_le hne
  have hupper : m.units < 2 ^ excess m.units * 2 ^ 53 := by
    rw [← Nat.pow_add, Nat.add_comm, show 53 + excess m.units = m.units.log2 + 1 by omega]
    exact Nat.lt_log2_self
  generalize excess m.units = shift at *
  rw [hsignificand] at hlower hupper
  have hrounded := rounded_add_of_small
    (Nat.le_of_mul_le_mul_left hlower (Nat.two_pow_pos shift))
    (Nat.lt_of_mul_lt_mul_left hupper) h
  rw [nearest?_eq_some_iff, hsignificand, hrounded]

end Magnitude

namespace Number

theorem one_pos : 0 < one :=
  Nat.two_pow_pos fractionBits

/-- A whole number of at most 53 bits, as a magnitude. -/
def wholeMagnitude (n : Nat) (h : n ≤ 2 ^ 53) : Magnitude where
  units := n * one
  significant := Magnitude.significant_of_le h
  bounded := by
    have hpow : (2 : Nat) ^ 53 * one < magnitudeLimit := by
      unfold one magnitudeLimit magnitudeBits
      rw [← Nat.pow_add]
      exact Nat.pow_lt_pow_right (by omega) (by omega)
    exact Nat.lt_of_le_of_lt (Nat.mul_le_mul_right one h) hpow

theorem ofUnits_of_nearest? {numerator denominator : Nat} {m : Magnitude}
    (h : Magnitude.nearest? numerator denominator = some m) (negative : Bool) :
    ofUnits negative numerator denominator = .finite negative m := by
  unfold ofUnits
  rw [h]

theorem ofInt_natCast_eq_ofUnits (n : Nat) : ofInt n = ofUnits false (n * one) 1 := by
  have hsign : decide ((n : Int) < 0) = false := decide_eq_false (by omega)
  unfold ofInt
  rw [hsign, Int.natAbs_natCast]

theorem ofInt_natCast {n : Nat} (h : n ≤ 2 ^ 53) :
    ofInt n = .finite false (wholeMagnitude n h) :=
  (ofInt_natCast_eq_ofUnits n).trans
    (ofUnits_of_nearest? (wholeMagnitude n h).nearest?_units false)

theorem signed_wholeMagnitude {n : Nat} (h : n ≤ 2 ^ 53) :
    signed false (wholeMagnitude n h) = n * one :=
  Int.natCast_mul n one

theorem less_ofInt {a b : Nat} (ha : a ≤ 2 ^ 53) (hb : b ≤ 2 ^ 53) :
    less (ofInt a) (ofInt b) = decide (a < b) := by
  have hone : (0 : Int) < one := Int.natCast_pos.mpr one_pos
  have hiff : (a : Int) * one < b * one ↔ a < b := by
    rw [Int.mul_lt_mul_right hone, Int.ofNat_lt]
  rw [ofInt_natCast ha, ofInt_natCast hb, less, signed_wholeMagnitude, signed_wholeMagnitude]
  exact decide_eq_decide.mpr hiff

theorem max_ofInt {a b : Nat} (ha : a ≤ 2 ^ 53) (hb : b ≤ 2 ^ 53) :
    max (ofInt a) (ofInt b) = ofInt (Max.max a b : Nat) := by
  have hless := less_ofInt ha hb
  have hmore := less_ofInt hb ha
  rcases Nat.lt_trichotomy a b with hlt | rfl | hlt
  · rw [Nat.max_eq_right (Nat.le_of_lt hlt)]
    rw [ofInt_natCast ha, ofInt_natCast hb] at *
    simp [max, hless, hlt]
  · rw [Nat.max_self]
    rw [ofInt_natCast ha] at *
    simp [max, hless]
  · rw [Nat.max_eq_left (Nat.le_of_lt hlt)]
    rw [ofInt_natCast ha, ofInt_natCast hb] at *
    simp [max, hless, hmore, hlt, Nat.lt_asymm hlt]

theorem ofInt_add_one {n : Nat} (h : n + 1 ≤ 2 ^ 53) :
    ofInt n + 1 = ofInt (n + 1 : Nat) := by
  have hn : n ≤ 2 ^ 53 := by omega
  have hone : (1 : Nat) ≤ 2 ^ 53 := by omega
  have hsum : signed false (wholeMagnitude n hn) + signed false (wholeMagnitude 1 hone) =
      (((n + 1) * one : Nat) : Int) := by
    rw [signed_wholeMagnitude, signed_wholeMagnitude]
    push_cast
    ring
  have hpos : 0 < (n + 1) * one := Nat.mul_pos (Nat.succ_pos n) one_pos
  change add (ofInt n) (ofInt (1 : Nat)) = _
  rw [ofInt_natCast hn, ofInt_natCast hone, add, hsum]
  have hne : (((n + 1) * one : Nat) : Int) ≠ 0 := by omega
  have hsign : decide ((((n + 1) * one : Nat) : Int) < 0) = false := decide_eq_false (by omega)
  rw [if_neg hne, hsign, Int.natAbs_natCast, ofInt_natCast_eq_ofUnits]

end Number

end Dispatch
