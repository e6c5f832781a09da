import Dispatch.Proofs.Number.Rounding

/-!
# Counting with doubles

A whole number that is not negative has a successor that is finite, whole and at
least one, however large it is: beyond 53 bits the successor may be the number
itself, but it is never smaller, and the sum never leaves the range.
-/

namespace Dispatch

namespace Magnitude

/-- Rounding keeps the zero bits at the end of a whole quotient. -/
theorem two_pow_dvd_rounded {k n : Nat} (h : 2 ^ k ∣ n) : 2 ^ k ∣ rounded n 1 := by
  rw [rounded, Nat.div_one, Nat.one_mul]
  rcases Nat.le_total k (excess n) with hle | hle
  · exact Nat.dvd_trans (Nat.pow_dvd_pow 2 hle) (Nat.dvd_mul_left _ _)
  · have hdvd : 2 ^ excess n ∣ n := Nat.dvd_trans (Nat.pow_dvd_pow 2 hle) h
    rwa [roundHalfEven_of_dvd (Nat.two_pow_pos _) hdvd, Nat.div_mul_cancel hdvd]

theorem rounded_pos {n : Nat} (hn : 0 < n) : 0 < rounded n 1 := by
  rw [rounded, Nat.div_one, Nat.one_mul]
  have hpow : 2 ^ excess n ≤ n :=
    Nat.le_trans (Nat.pow_le_pow_right (by omega) (by unfold excess; omega))
      (Nat.log2_self_le (Nat.pos_iff_ne_zero.mp hn))
  have hquotient : 0 < n / 2 ^ excess n := Nat.div_pos hpow (Nat.two_pow_pos _)
  exact Nat.mul_pos (Nat.lt_of_lt_of_le hquotient (le_roundHalfEven _ _)) (Nat.two_pow_pos _)

/-- A magnitude and one more unit of one are rounded to a magnitude. -/
theorem exists_nearest?_add_one (m : Magnitude) :
    ∃ next, nearest? (m.units + Number.one) 1 = some next := by
  by_cases hexcess : excess m.units ≤ fractionBits + 1
  · -- The sum is small enough for any rounding.
    have hunits : m.units < 2 ^ (fractionBits + 54) := by
      refine Nat.lt_of_lt_of_le Nat.lt_log2_self (Nat.pow_le_pow_right (by omega) ?_)
      unfold excess at hexcess
      omega
    have hone : Number.one ≤ 2 ^ (fractionBits + 54) :=
      Nat.pow_le_pow_right (by omega) (by omega)
    have hlarge : 2 ^ 52 ≤ m.units + Number.one :=
      Nat.le_trans (Nat.pow_le_pow_right (by omega) (by unfold fractionBits; omega))
        (Nat.le_add_left _ _)
    have hdouble : 2 * (m.units + Number.one) ≤ 2 ^ (fractionBits + 56) := by
      rw [show fractionBits + 56 = fractionBits + 54 + 2 by omega, Nat.pow_add]
      omega
    have hlimit : 2 ^ (fractionBits + 56) < magnitudeLimit :=
      Nat.pow_lt_pow_right (by omega) (by unfold magnitudeBits; omega)
    cases hnearest : nearest? (m.units + Number.one) 1 with
    | some next => exact ⟨next, rfl⟩
    | none =>
        have hrounded := nearest?_eq_none_iff.mp hnearest
        have hle := rounded_le hlarge
        omega
  · -- The sum is rounded back.
    refine ⟨m, nearest?_add_of_small m (by omega) ?_⟩
    have hdouble : ∀ k, 2 * 2 ^ k = 2 ^ (k + 1) := fun k => (Nat.pow_succ').symm
    rw [Number.one, hdouble]
    exact Nat.pow_lt_pow_right (by omega) (by omega)

end Magnitude

namespace Number

/-! ## Numbers that are not smaller -/

theorem not_less_trans {x y z : Number} (hy : y.isFinite = true) (hxy : x.less y = false)
    (hyz : y.less z = false) : x.less z = false := by
  cases y with
  | finite b m =>
      cases x with
      | nan => rfl
      | infinite a =>
          cases a with
          | true => cases hxy
          | false => cases z <;> rfl
      | finite a k =>
          cases z with
          | nan => rfl
          | infinite c => exact hyz
          | finite c l =>
              rw [less, decide_eq_false_iff_not, Int.not_lt] at hxy hyz ⊢
              exact Int.le_trans hyz hxy
  | _ => cases hy

theorem not_less_self (x : Number) : x.less x = false := by
  cases x with
  | nan => rfl
  | infinite negative => cases negative <;> rfl
  | finite negative m => exact decide_eq_false (Int.lt_irrefl _)

/-- The larger of two finite numbers is below neither. -/
theorem not_less_max {x y : Number} (hx : x.isFinite = true) (hy : y.isFinite = true) :
    (max x y).less x = false ∧ (max x y).less y = false := by
  cases x with
  | finite a m =>
      cases y with
      | finite b k =>
          simp only [max]
          split
          next hless =>
            refine ⟨?_, not_less_self _⟩
            rw [less, decide_eq_true_iff] at hless
            rw [less, decide_eq_false_iff_not]
            omega
          next hless =>
            rw [Bool.not_eq_true] at hless
            split
            next hmore => exact ⟨not_less_self _, hless⟩
            next hmore =>
              rw [Bool.not_eq_true] at hmore
              cases a with
              | true => exact ⟨hmore, not_less_self _⟩
              | false => exact ⟨not_less_self _, hless⟩
      | _ => cases hy
  | _ => cases hx

/-! ## Whole numbers that are not below a bound -/

/-- A whole number that is not below a bound. -/
def IsCount (least : Nat) (x : Number) : Prop :=
  x.isInteger = true ∧ x.less (.ofInt least) = false

theorem IsCount.isFinite {least : Nat} {x : Number} (h : IsCount least x) : x.isFinite = true := by
  cases x with
  | finite negative magnitude => rfl
  | _ => simp [IsCount, isInteger, units?] at h

theorem max_eq_or {x y : Number} (hx : x.isFinite = true) (hy : y.isFinite = true) :
    max x y = x ∨ max x y = y := by
  cases x with
  | finite negative magnitude =>
      cases y with
      | finite negative' magnitude' =>
          simp only [max]
          split
          next => exact Or.inr rfl
          next =>
            split
            next => exact Or.inl rfl
            next =>
              cases negative with
              | true => exact Or.inr rfl
              | false => exact Or.inl rfl
      | _ => simp [Number.isFinite] at hy
  | _ => simp [Number.isFinite] at hx

theorem IsCount.max {least : Nat} {x y : Number} (hx : IsCount least x) (hy : IsCount least y) :
    IsCount least (max x y) := by
  rcases max_eq_or hx.isFinite hy.isFinite with h | h
  · rw [h]
    exact hx
  · rw [h]
    exact hy

theorem isCount_finite_iff {least : Nat} (hleast : least ≤ 2 ^ 53) {negative : Bool}
    {m : Magnitude} : IsCount least (.finite negative m) ↔
      signed negative m % (one : Int) = 0 ∧ (least * one : Int) ≤ signed negative m := by
  have hwhole : (finite negative m).isInteger = (signed negative m % (one : Int) == 0) := rfl
  have hless (w : Magnitude) : (finite negative m).less (.finite false w) =
      decide (signed negative m < signed false w) := rfl
  rw [IsCount, hwhole, ofInt_natCast hleast, hless, signed_wholeMagnitude, beq_iff_eq,
    decide_eq_false_iff_not, Int.not_lt]

theorem IsCount.mono {least bound : Nat} {x : Number} (hle : least ≤ bound)
    (hbound : bound ≤ 2 ^ 53) (h : IsCount bound x) : IsCount least x := by
  cases x with
  | finite negative m =>
      rw [isCount_finite_iff hbound] at h
      rw [isCount_finite_iff (Nat.le_trans hle hbound)]
      have hmul : (least * one : Int) ≤ bound * one :=
        Int.mul_le_mul_of_nonneg_right (by exact_mod_cast hle) (by omega)
      exact ⟨h.1, Int.le_trans hmul h.2⟩
  | _ => simp [IsCount, isInteger, units?] at h

/-- A number that counts is its magnitude. -/
theorem IsCount.signed_eq {negative : Bool} {m : Magnitude} (h : IsCount 0 (.finite negative m)) :
    signed negative m = m.units := by
  have hnonneg := ((isCount_finite_iff (Nat.zero_le _)).mp h).2
  rw [Nat.cast_zero, Int.zero_mul] at hnonneg
  unfold signed at hnonneg ⊢
  split at hnonneg
  next => omega
  next hpositive => rw [if_neg hpositive]

/-- One can be added to any magnitude. -/
theorem exists_finite_add_one {negative : Bool} {m : Magnitude}
    (hsigned : signed negative m = m.units) :
    ∃ next, Magnitude.nearest? (m.units + one) 1 = some next ∧
      finite negative m + 1 = .finite false next := by
  have hone : (1 : Nat) ≤ 2 ^ 53 := by omega
  have hpos := one_pos
  have hsum : signed negative m + signed false (wholeMagnitude 1 hone) =
      ((m.units + one : Nat) : Int) := by
    rw [hsigned, signed_wholeMagnitude]
    push_cast
    ring
  have hne : ((m.units + one : Nat) : Int) ≠ 0 := by omega
  have hsign : decide (((m.units + one : Nat) : Int) < 0) = false := decide_eq_false (by omega)
  obtain ⟨next, hnext⟩ := m.exists_nearest?_add_one
  refine ⟨next, hnext, ?_⟩
  change add (.finite negative m) (ofInt (1 : Nat)) = _
  rw [ofInt_natCast hone, add, hsum, if_neg hne, hsign, Int.natAbs_natCast,
    ofUnits_of_nearest? hnext]

/-- The successor of a whole number that is not negative is at least one, and in range. -/
theorem IsCount.add_one {x : Number} (h : IsCount 0 x) : IsCount 1 (x + 1) := by
  cases x with
  | finite negative m =>
      have hone : (1 : Nat) ≤ 2 ^ 53 := by omega
      have hsigned := h.signed_eq
      have hwhole := ((isCount_finite_iff (Nat.zero_le _)).mp h).1
      have hdvd : one ∣ m.units := by
        rw [hsigned] at hwhole
        exact Int.natCast_dvd_natCast.mp (Int.dvd_of_emod_eq_zero hwhole)
      obtain ⟨next, hnext, hadd⟩ := exists_finite_add_one hsigned
      have hunits := Magnitude.nearest?_eq_some_iff.mp hnext
      have hnextDvd : one ∣ next.units := by
        rw [← hunits]
        exact Magnitude.two_pow_dvd_rounded (Nat.dvd_add hdvd (Nat.dvd_refl _))
      have hnextPos : 0 < next.units := by
        rw [← hunits]
        exact Magnitude.rounded_pos (Nat.add_pos_right _ one_pos)
      rw [hadd, isCount_finite_iff hone]
      have hle := Nat.le_of_dvd hnextPos hnextDvd
      refine ⟨Int.emod_eq_zero_of_dvd (Int.natCast_dvd_natCast.mpr hnextDvd), ?_⟩
      rw [Nat.cast_one, Int.one_mul]
      exact Int.ofNat_le.mpr hle
  | _ => simp [IsCount, isInteger, units?] at h

/-- Adding one to a number that counts never makes it smaller, even where it is lost. -/
theorem IsCount.not_less_add_one {x : Number} (h : IsCount 0 x) : (x + 1).less x = false := by
  cases x with
  | finite negative m =>
      have hsigned := h.signed_eq
      obtain ⟨next, hnext, hadd⟩ := exists_finite_add_one hsigned
      have hle : m.units ≤ next.units := by
        rw [← Magnitude.nearest?_eq_some_iff.mp hnext]
        exact Magnitude.le_rounded (Nat.le_add_right _ _)
      rw [hadd, less, decide_eq_false_iff_not, hsigned]
      exact Int.not_lt.mpr (Int.ofNat_le.mpr hle)
  | _ => simp [IsCount, isInteger, units?] at h

/-- The whole numbers up to `2 ^ 53` count themselves. -/
theorem isCount_ofInt {least n : Nat} (hle : least ≤ n) (hn : n ≤ 2 ^ 53) :
    IsCount least (ofInt n) := by
  rw [ofInt_natCast hn, isCount_finite_iff (Nat.le_trans hle hn), signed_wholeMagnitude]
  refine ⟨Int.mul_emod_left _ _, ?_⟩
  exact Int.mul_le_mul_of_nonneg_right (by exact_mod_cast hle) (by omega)

/-- A count of at least one is positive, so that it has no sign to lose. -/
theorem IsCount.exists_eq_finite {x : Number} (h : x.IsCount 1) :
    ∃ m, x = .finite false m := by
  cases x with
  | finite negative m =>
      rw [isCount_finite_iff (by omega)] at h
      have hle := h.2
      cases negative with
      | false => exact ⟨m, rfl⟩
      | true =>
          have hone : 0 < one := Nat.two_pow_pos _
          generalize one = k at hle hone
          simp only [signed, if_true] at hle
          omega
  | _ => simp [IsCount, isInteger, units?] at h

/-- A number that counts and is below `2 ^ 53` is a whole number of its own. -/
theorem IsCount.exists_eq_ofInt {x : Number} (h : IsCount 1 x)
    (hless : x.less (.ofInt (2 ^ 53 : Nat)) = true) :
    ∃ n : Nat, 1 ≤ n ∧ n < 2 ^ 53 ∧ x = .ofInt n := by
  obtain ⟨m, rfl⟩ := h.exists_eq_finite
  have hone := one_pos
  obtain ⟨hwhole, hleast⟩ := (isCount_finite_iff (by omega)).mp h
  have hsigned := (h.mono (Nat.zero_le 1) (by omega)).signed_eq
  rw [Nat.cast_one, Int.one_mul] at hleast
  rw [hsigned] at hwhole hleast
  obtain ⟨n, hn⟩ := Int.natCast_dvd_natCast.mp (Int.dvd_of_emod_eq_zero hwhole)
  rw [ofInt_natCast (Nat.le_refl _), less, decide_eq_true_iff, hsigned,
    signed_wholeMagnitude] at hless
  have hbound : n < 2 ^ 53 := by
    have hmul : one * n < one * 2 ^ 53 := by
      rw [← hn, Nat.mul_comm one]
      exact_mod_cast hless
    exact Nat.lt_of_mul_lt_mul_left hmul
  have hpos : 1 ≤ n := by
    rcases Nat.eq_zero_or_pos n with rfl | hpos
    · rw [Nat.mul_zero] at hn
      omega
    · exact hpos
  refine ⟨n, hpos, hbound, ?_⟩
  have hunits : m = wholeMagnitude n (Nat.le_of_lt hbound) := by
    apply Magnitude.eq_of_units_eq
    rw [hn, Nat.mul_comm]
    rfl
  rw [ofInt_natCast (Nat.le_of_lt hbound), hunits]

theorem isCount_zero : IsCount 0 0 :=
  isCount_ofInt (Nat.le_refl 0) (Nat.zero_le _)

theorem isCount_one : IsCount 1 1 :=
  ⟨by decide +kernel, by decide +kernel⟩

end Number

end Dispatch
