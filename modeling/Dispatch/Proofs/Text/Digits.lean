import Dispatch.Calendar
import Mathlib.Algebra.Order.Ring.Nat
import Mathlib.Tactic.Common

/-!
# Numbers of a fixed width

Texts of equally many digits have the order of the numbers that they stand for.  A number
below a hundred that is padded to two characters is written in exactly two digits.
-/

namespace Dispatch

/-! ## The order of digits -/

section

variable {cs ds : List Char}

theorem toNat_of_isDigit {c : Char} (h : c.isDigit = true) : 48 ≤ c.toNat ∧ c.toNat ≤ 57 := by
  simpa [Char.isDigit, UInt32.le_iff_toNat_le] using h

/-- The first digit counts for a power of ten. -/
theorem ofDigitChars_cons_eq (c : Char) (cs : List Char) :
    Nat.ofDigitChars 10 (c :: cs) 0 =
      10 ^ cs.length * (c.toNat - 48) + Nat.ofDigitChars 10 cs 0 := by
  have hzero : '0'.toNat = 48 := rfl
  rw [Nat.ofDigitChars_cons, Nat.ofDigitChars_eq_ofDigitChars_zero, Nat.mul_zero, Nat.zero_add,
    hzero]

theorem ofDigitChars_lt (h : ∀ c ∈ cs, c.isDigit = true) :
    Nat.ofDigitChars 10 cs 0 < 10 ^ cs.length := by
  induction cs with
  | nil => exact Nat.one_pos
  | cons c cs ih =>
      obtain ⟨hc, hcs⟩ := List.forall_mem_cons.mp h
      have hfirst := toNat_of_isDigit hc
      have hrest := ih hcs
      have hmost := Nat.mul_le_mul_left (10 ^ cs.length) (by omega : c.toNat - 48 ≤ 9)
      rw [ofDigitChars_cons_eq, List.length_cons, Nat.pow_succ]
      omega

/-- What counts for a whole weight outweighs all that is less. -/
theorem weighted_lt_iff {weight a b x y : Nat} (hx : x < weight) (hy : y < weight) :
    weight * a + x < weight * b + y ↔ a < b ∨ a = b ∧ x < y := by
  rcases Nat.lt_trichotomy a b with h | rfl | h
  · have hmul := Nat.mul_le_mul_left weight (Nat.succ_le_of_lt h)
    rw [Nat.mul_succ] at hmul
    exact ⟨fun _ => Or.inl h, fun _ => by omega⟩
  · omega
  · have hmul := Nat.mul_le_mul_left weight (Nat.succ_le_of_lt h)
    rw [Nat.mul_succ] at hmul
    exact ⟨fun _ => by omega, fun _ => by omega⟩

theorem lt_iff_ofDigitChars_lt (hcs : ∀ c ∈ cs, c.isDigit = true)
    (hds : ∀ d ∈ ds, d.isDigit = true) (hlength : cs.length = ds.length) :
    cs < ds ↔ Nat.ofDigitChars 10 cs 0 < Nat.ofDigitChars 10 ds 0 := by
  induction cs generalizing ds with
  | nil =>
      rw [List.eq_nil_of_length_eq_zero hlength.symm]
      simp
  | cons c cs ih =>
      cases ds with
      | nil => cases hlength
      | cons d ds =>
          obtain ⟨hc, hcs⟩ := List.forall_mem_cons.mp hcs
          obtain ⟨hd, hds⟩ := List.forall_mem_cons.mp hds
          have hlength : cs.length = ds.length := Nat.succ.inj hlength
          have hc := toNat_of_isDigit hc
          have hd := toNat_of_isDigit hd
          have hlt : c < d ↔ c.toNat - 48 < d.toNat - 48 := by
            rw [Char.lt_def, UInt32.lt_iff_toNat_lt]
            change c.toNat < d.toNat ↔ _
            omega
          have heq : c = d ↔ c.toNat - 48 = d.toNat - 48 := by
            rw [← Char.toNat_inj]
            omega
          have hweight := ofDigitChars_lt hds
          rw [← hlength] at hweight
          rw [List.cons_lt_cons_iff, ih hcs hds hlength, hlt, heq, ofDigitChars_cons_eq,
            ofDigitChars_cons_eq, ← hlength, weighted_lt_iff (ofDigitChars_lt hcs) hweight]

/-- Texts that begin with equally many characters are compared there first. -/
theorem append_lt_append_iff (hlength : cs.length = ds.length) (cs' ds' : List Char) :
    cs ++ cs' < ds ++ ds' ↔ cs < ds ∨ cs = ds ∧ cs' < ds' := by
  induction cs generalizing ds with
  | nil =>
      rw [List.eq_nil_of_length_eq_zero hlength.symm]
      simp
  | cons c cs ih =>
      cases ds with
      | nil => cases hlength
      | cons d ds =>
          rw [List.cons_append, List.cons_append, List.cons_lt_cons_iff, List.cons_lt_cons_iff,
            ih (Nat.succ.inj hlength), List.cons.injEq]
          tauto

end

/-! ## Two digits -/

/-- A number below a hundred in two digits. -/
def twoDigits (n : Nat) : List Char :=
  [Nat.digitChar (n / 10), Nat.digitChar (n % 10)]

section

variable {n : Nat} (h : n < 100)

include h

theorem padDigits_two : padDigits 2 n = twoDigits n := by
  rw [padDigits, twoDigits]
  rcases Nat.lt_or_ge n 10 with hsmall | hlarge
  · rw [Nat.toDigits_of_lt_base hsmall, Nat.div_eq_of_lt hsmall, Nat.mod_eq_of_lt hsmall]
    rfl
  · rw [Nat.toDigits_of_base_le (by omega) hlarge, Nat.toDigits_of_lt_base (by omega)]
    rfl

theorem isDigit_of_mem_twoDigits : ∀ c ∈ twoDigits n, c.isDigit = true := by
  have htens : n / 10 < 10 := Nat.div_lt_of_lt_mul h
  simp [twoDigits, Nat.isDigit_digitChar, Nat.mod_lt, htens]

theorem ofDigitChars_append_twoDigits (cs : List Char) :
    Nat.ofDigitChars 10 (cs ++ twoDigits n) 0 = Nat.ofDigitChars 10 cs 0 * 100 + n := by
  rw [twoDigits, Nat.ofDigitChars_append,
    Nat.ofDigitChars_cons_digitChar_of_lt_ten (Nat.div_lt_of_lt_mul h),
    Nat.ofDigitChars_cons_digitChar_of_lt_ten (Nat.mod_lt n (by decide)), Nat.ofDigitChars_nil]
  omega

theorem ofDigitChars_twoDigits : Nat.ofDigitChars 10 (twoDigits n) 0 = n := by
  simpa using ofDigitChars_append_twoDigits h []

end

end Dispatch
