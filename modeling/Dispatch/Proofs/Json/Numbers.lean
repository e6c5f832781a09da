import Dispatch.Json.Reader
import Dispatch.Json.Printer
import Dispatch.Proofs.Number.Decimal
import Mathlib.Data.List.TakeWhile

/-!
# Numbers in documents

A finite number is read back from its text, whatever follows that cannot continue
it.  The sign of zero is not written and therefore lost.

The digits of a number are laid out in one of several forms; `readUnsigned_layout`
covers them all.
-/

namespace Dispatch

open Json

/-- What cannot continue a number. -/
def EndsNumber (rest : List Char) : Prop :=
  ∀ c, rest.head? = some c → c.isDigit = false ∧ c ≠ '.' ∧ c ≠ 'e' ∧ c ≠ 'E'

theorem endsNumber_nil : EndsNumber [] := by
  intro c h
  simp at h

theorem endsNumber_cons {c : Char} {rest : List Char} :
    EndsNumber (c :: rest) ↔ c.isDigit = false ∧ c ≠ '.' ∧ c ≠ 'e' ∧ c ≠ 'E' := by
  simp [EndsNumber]

theorem EndsNumber.isDigit_eq_false {rest : List Char} (h : EndsNumber rest) :
    ∀ c, rest.head? = some c → c.isDigit = false :=
  fun c hc => (h c hc).1

theorem EndsNumber.ne_point {rest : List Char} (h : EndsNumber rest) :
    rest.head? ≠ some '.' :=
  fun hc => (h '.' hc).2.1 rfl

namespace Json

variable {digits rest : List Char}

/-! ## Runs of digits -/

theorem takeDigits_append (hdigits : ∀ c ∈ digits, c.isDigit = true)
    (hrest : ∀ c, rest.head? = some c → c.isDigit = false) :
    takeDigits (digits ++ rest) = (digits, rest) := by
  have htake : rest.takeWhile Char.isDigit = [] := by
    cases rest with
    | nil => rfl
    | cons c rest => simp [hrest c rfl]
  have hdrop : rest.dropWhile Char.isDigit = rest := by
    cases rest with
    | nil => rfl
    | cons c rest => simp [hrest c rfl]
  rw [takeDigits, List.takeWhile_append_of_pos hdigits, List.dropWhile_append_of_pos hdigits,
    htake, hdrop, List.append_nil]

theorem readWhole_append (hdigits : ∀ c ∈ digits, c.isDigit = true) (hne : digits ≠ [])
    (hfirst : digits.head? ≠ some '0') (hrest : ∀ c, rest.head? = some c → c.isDigit = false) :
    readWhole (digits ++ rest) = some (digits, rest) := by
  obtain ⟨c, more, rfl⟩ := List.exists_cons_of_ne_nil hne
  have hc : c ≠ '0' := by simpa using hfirst
  have htake := takeDigits_append hdigits hrest
  rw [List.cons_append] at htake ⊢
  rw [readWhole.eq_def]
  split
  next heq =>
    cases heq
    exact absurd rfl hc
  next => rw [htake]

theorem readFraction_of_ne_point (h : rest.head? ≠ some '.') :
    readFraction rest = some ([], rest) := by
  cases rest with
  | nil => rfl
  | cons c rest =>
      have hc : c ≠ '.' := by simpa using h
      rw [readFraction.eq_def]
      split
      next heq =>
        cases heq
        exact absurd rfl hc
      next => rfl

theorem readFraction_point (hdigits : ∀ c ∈ digits, c.isDigit = true) (hne : digits ≠ [])
    (hrest : ∀ c, rest.head? = some c → c.isDigit = false) :
    readFraction ('.' :: (digits ++ rest)) = some (digits, rest) := by
  obtain ⟨c, more, rfl⟩ := List.exists_cons_of_ne_nil hne
  rw [readFraction, takeDigits_append hdigits hrest]

theorem readExponent_of_endsNumber (h : EndsNumber rest) : readExponent rest = some (0, rest) := by
  cases rest with
  | nil => rfl
  | cons c rest =>
      obtain ⟨-, -, he, hE⟩ := endsNumber_cons.mp h
      simp [readExponent, he, hE]

theorem readExponentDigits_toDigits (negative : Bool) (n : Nat)
    (hrest : ∀ c, rest.head? = some c → c.isDigit = false) :
    readExponentDigits negative (Nat.toDigits 10 n ++ rest) =
      some (if negative then -(n : Int) else n, rest) := by
  have hdigits : ∀ c ∈ Nat.toDigits 10 n, c.isDigit = true :=
    fun c hc => Nat.isDigit_of_mem_toDigits (by omega) (by omega) hc
  have hvalue : Nat.ofDigitChars 10 (Nat.toDigits 10 n) 0 = n := Nat.ofDigitChars_ten_toDigits
  rw [readExponentDigits, takeDigits_append hdigits hrest]
  cases htoDigits : Nat.toDigits 10 n with
  | nil => exact absurd htoDigits Nat.toDigits_ne_nil
  | cons c more =>
      rw [htoDigits] at hvalue
      simp only [hvalue]

theorem readExponent_exponentChars (exponent : Int)
    (hrest : ∀ c, rest.head? = some c → c.isDigit = false) :
    readExponent (Number.exponentChars exponent ++ rest) = some (exponent, rest) := by
  cases exponent with
  | ofNat n =>
      simp only [Number.exponentChars, List.cons_append, readExponent]
      rw [readExponentDigits_toDigits false n hrest]
      rfl
  | negSucc n =>
      simp only [Number.exponentChars, List.cons_append, readExponent]
      rw [readExponentDigits_toDigits true (n + 1) hrest]
      rfl

/-! ## The forms of a number -/

theorem readUnsigned_eq {cs whole rest₁ fraction rest₂ rest₃ : List Char} {exponent : Int}
    (negative : Bool) (hwhole : readWhole cs = some (whole, rest₁))
    (hfraction : readFraction rest₁ = some (fraction, rest₂))
    (hexponent : readExponent rest₂ = some (exponent, rest₃)) :
    readUnsigned negative cs = some (.ofDecimal negative
      ⟨Nat.ofDigitChars 10 (whole ++ fraction) 0, exponent - fraction.length⟩, rest₃) := by
  simp [readUnsigned, hwhole, hfraction, hexponent]

theorem ofDigitChars_append_zeros (digits : List Char) (n : Nat) :
    Nat.ofDigitChars 10 (digits ++ List.replicate n '0') 0 =
      Nat.ofDigitChars 10 digits 0 * 10 ^ n := by
  rw [Nat.ofDigitChars_append, Nat.ofDigitChars_replicate_zero, Nat.mul_comm]

theorem ofDigitChars_zeros_append (n : Nat) (digits : List Char) :
    Nat.ofDigitChars 10 (List.replicate n '0' ++ digits) 0 = Nat.ofDigitChars 10 digits 0 := by
  rw [Nat.ofDigitChars_append, Nat.ofDigitChars_replicate_zero, Nat.mul_zero]

/-- All digits before the point, filled up with zeros. -/
theorem readUnsigned_filled (negative : Bool) (zeros : Nat)
    (hdigits : ∀ c ∈ digits, c.isDigit = true) (hne : digits ≠ [])
    (hfirst : digits.head? ≠ some '0') (hrest : EndsNumber rest) :
    readUnsigned negative (digits ++ List.replicate zeros '0' ++ rest) =
      some (.ofDecimal negative ⟨Nat.ofDigitChars 10 digits 0, zeros⟩, rest) := by
  have hfilled : ∀ c ∈ digits ++ List.replicate zeros '0', c.isDigit = true := by
    intro c hc
    rcases List.mem_append.mp hc with hc | hc
    · exact hdigits c hc
    · rw [List.eq_of_mem_replicate hc]
      rfl
  have hhead : (digits ++ List.replicate zeros '0').head? ≠ some '0' := by
    obtain ⟨c, more, rfl⟩ := List.exists_cons_of_ne_nil hne
    exact hfirst
  have hwhole := readWhole_append hfilled (by simp [hne]) hhead hrest.isDigit_eq_false
  have hfraction := readFraction_of_ne_point hrest.ne_point
  rw [readUnsigned_eq negative hwhole hfraction (readExponent_of_endsNumber hrest),
    List.append_nil, ofDigitChars_append_zeros, Number.ofDecimal_mul_pow]
  simp

/-- The point among the digits. -/
theorem readUnsigned_divided (negative : Bool) {place : Nat}
    (hdigits : ∀ c ∈ digits, c.isDigit = true) (hplace : 0 < place)
    (hlength : place < digits.length) (hfirst : digits.head? ≠ some '0')
    (hrest : EndsNumber rest) :
    readUnsigned negative (digits.take place ++ '.' :: digits.drop place ++ rest) =
      some (.ofDecimal negative
        ⟨Nat.ofDigitChars 10 digits 0, (place : Int) - digits.length⟩, rest) := by
  have htake : ∀ c ∈ digits.take place, c.isDigit = true :=
    fun c hc => hdigits c (List.mem_of_mem_take hc)
  have hdrop : ∀ c ∈ digits.drop place, c.isDigit = true :=
    fun c hc => hdigits c (List.mem_of_mem_drop hc)
  have htakeNe : digits.take place ≠ [] := by
    intro h
    have hzero : (digits.take place).length = 0 := by rw [h, List.length_nil]
    rw [List.length_take] at hzero
    omega
  have hdropNe : digits.drop place ≠ [] := by
    rw [Ne, List.drop_eq_nil_iff]
    omega
  have hhead : (digits.take place).head? ≠ some '0' := by
    rw [List.head?_take, if_neg (by omega)]
    exact hfirst
  have hwhole : readWhole (digits.take place ++ '.' :: (digits.drop place ++ rest)) = _ :=
    readWhole_append htake htakeNe hhead (by simp)
  have hfraction := readFraction_point hdrop hdropNe hrest.isDigit_eq_false
  have hexponent : (0 : Int) - ((digits.length - place : Nat) : Int) = place - digits.length := by
    omega
  rw [List.append_assoc, List.cons_append,
    readUnsigned_eq negative hwhole hfraction (readExponent_of_endsNumber hrest),
    List.take_append_drop, List.length_drop, hexponent]

/-- Zeros between the point and the digits. -/
theorem readUnsigned_shifted (negative : Bool) (zeros : Nat)
    (hdigits : ∀ c ∈ digits, c.isDigit = true) (hne : digits ≠ []) (hrest : EndsNumber rest) :
    readUnsigned negative ('0' :: '.' :: List.replicate zeros '0' ++ digits ++ rest) =
      some (.ofDecimal negative
        ⟨Nat.ofDigitChars 10 digits 0, -(zeros : Int) - digits.length⟩, rest) := by
  have hfilled : ∀ c ∈ List.replicate zeros '0' ++ digits, c.isDigit = true := by
    intro c hc
    rcases List.mem_append.mp hc with hc | hc
    · rw [List.eq_of_mem_replicate hc]
      rfl
    · exact hdigits c hc
  have hwhole (cs : List Char) : readWhole ('0' :: cs) = some (['0'], cs) := rfl
  have hfraction := readFraction_point hfilled (by simp [hne]) hrest.isDigit_eq_false
  have hzero : Nat.ofDigitChars 10 ['0'] 0 = 0 := rfl
  have hexponent : (0 : Int) - ((zeros + digits.length : Nat) : Int) =
      -(zeros : Int) - digits.length := by omega
  simp only [List.cons_append]
  rw [readUnsigned_eq negative (hwhole _) hfraction (readExponent_of_endsNumber hrest),
    Nat.ofDigitChars_append, hzero, ofDigitChars_zeros_append, List.length_append,
    List.length_replicate, hexponent]

theorem head?_exponentChars {exponent : Int} {c : Char}
    (h : (Number.exponentChars exponent ++ rest).head? = some c) : c = 'e' := by
  cases exponent with
  | ofNat n => simpa [Number.exponentChars, eq_comm] using h
  | negSucc n => simpa [Number.exponentChars, eq_comm] using h

/-- One digit before the point, if there is one, and an exponent. -/
theorem readUnsigned_scientific (negative : Bool) {first : Char} {more point : List Char}
    (exponent : Int) (hdigits : ∀ c ∈ first :: more, c.isDigit = true) (hfirst : first ≠ '0')
    (hpoint : point = if more = [] then [] else ['.']) (hrest : EndsNumber rest) :
    readUnsigned negative (first :: point ++ more ++ Number.exponentChars exponent ++ rest) =
      some (.ofDecimal negative
        ⟨Nat.ofDigitChars 10 (first :: more) 0, exponent - more.length⟩, rest) := by
  have hone : ∀ c ∈ [first], c.isDigit = true := by
    intro c hc
    exact hdigits c (by simp_all)
  have hletter : ∀ c, (Number.exponentChars exponent ++ rest).head? = some c →
      c.isDigit = false := by
    intro c hc
    rw [head?_exponentChars hc]
    rfl
  have hexponent := readExponent_exponentChars exponent hrest.isDigit_eq_false
  by_cases hmore : more = []
  · have hwhole := readWhole_append hone (by simp) (by simpa using hfirst) hletter
    have hfraction : readFraction (Number.exponentChars exponent ++ rest) = _ :=
      readFraction_of_ne_point fun hc => absurd (head?_exponentChars hc) (by decide)
    have hread := readUnsigned_eq negative hwhole hfraction hexponent
    simpa [hpoint, hmore] using hread
  · have hmoreDigits : ∀ c ∈ more, c.isDigit = true :=
      fun c hc => hdigits c (List.mem_cons_of_mem _ hc)
    have hwhole : readWhole ([first] ++ '.' :: (more ++ (Number.exponentChars exponent ++
        rest))) = _ :=
      readWhole_append hone (by simp) (by simpa using hfirst) (by simp)
    have hfraction := readFraction_point hmoreDigits hmore hletter
    have hread := readUnsigned_eq negative hwhole hfraction hexponent
    simpa [hpoint, hmore] using hread

/-- Digits in the layout of numbers are read as the decimal that was laid out. -/
theorem readUnsigned_layout (negative : Bool) (point : Int)
    (hdigits : ∀ c ∈ digits, c.isDigit = true) (hne : digits ≠ [])
    (hfirst : digits.head? ≠ some '0') (hrest : EndsNumber rest) :
    readUnsigned negative (Number.layout digits point ++ rest) =
      some (.ofDecimal negative
        ⟨Nat.ofDigitChars 10 digits 0, point - digits.length⟩, rest) := by
  have hlength : 0 < digits.length := List.length_pos_iff.mpr hne
  unfold Number.layout
  dsimp only
  split
  next hwhole =>
    rw [readUnsigned_filled negative _ hdigits hne hfirst hrest]
    congr 5
    omega
  next hwhole =>
    split
    next hinside =>
      rw [readUnsigned_divided negative hdigits (by omega) (by omega) hfirst hrest]
      congr 5
      omega
    next hinside =>
      split
      next hsmall =>
        rw [readUnsigned_shifted negative _ hdigits hne hrest]
        congr 5
        omega
      next hlarge =>
        cases digits with
        | nil => exact absurd rfl hne
        | cons first more =>
            have hfirst' : first ≠ '0' := by simpa using hfirst
            have hread := readUnsigned_scientific negative (point - 1) hdigits hfirst' rfl hrest
            have hexponent : point - 1 - (more.length : Int) = point - (first :: more).length := by
              simp only [List.length_cons]
              omega
            rw [hexponent] at hread
            cases more with
            | nil => simpa using hread
            | cons second others => simpa using hread

/-! ## The text of a number -/

/-- The digits of a number are those that are kept, and zeros. -/
theorem stripZeros_append (digits : List Char) :
    Number.stripZeros digits ++
      List.replicate (digits.length - (Number.stripZeros digits).length) '0' = digits := by
  have hzeros : ∀ l : List Char,
      l.takeWhile (· == '0') = List.replicate (l.length - (l.dropWhile (· == '0')).length) '0' := by
    intro l
    rw [List.eq_replicate_iff]
    constructor
    · have hparts := congrArg List.length
        (List.takeWhile_append_dropWhile (p := (· == '0')) (l := l))
      rw [List.length_append] at hparts
      omega
    · intro c hc
      simpa using List.mem_takeWhile_imp hc
  have hparts := List.takeWhile_append_dropWhile (p := (· == '0')) (l := digits.reverse)
  rw [hzeros, List.length_reverse] at hparts
  have hreverse := congrArg List.reverse hparts
  rw [List.reverse_append, List.reverse_replicate, List.reverse_reverse] at hreverse
  simpa [Number.stripZeros] using hreverse

theorem head?_toDigits_ne_zero {n : Nat} (h : 0 < n) : (Nat.toDigits 10 n).head? ≠ some '0' := by
  induction n using Nat.strongRecOn with
  | _ n ih =>
      by_cases hsmall : n < 10
      · have hdigit : ∀ n < 10, 0 < n → n.digitChar ≠ '0' := by decide
        rw [Nat.toDigits_of_lt_base hsmall]
        simpa using hdigit n hsmall h
      · rw [Nat.toDigits_of_base_le (by omega) (by omega)]
        have hrec := ih (n / 10) (by omega) (by omega)
        obtain ⟨c, more, hcons⟩ := List.exists_cons_of_ne_nil
          (Nat.toDigits_ne_nil (n := n / 10) (b := 10))
        rw [hcons] at hrec ⊢
        exact hrec

theorem readUnsigned_decimalChars (negative : Bool) {d : Decimal} (hd : 0 < d.digits)
    (hrest : EndsNumber rest) :
    readUnsigned negative (Number.decimalChars d ++ rest) =
      some (.ofDecimal negative d, rest) := by
  have happend := stripZeros_append (Nat.toDigits 10 d.digits)
  have hhead := head?_toDigits_ne_zero hd
  generalize hkept : Number.stripZeros (Nat.toDigits 10 d.digits) = kept at happend
  generalize hzeros : (Nat.toDigits 10 d.digits).length - kept.length = zeros at happend
  have hdigits : ∀ c ∈ kept, c.isDigit = true := by
    intro c hc
    refine Nat.isDigit_of_mem_toDigits (b := 10) (n := d.digits) (by omega) (by omega) ?_
    rw [← happend]
    exact List.mem_append_left _ hc
  have hne : kept ≠ [] := by
    rintro rfl
    rw [← happend, List.nil_append] at hhead
    cases zeros with
    | zero => exact Nat.toDigits_ne_nil happend.symm
    | succ zeros => exact hhead rfl
  have hfirst : kept.head? ≠ some '0' := by
    obtain ⟨c, more, rfl⟩ := List.exists_cons_of_ne_nil hne
    rw [← happend] at hhead
    exact hhead
  have hvalue : d.digits = Nat.ofDigitChars 10 kept 0 * 10 ^ zeros := by
    rw [← ofDigitChars_append_zeros, happend, Nat.ofDigitChars_ten_toDigits]
  have hlength : (Nat.toDigits 10 d.digits).length = kept.length + zeros := by
    rw [← happend, List.length_append, List.length_replicate]
  have hdecimal : Number.ofDecimal negative d = Number.ofDecimal negative
      ⟨Nat.ofDigitChars 10 kept 0, d.exponent + zeros⟩ := by
    rw [← Number.ofDecimal_mul_pow, ← hvalue]
  rw [Number.decimalChars, hkept, readUnsigned_layout negative _ hdigits hne hfirst hrest,
    hdecimal, hlength]
  congr 5
  omega

theorem readUnsigned_magnitudeChars (negative : Bool) (m : Magnitude) (hrest : EndsNumber rest) :
    readUnsigned negative (Number.magnitudeChars m ++ rest) =
      some (.finite negative m, rest) := by
  unfold Number.magnitudeChars
  split
  next hzero =>
    have hm : m = .zero := Magnitude.eq_of_units_eq hzero
    have hwhole (cs : List Char) : readWhole ('0' :: cs) = some (['0'], cs) := rfl
    rw [List.singleton_append, readUnsigned_eq negative (hwhole _)
      (readFraction_of_ne_point hrest.ne_point) (readExponent_of_endsNumber hrest), hm]
    rfl
  next hzero =>
    rw [readUnsigned_decimalChars negative (Magnitude.digits_shortest_pos hzero) hrest,
      Number.ofDecimal_shortest]

/-! ## Numbers with their sign -/

theorem head?_of_readWhole {cs : List Char} {read : List Char × List Char}
    (h : readWhole cs = some read) : ∃ c more, cs = c :: more ∧ c.isDigit = true := by
  cases cs with
  | nil => simp [readWhole, takeDigits] at h
  | cons c more =>
      refine ⟨c, more, rfl, ?_⟩
      by_contra hc
      have hzero : c ≠ '0' := by
        rintro rfl
        exact hc rfl
      rw [readWhole.eq_def] at h
      split at h
      next heq =>
        cases heq
        exact hzero rfl
      next => simp [takeDigits, hc] at h

theorem readWhole_isSome_of_readUnsigned {negative : Bool} {cs : List Char}
    {read : Number × List Char} (h : readUnsigned negative cs = some read) :
    ∃ read, readWhole cs = some read := by
  cases hwhole : readWhole cs with
  | none => simp [readUnsigned, hwhole] at h
  | some read => exact ⟨read, rfl⟩

theorem head?_of_readNumber {cs : List Char} {read : Number × List Char}
    (h : readNumber cs = some read) :
    ∃ c more, cs = c :: more ∧ (c = '-' ∨ c.isDigit = true) := by
  rw [readNumber.eq_def] at h
  split at h
  next rest => exact ⟨'-', rest, rfl, Or.inl rfl⟩
  next =>
    obtain ⟨_, hwhole⟩ := readWhole_isSome_of_readUnsigned h
    obtain ⟨c, more, hcs, hc⟩ := head?_of_readWhole hwhole
    exact ⟨c, more, hcs, Or.inr hc⟩

theorem readNumber_of_readUnsigned {cs : List Char} {read : Number × List Char}
    (h : readUnsigned false cs = some read) : readNumber cs = some read := by
  obtain ⟨_, hwhole⟩ := readWhole_isSome_of_readUnsigned h
  obtain ⟨c, more, rfl, hc⟩ := head?_of_readWhole hwhole
  have hminus : c ≠ '-' := by
    rintro rfl
    exact absurd hc (by decide)
  rw [readNumber.eq_def]
  split
  next heq =>
    cases heq
    exact absurd rfl hminus
  next => exact h

theorem chars_finite (negative : Bool) (m : Magnitude) :
    (Number.finite negative m).chars =
      if negative && m.units != 0 then '-' :: Number.magnitudeChars m
      else Number.magnitudeChars m :=
  rfl

/-- A finite number is read back from its text, without the sign of zero. -/
theorem readNumber_chars {x y : Number} (hx : x.serial? = some y) (hrest : EndsNumber rest) :
    readNumber (x.chars ++ rest) = some (y, rest) := by
  cases x with
  | nan => simp [Number.serial?] at hx
  | infinite negative => simp [Number.serial?] at hx
  | finite negative m =>
      rw [Number.serial?, Option.some.injEq] at hx
      rw [chars_finite, ← hx]
      generalize (negative && m.units != 0) = signed
      cases signed with
      | true =>
          have hread := readUnsigned_magnitudeChars true m hrest
          exact hread
      | false =>
          have hread := readUnsigned_magnitudeChars false m hrest
          exact readNumber_of_readUnsigned hread

end Json

end Dispatch
