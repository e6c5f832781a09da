import Dispatch.Json.Reader
import Dispatch.Json.Printer
import Dispatch.Proofs.Text.Units

/-!
# Texts in documents

Every text is read back from its quoted form, part by part.  A character is written as it is
or by an escape, and a surrogate that stands alone by its number; each is read as its units.
-/

namespace Dispatch.Json

theorem hexDigit?_digitChar : ∀ n < 16, hexDigit? (Nat.digitChar n) = some n := by
  decide

/-- A unit is read back from its four digits. -/
theorem hexUnit?_digitChar {n : Nat} (h : n < 0x10000) :
    hexUnit? (Nat.digitChar (n / 0x1000)) (Nat.digitChar (n / 0x100 % 16))
      (Nat.digitChar (n / 0x10 % 16)) (Nat.digitChar (n % 16)) = some n := by
  have hfirst := hexDigit?_digitChar (n / 0x1000) (by omega)
  have hsecond := hexDigit?_digitChar (n / 0x100 % 16) (by omega)
  have hthird := hexDigit?_digitChar (n / 0x10 % 16) (by omega)
  have hlast := hexDigit?_digitChar (n % 16) (by omega)
  simp only [hexUnit?, hfirst, hsecond, hthird, hlast, Option.bind_eq_bind, Option.bind_some,
    Option.pure_def]
  congr 1
  omega

theorem readText_hexUnit {a b c d : Char} {n : Nat} (rest : List Char)
    (h : hexUnit? a b c d = some n) :
    readText ('\\' :: 'u' :: a :: b :: c :: d :: rest) =
      prepend [.ofNat n] (readText rest) := by
  rw [readText, h]

/-- A control character is written by its number. -/
theorem readText_control {c : Char} (rest : List Char) (h : c.toNat < 0x20) :
    readText ('\\' :: 'u' :: '0' :: '0' :: Nat.digitChar (c.toNat / 16) ::
      Nat.digitChar (c.toNat % 16) :: rest) = prepend (charUnits c) (readText rest) := by
  have hdigits := hexUnit?_digitChar (n := c.toNat) (by omega)
  rw [show c.toNat / 0x1000 = 0 by omega, show c.toNat / 0x100 % 16 = 0 by omega,
    show c.toNat / 0x10 % 16 = c.toNat / 16 by omega] at hdigits
  rw [Text.charUnits_of_lt (by omega)]
  exact readText_hexUnit rest hdigits

/-- A character that needs no escape stands for itself. -/
theorem readText_plain {c : Char} (rest : List Char) (hquote : c ≠ '\x22') (hback : c ≠ '\\')
    (hcontrol : ¬c.toNat < 0x20) :
    readText (c :: rest) = prepend (charUnits c) (readText rest) := by
  rw [readText.eq_def]
  split
  next heq => simp at heq
  next heq => exact absurd (List.cons.inj heq).1 hquote
  next heq => exact absurd (List.cons.inj heq).1 hback
  next heq => exact absurd (List.cons.inj heq).1 hback
  next heq =>
    obtain ⟨rfl, rfl⟩ := List.cons.inj heq
    rw [if_neg (by tauto)]

theorem readText_simpleEscape {letter c : Char} (rest : List Char) (hletter : letter ≠ 'u')
    (h : simpleEscape? letter = some c) :
    readText ('\\' :: letter :: rest) = prepend (charUnits c) (readText rest) := by
  rw [readText.eq_4 letter rest (by rintro _ _ _ _ _ rfl; exact absurd rfl hletter), h]

theorem readText_escapeChar (c : Char) (rest : List Char) :
    readText (escapeChar c ++ rest) = prepend (charUnits c) (readText rest) := by
  by_cases hquote : c = '\x22'
  · subst hquote
    exact readText_simpleEscape rest (by decide) rfl
  by_cases hback : c = '\\'
  · subst hback
    exact readText_simpleEscape rest (by decide) rfl
  by_cases hb : c = '\x08'
  · subst hb
    exact readText_simpleEscape rest (by decide) rfl
  by_cases ht : c = '\t'
  · subst ht
    exact readText_simpleEscape rest (by decide) rfl
  by_cases hn : c = '\n'
  · subst hn
    exact readText_simpleEscape rest (by decide) rfl
  by_cases hf : c = '\x0C'
  · subst hf
    exact readText_simpleEscape rest (by decide) rfl
  by_cases hr : c = '\r'
  · subst hr
    exact readText_simpleEscape rest (by decide) rfl
  by_cases hcontrol : c.toNat < 0x20
  · simp only [escapeChar, hquote, hback, hb, ht, hn, hf, hr, hcontrol, if_false, if_true]
    exact readText_control rest hcontrol
  · simp only [escapeChar, hquote, hback, hb, ht, hn, hf, hr, hcontrol, if_false]
    exact readText_plain rest hquote hback hcontrol

theorem readText_escapePoint (part : Text.Point) (rest : List Char) :
    readText (escapePoint part ++ rest) = prepend part.units (readText rest) := by
  cases part with
  | char c => exact readText_escapeChar c rest
  | lone unit =>
      have hread := readText_hexUnit rest (hexUnit?_digitChar unit.toNat_lt)
      rwa [UInt16.ofNat_toNat] at hread

/-- The parts of a quoted text are read up to its closing quote. -/
theorem readText_parts (parts : List Text.Point) (rest : List Char) :
    readText (parts.flatMap escapePoint ++ '\x22' :: rest) =
      some (parts.flatMap Text.Point.units, rest) := by
  induction parts with
  | nil => simp [readText]
  | cons part parts ih =>
      rw [List.flatMap_cons, List.append_assoc, readText_escapePoint, ih]
      rfl

theorem readText_quoted (s : String) (rest : List Char) :
    readText ((Text.points (textUnits s)).flatMap escapePoint ++ '\x22' :: rest) =
      some (textUnits s, rest) := by
  rw [readText_parts, Text.flatMap_units_points]

end Dispatch.Json
