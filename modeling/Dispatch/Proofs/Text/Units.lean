import Dispatch.Text.Units
import Mathlib.Tactic.Common

/-!
# Strings and sequences of units

Cutting units into parts loses nothing, and the units of characters are cut into these
characters.  So `textUnits` and `Text.ofUnits` undo each other: every sequence of units is the
text of one string and every string the one of its text.
-/

namespace Dispatch

namespace Text

/-! ## Units and parts -/

theorem toNat_ofNat_unit {n : Nat} (h : n < 0x10000) : (UInt16.ofNat n).toNat = n :=
  UInt16.toNat_ofNat_of_lt' h

theorem toNat_ofNat_char {n : Nat} (h : n < 0xD800 ∨ 0xDFFF < n ∧ n < 0x110000) :
    (Char.ofNat n).toNat = n := by
  rw [Char.ofNat, dif_pos h]
  rfl

theorem toNat_char_cases (c : Char) :
    c.toNat < 0xD800 ∨ 0xDFFF < c.toNat ∧ c.toNat < 0x110000 :=
  c.valid

/-- A character of the first plane is one unit, and no surrogate. -/
theorem charUnits_of_lt {c : Char} (h : c.toNat < 0x10000) : charUnits c = [.ofNat c.toNat] := by
  simp [charUnits, h]

/-- A character beyond the first plane is two surrogates. -/
theorem exists_charUnits_pair {c : Char} (h : ¬c.toNat < 0x10000) :
    ∃ first second, charUnits c = [first, second] ∧ isFirst first = true ∧
      isSecond second = true ∧ pairChar first second = c := by
  have hc := toNat_char_cases c
  have hfirst := toNat_ofNat_unit (n := 0xD800 + (c.toNat - 0x10000) / 0x400) (by omega)
  have hsecond := toNat_ofNat_unit (n := 0xDC00 + (c.toNat - 0x10000) % 0x400) (by omega)
  refine ⟨_, _, by rw [charUnits, if_neg h], ?_, ?_, ?_⟩
  · rw [isFirst, hfirst, Bool.and_eq_true, decide_eq_true_iff, decide_eq_true_iff]
    omega
  · rw [isSecond, hsecond, Bool.and_eq_true, decide_eq_true_iff, decide_eq_true_iff]
    omega
  · have hvalue : 0x10000 + (0xD800 + (c.toNat - 0x10000) / 0x400 - 0xD800) * 0x400 +
        (0xDC00 + (c.toNat - 0x10000) % 0x400 - 0xDC00) = c.toNat := by omega
    rw [pairChar, hfirst, hsecond, hvalue, Char.ofNat_toNat]

theorem units_single (unit : UInt16) : (single unit).units = [unit] := by
  have hunit := unit.toNat_lt
  rw [single]
  split
  next => rfl
  next h =>
    simp only [isFirst, isSecond, Bool.or_eq_true, Bool.and_eq_true, decide_eq_true_iff,
      not_or] at h
    have hvalue := toNat_ofNat_char (n := unit.toNat) (by omega)
    rw [Point.units, charUnits_of_lt (by omega), hvalue, UInt16.ofNat_toNat]

theorem charUnits_pairChar {first second : UInt16} (hfirst : isFirst first = true)
    (hsecond : isSecond second = true) : charUnits (pairChar first second) = [first, second] := by
  simp only [isFirst, isSecond, Bool.and_eq_true, decide_eq_true_iff] at hfirst hsecond
  have hvalue : (pairChar first second).toNat =
      0x10000 + (first.toNat - 0xD800) * 0x400 + (second.toNat - 0xDC00) :=
    toNat_ofNat_char (by omega)
  have hhigh : 0xD800 + ((pairChar first second).toNat - 0x10000) / 0x400 = first.toNat := by
    omega
  have hlow : 0xDC00 + ((pairChar first second).toNat - 0x10000) % 0x400 = second.toNat := by
    omega
  rw [charUnits, if_neg (by omega), hhigh, hlow, UInt16.ofNat_toNat, UInt16.ofNat_toNat]

/-- Cutting units into parts loses nothing. -/
theorem flatMap_units_points (units : List UInt16) :
    (points units).flatMap Point.units = units := by
  fun_induction points units with
  | case1 => rfl
  | case2 unit => simp [units_single]
  | case3 unit next rest hpair ih =>
      rw [Bool.and_eq_true] at hpair
      rw [List.flatMap_cons, ih, Point.units, charUnits_pairChar hpair.1 hpair.2]
      rfl
  | case4 unit next rest hpair ih =>
      rw [List.flatMap_cons, ih, units_single]
      rfl

/-- A character in front is a part of its own. -/
theorem points_charUnits_append (c : Char) (units : List UInt16) :
    points (charUnits c ++ units) = .char c :: points units := by
  by_cases h : c.toNat < 0x10000
  · have hc := toNat_char_cases c
    have hunit := toNat_ofNat_unit h
    have hfirst : isFirst (.ofNat c.toNat) = false := by
      simp only [isFirst, hunit, Bool.and_eq_false_iff, decide_eq_false_iff_not]
      omega
    have hsecond : isSecond (.ofNat c.toNat) = false := by
      simp only [isSecond, hunit, Bool.and_eq_false_iff, decide_eq_false_iff_not]
      omega
    have hsingle : single (.ofNat c.toNat) = .char c := by
      rw [single, hfirst, hsecond, hunit, Char.ofNat_toNat]
      rfl
    rw [charUnits_of_lt h]
    cases units with
    | nil => rw [List.append_nil, points, points, hsingle]
    | cons next rest => rw [List.singleton_append, points, hfirst, hsingle]; rfl
  · obtain ⟨first, second, hunits, hfirst, hsecond, hpair⟩ := exists_charUnits_pair h
    rw [hunits, List.cons_append, List.singleton_append, points, hfirst, hsecond, hpair]
    rfl

/-- The units of characters are cut into these characters. -/
theorem points_flatMap_charUnits (cs : List Char) :
    points (cs.flatMap charUnits) = cs.map .char := by
  induction cs with
  | nil => rfl
  | cons c cs ih => rw [List.flatMap_cons, points_charUnits_append, ih, List.map_cons]

/-! ## Sequences that encode characters -/

theorem mapM_char?_eq_some_iff {parts : List Point} {cs : List Char} :
    parts.mapM Point.char? = some cs ↔ parts = cs.map .char := by
  induction parts generalizing cs with
  | nil => cases cs <;> simp
  | cons part parts ih =>
      cases part with
      | char c =>
          cases cs with
          | nil => simp [Point.char?, Option.bind_eq_some_iff]
          | cons d cs => simp [Point.char?, Option.bind_eq_some_iff, ih, and_comm]
      | lone unit => cases cs <;> simp [Point.char?]

theorem chars?_eq_some_iff {units : List UInt16} {cs : List Char} :
    chars? units = some cs ↔ units = cs.flatMap charUnits := by
  rw [chars?, mapM_char?_eq_some_iff]
  constructor
  · intro h
    rw [← flatMap_units_points units, h, List.flatMap_map]
    rfl
  · rintro rfl
    exact points_flatMap_charUnits cs

/-! ## Marks -/

theorem toNat_unitChar (unit : UInt16) : (unitChar unit).toNat = 0x10000 + unit.toNat := by
  have hunit := unit.toNat_lt
  exact toNat_ofNat_char (by omega)

theorem unitChar_ne_mark (unit : UInt16) : unitChar unit ≠ mark := by
  intro h
  have hunit := unit.toNat_lt
  have hvalue := toNat_unitChar unit
  have hmark : mark.toNat = 0x10FFFF := by decide
  rw [h, hmark] at hvalue
  omega

theorem isUnitChar_unitChar (unit : UInt16) : isUnitChar (unitChar unit) = true := by
  have hunit := unit.toNat_lt
  rw [isUnitChar, toNat_unitChar, Bool.and_eq_true, decide_eq_true_iff, decide_eq_true_iff]
  omega

theorem charUnit_unitChar (unit : UInt16) : charUnit (unitChar unit) = unit := by
  rw [charUnit, toNat_unitChar, Nat.add_sub_cancel_left, UInt16.ofNat_toNat]

theorem unitChar_charUnit {c : Char} (h : isUnitChar c = true) : unitChar (charUnit c) = c := by
  rw [isUnitChar, Bool.and_eq_true, decide_eq_true_iff, decide_eq_true_iff] at h
  rw [unitChar, charUnit, toNat_ofNat_unit (by omega), Nat.add_sub_cancel' h.1, Char.ofNat_toNat]

theorem map_charUnit_map_unitChar (units : List UInt16) :
    (units.map unitChar).map charUnit = units := by
  rw [List.map_map]
  refine (List.map_congr_left fun unit _ => ?_).trans (List.map_id _)
  rw [Function.comp_apply, charUnit_unitChar, id]

theorem dropWhile_map_unitChar (units : List UInt16) :
    (units.map unitChar).dropWhile (· == mark) = units.map unitChar := by
  cases units with
  | nil => rfl
  | cons unit units => simp [unitChar_ne_mark]

/-- What stands for units has no mark of its own. -/
theorem isMarked_map_unitChar (units : List UInt16) : isMarked (units.map unitChar) = false := by
  cases units with
  | nil => rfl
  | cons unit units => simp [isMarked, unitChar_ne_mark]

/-- A sequence that encodes no characters has a marked string. -/
theorem isMarked_mark_cons {units : List UInt16} (h : chars? units = none) :
    isMarked (mark :: units.map unitChar) = true := by
  have hunits : (units.map unitChar).all isUnitChar = true := by
    simp [isUnitChar_unitChar]
  simp only [isMarked, List.dropWhile_cons, beq_self_eq_true, if_true, dropWhile_map_unitChar,
    map_charUnit_map_unitChar, h, hunits]
  rfl

/-- One more mark changes nothing about the rest. -/
theorem isMarked_cons_of_isMarked {cs : List Char} (h : isMarked cs = true) :
    isMarked (mark :: cs) = true := by
  simp only [isMarked, Bool.and_eq_true] at h
  simp [isMarked, h.1.2, h.2]

/-- Behind the only mark there is one character for each unit. -/
theorem exists_units_of_isMarked {cs : List Char} (h : isMarked cs = true)
    (htail : isMarked cs.tail = false) :
    ∃ units, cs = mark :: units.map unitChar ∧ chars? units = none := by
  simp only [isMarked, Bool.and_eq_true, beq_iff_eq, Option.isNone_iff_eq_none] at h
  obtain ⟨⟨hhead, hall⟩, hnone⟩ := h
  obtain ⟨rest, rfl⟩ := List.head?_eq_some_iff.mp hhead
  rw [List.dropWhile_cons_of_pos (by simp)] at hall hnone
  have hbody : rest.dropWhile (· == mark) = rest := by
    cases rest with
    | nil => rfl
    | cons c rest =>
        by_cases hc : c = mark
        · subst hc
          have : isMarked (mark :: rest) = true := by
            simp only [isMarked, List.head?_cons, beq_self_eq_true, hall, hnone,
              Option.isNone_none, Bool.and_self]
          rw [List.tail_cons, this] at htail
          cases htail
        · simp [hc]
  rw [hbody] at hall hnone
  have hrest : (rest.map charUnit).map unitChar = rest := by
    rw [List.map_map]
    refine (List.map_congr_left fun c hc => ?_).trans (List.map_id _)
    rw [Function.comp_apply, unitChar_charUnit (List.all_eq_true.mp hall c hc), id]
  exact ⟨rest.map charUnit, by rw [hrest], hnone⟩

end Text

open Text

/-! ## Strings -/

/-- A sequence of units is the text of its string. -/
theorem textUnits_ofUnits (units : List UInt16) : textUnits (ofUnits units) = units := by
  rw [ofUnits]
  split
  next cs hcs =>
    have hunits := chars?_eq_some_iff.mp hcs
    by_cases hmarked : isMarked cs = true
    · simp [textUnits, hmarked, isMarked_cons_of_isMarked, hunits]
    · simp [textUnits, hmarked, hunits]
  next hnone =>
    simp only [textUnits, String.toList_ofList, isMarked_mark_cons hnone, List.tail_cons,
      isMarked_map_unitChar, map_charUnit_map_unitChar, if_true, Bool.false_eq_true, if_false]

/-- A string is the one of its text. -/
theorem ofUnits_textUnits (s : String) : ofUnits (textUnits s) = s := by
  rw [textUnits]
  split
  next hmarked =>
    cases htail : isMarked s.toList.tail with
    | true =>
        have hcs : chars? (s.toList.tail.flatMap charUnits) = some s.toList.tail :=
          chars?_eq_some_iff.mpr rfl
        have hs : mark :: s.toList.tail = s.toList := by
          simp only [isMarked, Bool.and_eq_true, beq_iff_eq] at hmarked
          obtain ⟨rest, hrest⟩ := List.head?_eq_some_iff.mp hmarked.1.1
          rw [hrest, List.tail_cons]
        rw [if_pos rfl, ofUnits, hcs]
        simp only [htail, if_true, hs, String.ofList_toList]
    | false =>
        obtain ⟨units, hunits, hnone⟩ := exists_units_of_isMarked hmarked htail
        rw [if_neg (by simp), hunits, List.tail_cons, map_charUnit_map_unitChar, ofUnits, hnone]
        simp only [← hunits, String.ofList_toList]
  next hmarked =>
    have hcs : chars? (s.toList.flatMap charUnits) = some s.toList :=
      chars?_eq_some_iff.mpr rfl
    rw [ofUnits, hcs]
    simp only [hmarked, Bool.false_eq_true, if_false, String.ofList_toList]

theorem textUnits_inj {s t : String} : textUnits s = textUnits t ↔ s = t :=
  ⟨fun h => by rw [← ofUnits_textUnits s, h, ofUnits_textUnits], congrArg textUnits⟩

end Dispatch
