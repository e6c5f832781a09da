import Dispatch.Text.Split
import Mathlib.Tactic.Common

/-!
# Lines of a text

A text is cut at its first and at its last line end.  If neither its first nor its last line
has a line end in it, as lines have none, then what stands between may have any number of
them, and it is found again.
-/

namespace Dispatch

/-- The lines of a text. -/
def lines (text : String) : List String :=
  splitText (· == '\n') text

/-- What stands before the first line end. -/
def firstLine (text : String) : String :=
  .ofList (text.toList.takeWhile (· != '\n'))

/-- What stands behind the last line end. -/
def lastLine (text : String) : String :=
  .ofList (text.toList.reverse.takeWhile (· != '\n')).reverse

/-- What stands between the first line end and the last one. -/
def betweenLineEnds (text : String) : String :=
  let rest := (text.toList.dropWhile (· != '\n')).tail
  .ofList (rest.reverse.dropWhile (· != '\n')).tail.reverse

/-- The number of lines is one more than that of the line ends. -/
theorem length_lines (text : String) : (lines text).length = text.toList.count '\n' + 1 := by
  have hparts (current cs : List Char) :
      (splitCharsFrom (· == '\n') current cs).length = cs.count '\n' + 1 := by
    induction cs generalizing current with
    | nil => rfl
    | cons c cs ih =>
        rw [splitCharsFrom]
        by_cases hc : c = '\n'
        · simp [hc, ih]
        · simp [hc, ih]
  rw [lines, splitText, List.length_map, hparts]

/-! ## Cutting at line ends -/

section

variable {line : List Char} (h : '\n' ∉ line) (rest : List Char)

include h

theorem bne_of_mem_line : ∀ c ∈ line, (c != '\n') = true := by
  intro c hc
  rw [bne_iff_ne]
  rintro rfl
  exact h hc

theorem takeWhile_line : (line ++ '\n' :: rest).takeWhile (· != '\n') = line := by
  rw [List.takeWhile_append_of_pos (bne_of_mem_line h)]
  simp

theorem tail_dropWhile_line : ((line ++ '\n' :: rest).dropWhile (· != '\n')).tail = rest := by
  rw [List.dropWhile_append_of_pos (bne_of_mem_line h)]
  simp

end

section

variable {first last : String} (middle : String)

theorem toList_threeParts (first middle last : String) :
    ("\n".intercalate [first, middle, last]).toList =
      first.toList ++ '\n' :: (middle.toList ++ '\n' :: last.toList) := by
  simp

theorem firstLine_threeParts (hfirst : '\n' ∉ first.toList) :
    firstLine ("\n".intercalate [first, middle, last]) = first := by
  rw [firstLine, toList_threeParts, takeWhile_line hfirst, String.ofList_toList]

theorem lastLine_threeParts (hlast : '\n' ∉ last.toList) :
    lastLine ("\n".intercalate [first, middle, last]) = last := by
  have hreverse : ("\n".intercalate [first, middle, last]).toList.reverse =
      last.toList.reverse ++ '\n' :: (middle.toList.reverse ++ '\n' :: first.toList.reverse) := by
    simp
  rw [lastLine, hreverse, takeWhile_line (by simpa using hlast), List.reverse_reverse,
    String.ofList_toList]

theorem betweenLineEnds_threeParts (hfirst : '\n' ∉ first.toList)
    (hlast : '\n' ∉ last.toList) :
    betweenLineEnds ("\n".intercalate [first, middle, last]) = middle := by
  have hreverse : (middle.toList ++ '\n' :: last.toList).reverse =
      last.toList.reverse ++ '\n' :: middle.toList.reverse := by
    simp
  rw [betweenLineEnds, toList_threeParts]
  simp only [tail_dropWhile_line hfirst]
  rw [hreverse, tail_dropWhile_line (by simpa using hlast), List.reverse_reverse,
    String.ofList_toList]

/-- The first and the last line are lines of their own. -/
theorem length_lines_threeParts (hfirst : '\n' ∉ first.toList) (hlast : '\n' ∉ last.toList) :
    (lines ("\n".intercalate [first, middle, last])).length =
      middle.toList.count '\n' + 3 := by
  rw [length_lines, toList_threeParts, List.count_append, List.count_cons_self, List.count_append,
    List.count_cons_self, List.count_eq_zero_of_not_mem hfirst,
    List.count_eq_zero_of_not_mem hlast]
  omega

end

end Dispatch
