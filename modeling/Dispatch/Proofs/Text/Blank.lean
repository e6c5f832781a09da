import Dispatch.Text.Blank
import Mathlib.Tactic.Common

/-!
# Texts without blanks at their ends

Trimming leaves a text that neither begins nor ends with a blank, and leaves such a text as
it is.
-/

namespace Dispatch

/-- Characters of which neither the first nor the last is a blank. -/
structure IsTrimmed (cs : List Char) : Prop where
  first : ∀ c ∈ cs.head?, isBlank c = false
  last : ∀ c ∈ cs.getLast?, isBlank c = false

theorem isBlank_of_mem_head?_dropWhile {cs : List Char} {c : Char}
    (h : c ∈ (cs.dropWhile isBlank).head?) : isBlank c = false := by
  have hhead := List.head?_dropWhile_not isBlank cs
  rw [Option.mem_def.mp h] at hhead
  simpa using hhead

theorem dropWhile_isBlank_eq_self {cs : List Char} (h : ∀ c ∈ cs.head?, isBlank c = false) :
    cs.dropWhile isBlank = cs := by
  cases cs with
  | nil => rfl
  | cons c rest => rw [List.dropWhile_cons_of_neg (by simp [h c rfl])]

theorem isTrimmed_trimChars (cs : List Char) : IsTrimmed (trimChars cs) := by
  constructor
  · intro c hc
    -- What is left at the end begins where it began before the blanks at the end were dropped.
    obtain ⟨tail, htail⟩ : trimChars cs <+: cs.dropWhile isBlank := by
      have hsuffix := List.dropWhile_suffix isBlank (l := (cs.dropWhile isBlank).reverse)
      simpa [trimChars] using List.reverse_prefix.mpr hsuffix
    have hfirst : c ∈ (cs.dropWhile isBlank).head? := by
      rw [← htail, List.head?_append, Option.mem_def.mp hc]
      rfl
    exact isBlank_of_mem_head?_dropWhile hfirst
  · intro c hc
    rw [trimChars, List.getLast?_reverse] at hc
    exact isBlank_of_mem_head?_dropWhile hc

theorem IsTrimmed.trimChars_eq {cs : List Char} (h : IsTrimmed cs) : trimChars cs = cs := by
  have hlast : ∀ c ∈ cs.reverse.head?, isBlank c = false := by
    simpa using h.last
  rw [trimChars, dropWhile_isBlank_eq_self h.first, dropWhile_isBlank_eq_self hlast,
    List.reverse_reverse]

theorem isTrimmed_trim (s : String) : IsTrimmed (trim s).toList := by
  rw [trim, String.toList_ofList]
  exact isTrimmed_trimChars _

theorem trim_eq_self_iff {s : String} : trim s = s ↔ IsTrimmed s.toList := by
  constructor
  · intro h
    exact h ▸ isTrimmed_trim s
  · intro h
    rw [trim, h.trimChars_eq, String.ofList_toList]

end Dispatch
