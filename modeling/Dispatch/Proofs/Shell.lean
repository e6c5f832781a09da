import Dispatch.Command
import Mathlib.Tactic.Common

/-!
# How a shell reads a line

A shell splits a line into words at blanks and line ends that stand outside of quotes.
Between single quotes every character means itself; between double quotes a backslash and
what begins an expansion do not.  Quotes are taken away, and parts that no blank separates
make one word.  `Shell.words` splits a line by these rules.  It gives no answer where a quote
is left open, or where a character stands unquoted that asks for more than words.

A line that a command is written as is split into the words of the command.  Outside of
quotes it holds nothing but safe characters, and a space between the words.
-/

namespace Dispatch

namespace Shell

/-- Where in its quotes a reader is. -/
inductive Quoting
  | outside
  /-- Behind a backslash. -/
  | escaped
  | single
  | double
  /-- Behind a backslash between double quotes. -/
  | doubleEscaped
deriving DecidableEq

/-- What a character does to the words of a line. -/
inductive Effect
  /-- It ends a word. -/
  | separates
  /-- It stands for so many letters of a word, at times for none. -/
  | adds (letters : List Char)
  | vanishes
  /-- It asks for an expansion, a redirection, a comment or an operator. -/
  | acts

/-- The characters that separate words. -/
def blanks : List Char :=
  [' ', '\t', '\n']

/-- The characters that can ask for more than words when they are not quoted. -/
def specials : List Char :=
  "|&;<>()$\x60*?[#~!\x7b\x7d".toList

namespace Quoting

/-- Where the reader is after a character. -/
def next (quoting : Quoting) (c : Char) : Quoting :=
  match quoting with
  | .outside =>
    if c = '\x27' then .single
    else if c = '\x22' then .double
    else if c = '\\' then .escaped
    else .outside
  | .escaped => .outside
  | .single => if c = '\x27' then .outside else .single
  | .double =>
    if c = '\x22' then .outside else if c = '\\' then .doubleEscaped else .double
  | .doubleEscaped => .double

/-- What a character does where the reader is. -/
def effect (quoting : Quoting) (c : Char) : Effect :=
  match quoting with
  | .outside =>
    if c ∈ blanks then .separates
    else if c = '\x27' ∨ c = '\x22' then .adds []
    else if c = '\\' then .vanishes
    else if c ∈ specials then .acts
    else .adds [c]
  | .escaped => if c = '\n' then .vanishes else .adds [c]
  | .single => if c = '\x27' then .adds [] else .adds [c]
  | .double =>
    if c = '\x22' then .adds []
    else if c = '\\' then .vanishes
    else if c = '$' ∨ c = '\x60' then .acts
    else .adds [c]
  | .doubleEscaped =>
    if c = '\n' then .vanishes
    else if c ∈ ['$', '\x60', '\x22', '\\'] then .adds [c]
    else .adds ['\\', c]

end Quoting

/-- The words in a text, the one that was begun included, if it was. -/
def split (quoting : Quoting) (begun : Option (List Char)) :
    List Char → Option (List (List Char))
  | [] => if quoting = .outside then some begun.toList else none
  | c :: cs =>
    match quoting.effect c with
    | .separates => (split (quoting.next c) none cs).map (begun.toList ++ ·)
    | .adds letters => split (quoting.next c) (some (begun.getD [] ++ letters)) cs
    | .vanishes => split (quoting.next c) begun cs
    | .acts => none

/-- The words of a line. -/
def words (line : String) : Option (List String) :=
  (split .outside none line.toList).map (·.map .ofList)

/-- The characters of a text outside of quotes, the quotes themselves left out. -/
def unquoted (quoting : Quoting) : List Char → List Char
  | [] => []
  | c :: cs =>
    if quoting = .outside ∧ c ≠ '\x27' ∧ c ≠ '\x22' then c :: unquoted (quoting.next c) cs
    else unquoted (quoting.next c) cs

end Shell

namespace Command

open Shell

/-! ## Safe characters -/

section

variable {c : Char} {cs : List Char}

/-- A safe character is none of those that mean something to a shell. -/
theorem ne_of_isSafe (hc : isSafe c = true) :
    ∀ d ∈ blanks ++ ['\x27', '\x22', '\\'] ++ specials, c ≠ d := by
  have hnone : (blanks ++ ['\x27', '\x22', '\\'] ++ specials).all (!isSafe ·) = true := by
    decide
  have hspecial : ∀ d ∈ blanks ++ ['\x27', '\x22', '\\'] ++ specials, isSafe d = false := by
    simpa only [List.all_eq_true, Bool.not_eq_true'] using hnone
  rintro d hd rfl
  rw [hspecial c hd] at hc
  cases hc

theorem outside_of_isSafe (hc : isSafe c = true) :
    Quoting.outside.effect c = .adds [c] ∧ Quoting.outside.next c = .outside ∧
      c ≠ '\x27' ∧ c ≠ '\x22' := by
  have hne := ne_of_isSafe hc
  have hblank : c ∉ blanks := fun h => hne c (by simp [h]) rfl
  have hspecial : c ∉ specials := fun h => hne c (by simp [h]) rfl
  have hsingle : c ≠ '\x27' := hne _ (by simp)
  have hdouble : c ≠ '\x22' := hne _ (by simp)
  have hbackslash : c ≠ '\\' := hne _ (by simp)
  refine ⟨?_, ?_, hsingle, hdouble⟩
  · simp [Quoting.effect, hblank, hspecial, hsingle, hdouble, hbackslash]
  · simp [Quoting.next, hsingle, hdouble, hbackslash]

/-- Safe characters are letters of the word that they stand in. -/
theorem split_safe (hcs : ∀ c ∈ cs, isSafe c = true) (word rest : List Char) :
    split .outside (some word) (cs ++ rest) = split .outside (some (word ++ cs)) rest := by
  induction cs generalizing word with
  | nil => simp
  | cons c cs ih =>
      obtain ⟨hc, hcs⟩ := List.forall_mem_cons.mp hcs
      obtain ⟨heffect, hnext, -⟩ := outside_of_isSafe hc
      rw [List.cons_append, split, heffect, hnext]
      simp only [Option.getD_some]
      rw [ih hcs, List.append_assoc, List.singleton_append]

theorem unquoted_safe (hcs : ∀ c ∈ cs, isSafe c = true) (rest : List Char) :
    unquoted .outside (cs ++ rest) = cs ++ unquoted .outside rest := by
  induction cs with
  | nil => rfl
  | cons c cs ih =>
      obtain ⟨hc, hcs⟩ := List.forall_mem_cons.mp hcs
      obtain ⟨-, hnext, hsingle, hdouble⟩ := outside_of_isSafe hc
      rw [List.cons_append, unquoted, if_pos ⟨rfl, hsingle, hdouble⟩, hnext, ih hcs,
        List.cons_append]

end

/-! ## Quoted words -/

section

variable (cs rest : List Char)

/-- A character between single quotes; a single quote has to leave them. -/
def quotedChar (c : Char) : List Char :=
  if c = '\x27' then ['\x27', '\x22', '\x27', '\x22', '\x27'] else [c]

theorem quotedWord_append :
    quotedWord cs ++ rest = '\x27' :: (cs.flatMap quotedChar ++ '\x27' :: rest) := by
  rw [quotedWord, List.append_assoc]
  rfl

/-- A single quote closes its word's quotes, is quoted doubly, and opens them again. -/
theorem split_quotedChar (c : Char) (word : List Char) :
    split .single (some word) (quotedChar c ++ rest) =
      split .single (some (word ++ [c])) rest := by
  by_cases hc : c = '\x27'
  · subst hc
    simp [quotedChar, split, Quoting.effect, Quoting.next, blanks]
  · simp [quotedChar, split, Quoting.effect, Quoting.next, hc]

theorem unquoted_quotedChar (c : Char) :
    unquoted .single (quotedChar c ++ rest) = unquoted .single rest := by
  by_cases hc : c = '\x27'
  · subst hc
    simp [quotedChar, unquoted, Quoting.next]
  · simp [quotedChar, unquoted, Quoting.next, hc]

theorem split_flatMap_quotedChar (word : List Char) :
    split .single (some word) (cs.flatMap quotedChar ++ rest) =
      split .single (some (word ++ cs)) rest := by
  induction cs generalizing word with
  | nil => simp
  | cons c cs ih =>
      rw [List.flatMap_cons, List.append_assoc, split_quotedChar, ih, List.append_assoc,
        List.singleton_append]

theorem unquoted_flatMap_quotedChar :
    unquoted .single (cs.flatMap quotedChar ++ rest) = unquoted .single rest := by
  induction cs with
  | nil => rfl
  | cons c cs ih => rw [List.flatMap_cons, List.append_assoc, unquoted_quotedChar, ih]

/-- Quotes are taken away from a quoted word. -/
theorem split_quotedWord :
    split .outside none (quotedWord cs ++ rest) = split .outside (some cs) rest := by
  have hopen : split .outside none (quotedWord cs ++ rest) =
      split .single (some []) (cs.flatMap quotedChar ++ '\x27' :: rest) := by
    rw [quotedWord_append]
    simp [split, Quoting.effect, Quoting.next, blanks]
  rw [hopen, split_flatMap_quotedChar]
  simp [split, Quoting.effect, Quoting.next]

theorem unquoted_quotedWord :
    unquoted .outside (quotedWord cs ++ rest) = unquoted .outside rest := by
  have hopen : unquoted .outside (quotedWord cs ++ rest) =
      unquoted .single (cs.flatMap quotedChar ++ '\x27' :: rest) := by
    rw [quotedWord_append]
    simp [unquoted, Quoting.next]
  rw [hopen, unquoted_flatMap_quotedChar]
  simp [unquoted, Quoting.next]

/-! ## Words -/

theorem split_wordChars :
    split .outside none (wordChars cs ++ rest) = split .outside (some cs) rest := by
  rw [wordChars]
  split_ifs with hsafe
  · obtain ⟨hne, hall⟩ := hsafe
    obtain ⟨c, cs, rfl⟩ := List.exists_cons_of_ne_nil hne
    rw [List.all_eq_true, List.forall_mem_cons] at hall
    obtain ⟨heffect, hnext, -⟩ := outside_of_isSafe hall.1
    rw [List.cons_append, split, heffect, hnext]
    exact split_safe hall.2 [c] rest
  · exact split_quotedWord cs rest

/-- What a word shows outside of quotes is safe. -/
theorem exists_unquoted_wordChars :
    ∃ shown, (∀ c ∈ shown, isSafe c = true) ∧
      unquoted .outside (wordChars cs ++ rest) = shown ++ unquoted .outside rest := by
  rw [wordChars]
  split_ifs with hsafe
  · have hall := List.all_eq_true.mp hsafe.2
    exact ⟨cs, hall, unquoted_safe hall rest⟩
  · exact ⟨[], by simp, unquoted_quotedWord cs rest⟩

end

/-! ## Lines -/

/-- The characters of a line. -/
def lineChars (words : List (List Char)) : List Char :=
  List.intercalate [' '] (words.map wordChars)

theorem toList_line (command : Command) :
    (line command).toList = lineChars (command.map String.toList) := by
  rw [line, String.toList_intercalate, lineChars, List.map_map, List.map_map]
  congr 1
  apply List.map_congr_left
  intro word _
  simp [quote]

theorem lineChars_cons_cons (first second : List Char) (words : List (List Char)) :
    lineChars (first :: second :: words) =
      wordChars first ++ ' ' :: lineChars (second :: words) := by
  simp [lineChars, List.intercalate_cons_cons]

/-- A line is split into the words that it was written for. -/
theorem split_lineChars (words : List (List Char)) :
    split .outside none (lineChars words) = some words := by
  induction words with
  | nil => rfl
  | cons first words ih =>
      cases words with
      | nil =>
          have hread := split_wordChars first []
          rw [List.append_nil] at hread
          simpa [lineChars, split] using hread
      | cons second words =>
          rw [lineChars_cons_cons, split_wordChars, split]
          simp [Quoting.effect, Quoting.next, blanks, ih]

theorem mem_unquoted_lineChars (words : List (List Char)) :
    ∀ c ∈ unquoted .outside (lineChars words), c = ' ' ∨ isSafe c = true := by
  induction words with
  | nil => simp [lineChars, unquoted]
  | cons first words ih =>
      cases words with
      | nil =>
          obtain ⟨shown, hshown, hread⟩ := exists_unquoted_wordChars first []
          rw [List.append_nil, unquoted, List.append_nil] at hread
          simp only [lineChars, List.map_cons, List.map_nil, List.intercalate_singleton, hread]
          exact fun c hc => Or.inr (hshown c hc)
      | cons second words =>
          obtain ⟨shown, hshown, hread⟩ :=
            exists_unquoted_wordChars first (' ' :: lineChars (second :: words))
          rw [lineChars_cons_cons, hread, unquoted, if_pos (by simp)]
          intro c hc
          rcases List.mem_append.mp hc with hc | hc
          · exact Or.inr (hshown c hc)
          rcases List.mem_cons.mp hc with rfl | hc
          · exact Or.inl rfl
          · exact ih c hc

/-! ## Characters of a line -/

section

variable {c : Char} (hsingle : c ≠ '\x27') (hdouble : c ≠ '\x22')

include hsingle hdouble

/-- Quoting a word adds nothing to it but quotes. -/
theorem mem_wordChars_iff (cs : List Char) : c ∈ wordChars cs ↔ c ∈ cs := by
  have hquoted (d : Char) : c ∈ quotedChar d ↔ c = d := by
    rw [quotedChar]
    split_ifs with hd
    · simp [hd, hsingle, hdouble]
    · exact List.mem_singleton
  rw [wordChars]
  split_ifs with hsafe
  · exact Iff.rfl
  · have hword := quotedWord_append cs []
    rw [List.append_nil] at hword
    simp [hword, hsingle, hquoted]

/-- A line adds nothing to its words but quotes and spaces. -/
theorem mem_lineChars_iff (hspace : c ≠ ' ') (words : List (List Char)) :
    c ∈ lineChars words ↔ ∃ word ∈ words, c ∈ word := by
  induction words with
  | nil => simp [lineChars]
  | cons first words ih =>
      cases words with
      | nil => simp [lineChars, mem_wordChars_iff hsingle hdouble]
      | cons second words =>
          rw [lineChars_cons_cons, List.mem_append, List.mem_cons, ih,
            mem_wordChars_iff hsingle hdouble]
          simp [hspace]

theorem mem_line_iff (hspace : c ≠ ' ') (command : Command) :
    c ∈ (line command).toList ↔ ∃ word ∈ command, c ∈ word.toList := by
  rw [toList_line, mem_lineChars_iff hsingle hdouble hspace]
  simp

end

theorem words_line (command : Command) : words (line command) = some command := by
  rw [words, toList_line, split_lineChars, Option.map_some, List.map_map]
  simp [Function.comp_def]

/--
A shell reads the words of a command from its line, and finds nothing outside of quotes but
spaces, letters, digits and some marks that mean nothing to it.  So no two commands have the
same line.
-/
theorem line_is_read_back :
    (∀ command, words (line command) = some command ∧
      ∀ c ∈ unquoted .outside (line command).toList,
        c = ' ' ∨ c.isAlphanum = true ∨ c ∈ "_@%+=:,./-".toList) ∧
    Function.Injective line := by
  refine ⟨fun command => ⟨words_line command, fun c hc => ?_⟩, fun command other hline => ?_⟩
  · rw [toList_line] at hc
    have hshown := mem_unquoted_lineChars _ c hc
    rwa [isSafe, Bool.or_eq_true, List.contains_iff_mem] at hshown
  · have hwords := words_line command
    rw [hline, words_line other] at hwords
    exact (Option.some.inj hwords).symm

example :
    words "sim  --title=a\\ b \x27it\x27\x22\x27s\x22 \x27\x27" =
      some ["sim", "--title=a b", "it\x27s", ""] := by
  decide +kernel

end Command

end Dispatch
