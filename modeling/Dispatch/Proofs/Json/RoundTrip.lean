import Dispatch.Proofs.Dict
import Dispatch.Proofs.Json.Numbers
import Dispatch.Proofs.Json.Texts

/-!
# Documents are read as they were written

`Value.IsDocument` says what a document can hold as it is.  Such a value is read
back from its text in any legible style, with blanks behind it.

The reader is bounded by a count.  The length of the text is enough for it: every
nested call has at least one character less in front of it.
-/

namespace Dispatch

/-- What a document can hold as it is. -/
inductive Value.IsDocument : Value → Prop
  | null : IsDocument .null
  | bool (value : Bool) : IsDocument (.bool value)
  | number {x : Number} (hx : x.serial? = some x) : IsDocument (.number x)
  | text (s : String) : IsDocument (.text s)
  | list {items : List Value} (hitems : ∀ item ∈ items, IsDocument item) :
      IsDocument (.list items)
  | table {members : Dict Value} (hordered : members.IsOrdered)
      (hmembers : ∀ entry ∈ members, IsDocument entry.2) : IsDocument (.table members)

namespace Json

/-- A style with nothing but blanks between the parts of a document. -/
structure Style.IsLegible (style : Style) : Prop where
  lineBreak : ∀ depth, ∀ c ∈ style.lineBreak depth, isSpace c = true
  colon : ∃ blanks, style.colon = ':' :: blanks ∧ ∀ c ∈ blanks, isSpace c = true

theorem Style.isLegible_compact : Style.compact.IsLegible where
  lineBreak := by simp [Style.compact]
  colon := ⟨[], rfl, by simp⟩

theorem Style.isLegible_indented : Style.indented.IsLegible where
  lineBreak := by
    intro depth c hc
    rcases List.mem_cons.mp hc with rfl | hc
    · rfl
    · rw [List.eq_of_mem_replicate hc]
      rfl
  colon := ⟨[' '], rfl, by simp [isSpace]⟩

/-! ## Blanks -/

theorem skipSpace_append {blanks : List Char} (hblanks : ∀ c ∈ blanks, isSpace c = true)
    (cs : List Char) : skipSpace (blanks ++ cs) = skipSpace cs :=
  List.dropWhile_append_of_pos hblanks

theorem skipSpace_cons {c : Char} (hc : isSpace c = false) (cs : List Char) :
    skipSpace (c :: cs) = c :: cs :=
  List.dropWhile_cons_of_neg (by simp [hc])

theorem skipSpace_eq_nil {blanks : List Char} (hblanks : ∀ c ∈ blanks, isSpace c = true) :
    skipSpace blanks = [] :=
  List.dropWhile_eq_nil_iff.mpr hblanks

theorem readValue_blanks {blanks : List Char} (hblanks : ∀ c ∈ blanks, isSpace c = true)
    (fuel : Nat) (cs : List Char) : readValue fuel (blanks ++ cs) = readValue fuel cs := by
  cases fuel with
  | zero => rfl
  | succ fuel => rw [readValue, readValue, skipSpace_append hblanks]

theorem readItems_blanks {blanks : List Char} (hblanks : ∀ c ∈ blanks, isSpace c = true)
    (fuel : Nat) (cs : List Char) : readItems fuel (blanks ++ cs) = readItems fuel cs := by
  cases fuel with
  | zero => rfl
  | succ fuel => rw [readItems, readItems, readValue_blanks hblanks]

theorem readMembers_blanks {blanks : List Char} (hblanks : ∀ c ∈ blanks, isSpace c = true)
    (fuel : Nat) (cs : List Char) : readMembers fuel (blanks ++ cs) = readMembers fuel cs := by
  cases fuel with
  | zero => rfl
  | succ fuel => rw [readMembers, readMembers, skipSpace_append hblanks]

theorem endsNumber_of_isSpace {c : Char} (hc : isSpace c = true) (rest : List Char) :
    EndsNumber (c :: rest) := by
  simp only [isSpace, Bool.or_eq_true, beq_iff_eq] at hc
  rw [endsNumber_cons]
  rcases hc with ((rfl | rfl) | rfl) | rfl <;> decide

theorem endsNumber_blanks {blanks : List Char} (hblanks : ∀ c ∈ blanks, isSpace c = true)
    {rest : List Char} (hrest : EndsNumber rest) : EndsNumber (blanks ++ rest) := by
  cases blanks with
  | nil => exact hrest
  | cons c blanks => exact endsNumber_of_isSpace (hblanks c (by simp)) _

/-! ## The first character of a value -/

/-- The characters that a value can begin with. -/
def BeginsValue (c : Char) : Prop :=
  c = 'n' ∨ c = 't' ∨ c = 'f' ∨ c = '\x22' ∨ c = '[' ∨ c = '\x7b' ∨ c = '-' ∨ c.isDigit = true

theorem BeginsValue.isSpace_eq_false {c : Char} (h : BeginsValue c) : isSpace c = false := by
  cases hspace : isSpace c with
  | false => rfl
  | true =>
      simp only [isSpace, Bool.or_eq_true, beq_iff_eq] at hspace
      rcases hspace with ((rfl | rfl) | rfl) | rfl <;> simp [BeginsValue] at h

theorem BeginsValue.ne_bracket {c : Char} (h : BeginsValue c) : c ≠ ']' := by
  rintro rfl
  simp [BeginsValue] at h

theorem chars_number_eq_cons {x : Number} (hx : x.serial? = some x) :
    ∃ c more, x.chars = c :: more ∧ (c = '-' ∨ c.isDigit = true) := by
  have hread : readNumber (x.chars ++ []) = some (x, []) := readNumber_chars hx endsNumber_nil
  rw [List.append_nil] at hread
  exact head?_of_readNumber hread

theorem chars_eq_cons {v : Value} (hv : v.IsDocument) (style : Style) (depth : Nat) :
    ∃ c more, chars style depth v = c :: more ∧ BeginsValue c := by
  cases hv with
  | null => exact ⟨'n', "ull".toList, rfl, by simp [BeginsValue]⟩
  | bool value =>
      cases value with
      | false => exact ⟨'f', "alse".toList, rfl, by simp [BeginsValue]⟩
      | true => exact ⟨'t', "rue".toList, rfl, by simp [BeginsValue]⟩
  | number hx =>
      obtain ⟨c, more, hchars, hc⟩ := chars_number_eq_cons hx
      refine ⟨c, more, by rw [chars, hchars], ?_⟩
      rcases hc with rfl | hc
      · simp [BeginsValue]
      · simp [BeginsValue, hc]
  | text s => exact ⟨'\x22', _, rfl, by simp [BeginsValue]⟩
  | @list items _ =>
      cases items with
      | nil => exact ⟨'[', _, rfl, by simp [BeginsValue]⟩
      | cons item rest => exact ⟨'[', _, rfl, by simp [BeginsValue]⟩
  | @table members _ _ =>
      cases members with
      | nil => exact ⟨'\x7b', _, rfl, by simp [BeginsValue]⟩
      | cons entry rest => exact ⟨'\x7b', _, rfl, by simp [BeginsValue]⟩

/-! ## Reading back -/

/-- A value is read back from its text wherever the text stands, if the count is enough. -/
def ReadsBack (style : Style) (v : Value) : Prop :=
  ∀ fuel depth rest, (chars style depth v).length ≤ fuel → EndsNumber rest →
    readValue fuel (chars style depth v ++ rest) = some (v, rest)

theorem readsBack_number {style : Style} {x : Number} (hx : x.serial? = some x) :
    ReadsBack style (.number x) := by
  intro fuel depth rest hfuel hrest
  obtain ⟨c, more, hchars, hc⟩ := chars_number_eq_cons hx
  have hcons : chars style depth (.number x) = c :: more := by rw [chars, hchars]
  obtain ⟨fuel, rfl⟩ : ∃ n, fuel = n + 1 := ⟨fuel - 1, by simp [hcons] at hfuel; omega⟩
  have hspace : isSpace c = false :=
    BeginsValue.isSpace_eq_false (by rcases hc with rfl | hc <;> simp [BeginsValue, *])
  have hread := readNumber_chars hx hrest
  rw [hchars] at hread
  rw [hcons, readValue, List.cons_append, skipSpace_cons hspace]
  -- Neither a sign nor a digit begins any other kind of value.
  split
  next heq => simp [(List.cons.inj heq).1] at hc
  next heq => simp [(List.cons.inj heq).1] at hc
  next heq => simp [(List.cons.inj heq).1] at hc
  next heq => simp [(List.cons.inj heq).1] at hc
  next heq => simp [(List.cons.inj heq).1] at hc
  next heq => simp [(List.cons.inj heq).1] at hc
  next =>
    rw [← List.cons_append, hread]
    rfl

/-- A quoted text has no blanks in front of its parts. -/
theorem skipSpace_quotedChars (s : String) (rest : List Char) :
    skipSpace (quotedChars s ++ rest) =
      '\x22' :: ((Text.points (textUnits s)).flatMap escapePoint ++ '\x22' :: rest) := by
  simp only [quotedChars, List.append_assoc, List.cons_append, List.nil_append]
  exact skipSpace_cons (by decide) _

theorem readsBack_text {style : Style} (s : String) : ReadsBack style (.text s) := by
  intro fuel depth rest hfuel _
  obtain ⟨fuel, rfl⟩ : ∃ n, fuel = n + 1 :=
    ⟨fuel - 1, by simp [chars, quotedChars] at hfuel; omega⟩
  rw [readValue, chars]
  simp only [skipSpace_quotedChars, readText_quoted, Option.map_some, ofUnits_textUnits]

section

variable {style : Style} (hs : style.IsLegible)

include hs

theorem endsNumber_itemsChars (depth : Nat) (items : List Value) (rest : List Char) :
    EndsNumber (itemsChars style depth items ++ rest) := by
  cases items with
  | nil =>
      rw [itemsChars, List.append_assoc]
      exact endsNumber_blanks (hs.lineBreak depth) (endsNumber_cons.mpr (by decide))
  | cons item items =>
      simp only [itemsChars, List.cons_append]
      exact endsNumber_cons.mpr (by decide)

theorem endsNumber_membersChars (depth : Nat) (members : List (String × Value))
    (rest : List Char) : EndsNumber (membersChars style depth members ++ rest) := by
  cases members with
  | nil =>
      rw [membersChars, List.append_assoc]
      exact endsNumber_blanks (hs.lineBreak depth) (endsNumber_cons.mpr (by decide))
  | cons entry members =>
      obtain ⟨name, value⟩ := entry
      simp only [membersChars, List.cons_append]
      exact endsNumber_cons.mpr (by decide)

/-- Items that are read back one by one are read back together. -/
theorem readItems_itemsChars {items : List Value} (hitems : ∀ item ∈ items, ReadsBack style item)
    {first : Value} (hfirst : ReadsBack style first) (fuel depth : Nat)
    (rest : List Char) (hfuel : (chars style (depth + 1) first).length +
      (itemsChars style depth items).length ≤ fuel) :
    readItems fuel (chars style (depth + 1) first ++ (itemsChars style depth items ++ rest)) =
      some (first :: items, rest) := by
  induction items generalizing first fuel with
  | nil =>
      have hlength : 0 < (itemsChars style depth []).length := by simp [itemsChars]
      obtain ⟨fuel, rfl⟩ : ∃ n, fuel = n + 1 := ⟨fuel - 1, by omega⟩
      have hread := hfirst fuel (depth + 1) (itemsChars style depth [] ++ rest) (by omega)
        (endsNumber_itemsChars hs depth [] rest)
      have hend : skipSpace (itemsChars style depth [] ++ rest) = ']' :: rest := by
        rw [itemsChars, List.append_assoc, skipSpace_append (hs.lineBreak depth)]
        exact skipSpace_cons (by decide) rest
      rw [readItems, hread]
      simp only [hend]
  | cons item items ih =>
      have hlength : (itemsChars style depth (item :: items)).length =
          (style.lineBreak (depth + 1)).length + (chars style (depth + 1) item).length +
            (itemsChars style depth items).length + 1 := by
        simp only [itemsChars, List.length_append, List.length_cons]
        omega
      obtain ⟨fuel, rfl⟩ : ∃ n, fuel = n + 1 := ⟨fuel - 1, by omega⟩
      have hread := hfirst fuel (depth + 1) (itemsChars style depth (item :: items) ++ rest)
        (by omega) (endsNumber_itemsChars hs depth (item :: items) rest)
      have hmore := ih (fun i hi => hitems i (List.mem_cons_of_mem _ hi)) (hitems item (by simp))
        fuel (by omega)
      have hnext : skipSpace (itemsChars style depth (item :: items) ++ rest) =
          ',' :: (style.lineBreak (depth + 1) ++ (chars style (depth + 1) item ++
            (itemsChars style depth items ++ rest))) := by
        simp only [itemsChars, List.append_assoc, List.cons_append]
        exact skipSpace_cons (by decide) _
      rw [readItems, hread]
      simp only [hnext, readItems_blanks (hs.lineBreak (depth + 1)), hmore, Option.map_some]

section

variable {fuel depth : Nat} {name : String} {value : Value} {rest more : List Char}

theorem readValue_colon (hvalue : ReadsBack style value)
    (hfuel : (chars style (depth + 1) value).length ≤ fuel) (hrest : EndsNumber rest) :
    ∃ cs, style.colon ++ (chars style (depth + 1) value ++ rest) = ':' :: cs ∧
      readValue fuel cs = some (value, rest) := by
  obtain ⟨blanks, hcolon, hblanks⟩ := hs.colon
  refine ⟨blanks ++ (chars style (depth + 1) value ++ rest), by rw [hcolon]; rfl, ?_⟩
  rw [readValue_blanks hblanks]
  exact hvalue fuel (depth + 1) rest hfuel hrest

/-- A member with another behind it. -/
theorem readMembers_comma (hvalue : ReadsBack style value)
    (hfuel : (chars style (depth + 1) value).length ≤ fuel) (hrest : EndsNumber rest)
    (hmore : skipSpace rest = ',' :: more) :
    readMembers (fuel + 1) (quotedChars name ++ (style.colon ++
        (chars style (depth + 1) value ++ rest))) =
      (readMembers fuel more).map fun read => ((name, value) :: read.1, read.2) := by
  obtain ⟨cs, hcolon, hread⟩ := readValue_colon hs hvalue hfuel hrest
  rw [readMembers]
  simp only [skipSpace_quotedChars, readText_quoted, hcolon,
    skipSpace_cons (show isSpace ':' = false by decide), hread, hmore, ofUnits_textUnits]

/-- The last member. -/
theorem readMembers_brace (hvalue : ReadsBack style value)
    (hfuel : (chars style (depth + 1) value).length ≤ fuel) (hrest : EndsNumber rest)
    (hmore : skipSpace rest = '\x7d' :: more) :
    readMembers (fuel + 1) (quotedChars name ++ (style.colon ++
        (chars style (depth + 1) value ++ rest))) = some ([(name, value)], more) := by
  obtain ⟨cs, hcolon, hread⟩ := readValue_colon hs hvalue hfuel hrest
  rw [readMembers]
  simp only [skipSpace_quotedChars, readText_quoted, hcolon,
    skipSpace_cons (show isSpace ':' = false by decide), hread, hmore, ofUnits_textUnits]

end

/-- Members whose values are read back one by one are read back together. -/
theorem readMembers_membersChars {members : List (String × Value)}
    (hmembers : ∀ entry ∈ members, ReadsBack style entry.2)
    (name : String) {value : Value} (hvalue : ReadsBack style value) (fuel depth : Nat)
    (rest : List Char)
    (hfuel : (chars style (depth + 1) value).length +
      (membersChars style depth members).length ≤ fuel) :
    readMembers fuel (quotedChars name ++ (style.colon ++ (chars style (depth + 1) value ++
      (membersChars style depth members ++ rest)))) = some ((name, value) :: members, rest) := by
  induction members generalizing name value fuel with
  | nil =>
      have hlength : 0 < (membersChars style depth []).length := by simp [membersChars]
      obtain ⟨fuel, rfl⟩ : ∃ n, fuel = n + 1 := ⟨fuel - 1, by omega⟩
      have hend : skipSpace (membersChars style depth [] ++ rest) = '\x7d' :: rest := by
        rw [membersChars, List.append_assoc, skipSpace_append (hs.lineBreak depth)]
        exact skipSpace_cons (by decide) rest
      exact readMembers_brace hs hvalue (by omega) (endsNumber_membersChars hs depth [] rest) hend
  | cons entry members ih =>
      obtain ⟨name', value'⟩ := entry
      have hlength : (membersChars style depth ((name', value') :: members)).length =
          (style.lineBreak (depth + 1)).length + (quotedChars name').length +
            style.colon.length + (chars style (depth + 1) value').length +
            (membersChars style depth members).length + 1 := by
        simp only [membersChars, List.length_append, List.length_cons]
        omega
      obtain ⟨fuel, rfl⟩ : ∃ n, fuel = n + 1 := ⟨fuel - 1, by omega⟩
      have hmore := ih (fun e he => hmembers e (List.mem_cons_of_mem _ he)) name'
        (hmembers (name', value') (by simp)) fuel (by simp only; omega)
      have hnext : skipSpace (membersChars style depth ((name', value') :: members) ++ rest) =
          ',' :: (style.lineBreak (depth + 1) ++ (quotedChars name' ++ (style.colon ++
            (chars style (depth + 1) value' ++ (membersChars style depth members ++ rest))))) := by
        simp only [membersChars, List.append_assoc, List.cons_append]
        exact skipSpace_cons (by decide) _
      rw [readMembers_comma hs hvalue (by omega)
        (endsNumber_membersChars hs depth ((name', value') :: members) rest) hnext]
      simp only [readMembers_blanks (hs.lineBreak (depth + 1)), hmore, Option.map_some]

theorem readsBack_list {items : List Value} (hitems : ∀ item ∈ items, item.IsDocument)
    (hback : ∀ item ∈ items, ReadsBack style item) : ReadsBack style (.list items) := by
  intro fuel depth rest hfuel _
  obtain ⟨fuel, rfl⟩ : ∃ n, fuel = n + 1 :=
    ⟨fuel - 1, by cases items <;> simp [chars] at hfuel <;> omega⟩
  cases items with
  | nil => rfl
  | cons item items =>
      obtain ⟨c, more, hchars, hc⟩ := chars_eq_cons (hitems item (by simp)) style (depth + 1)
      have hread := readItems_itemsChars hs (fun i hi => hback i (List.mem_cons_of_mem _ hi))
        (hback item (by simp)) fuel depth rest (by simp [chars] at hfuel; omega)
      have hopen : skipSpace (chars style depth (.list (item :: items)) ++ rest) =
          '[' :: (style.lineBreak (depth + 1) ++ (chars style (depth + 1) item ++
            (itemsChars style depth items ++ rest))) := by
        simp only [chars, List.append_assoc, List.cons_append]
        exact skipSpace_cons (by decide) _
      rw [hchars, List.cons_append] at hread
      rw [readValue]
      simp only [hopen, skipSpace_append (hs.lineBreak (depth + 1)), hchars,
        List.cons_append, skipSpace_cons hc.isSpace_eq_false]
      split
      next heq => exact absurd (List.cons.inj heq).1 hc.ne_bracket
      next => rw [hread]; rfl

theorem readsBack_table {members : Dict Value} (hordered : members.IsOrdered)
    (hback : ∀ entry ∈ members, ReadsBack style entry.2) : ReadsBack style (.table members) := by
  intro fuel depth rest hfuel _
  obtain ⟨fuel, rfl⟩ : ∃ n, fuel = n + 1 :=
    ⟨fuel - 1, by cases members <;> simp [chars] at hfuel <;> omega⟩
  cases members with
  | nil => rfl
  | cons entry members =>
      obtain ⟨name, value⟩ := entry
      have hread := readMembers_membersChars hs (fun e he => hback e (List.mem_cons_of_mem _ he))
        name (show ReadsBack style value from hback (name, value) (by simp)) fuel depth rest
        (by simp [chars] at hfuel; omega)
      have hopen : skipSpace (chars style depth (.table ((name, value) :: members)) ++ rest) =
          '\x7b' :: (style.lineBreak (depth + 1) ++ (quotedChars name ++ (style.colon ++
            (chars style (depth + 1) value ++
              (membersChars style depth members ++ rest))))) := by
        simp only [chars, List.append_assoc, List.cons_append]
        exact skipSpace_cons (by decide) _
      have hname : ∀ cs, skipSpace (quotedChars name ++ cs) = quotedChars name ++ cs :=
        fun cs => skipSpace_cons (by decide) _
      rw [readValue]
      simp only [hopen, skipSpace_append (hs.lineBreak (depth + 1)), hname]
      split
      next heq => simp [quotedChars] at heq
      next => simp only [hread, Option.map_some, Dict.ofList_eq_self hordered]

/-- What a document can hold is read back from its text. -/
theorem readsBack_of_isDocument {v : Value} (hv : v.IsDocument) : ReadsBack style v := by
  induction hv with
  | null =>
      intro fuel depth rest hfuel _
      obtain ⟨fuel, rfl⟩ : ∃ n, fuel = n + 1 := ⟨fuel - 1, by simp [chars] at hfuel; omega⟩
      rfl
  | bool value =>
      intro fuel depth rest hfuel _
      obtain ⟨fuel, rfl⟩ : ∃ n, fuel = n + 1 :=
        ⟨fuel - 1, by cases value <;> simp [chars] at hfuel <;> omega⟩
      cases value <;> rfl
  | number hx => exact readsBack_number hx
  | text s => exact readsBack_text s
  | list hitems ih => exact readsBack_list hs hitems ih
  | table hordered _ ih => exact readsBack_table hs hordered ih

/-- A document is read as it was written, with any blanks behind it. -/
theorem read?_print_blanks {v : Value} (hv : v.IsDocument) {blanks : List Char}
    (hblanks : ∀ c ∈ blanks, isSpace c = true) :
    read? (String.ofList (chars style 0 v ++ blanks)) = some v := by
  have hend : EndsNumber blanks := by
    simpa using endsNumber_blanks hblanks endsNumber_nil
  have hread := readsBack_of_isDocument hs hv ((chars style 0 v ++ blanks).length + 1) 0 blanks
    (by simp only [List.length_append]; omega) hend
  simp only [read?, String.toList_ofList, hread, skipSpace_eq_nil hblanks, if_true]

/-- A document is read as it was written. -/
theorem read?_print {v : Value} (hv : v.IsDocument) : read? (print style v) = some v := by
  simpa [print] using read?_print_blanks hs hv (List.forall_mem_nil _)

end

end Json

end Dispatch
