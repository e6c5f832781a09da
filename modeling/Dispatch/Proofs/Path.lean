import Dispatch.Path
import Dispatch.Proofs.FileTree

/-!
# Names in paths

A text is split into exactly those of its parts that go from one separator to the next.
Resolving a path gives names that lead from a directory to something in it.  A path continued
by such a name ends in that name, whatever was in front.
-/

namespace Dispatch

/-! ## Splitting -/

section

variable {isSeparator : Char → Bool}

theorem splitCharsFrom_append {c : Char} (hc : isSeparator c = true)
    (current front back : List Char) :
    splitCharsFrom isSeparator current (front ++ c :: back) =
      splitCharsFrom isSeparator current front ++ splitCharsFrom isSeparator [] back := by
  induction front generalizing current with
  | nil => simp [splitCharsFrom, hc]
  | cons first rest ih =>
      rw [List.cons_append, splitCharsFrom, splitCharsFrom]
      cases isSeparator first with
      | true => simp [ih]
      | false => simp [ih]

theorem splitCharsFrom_eq_singleton {cs : List Char} (h : ∀ c ∈ cs, isSeparator c = false)
    (current : List Char) : splitCharsFrom isSeparator current cs = [current.reverse ++ cs] := by
  induction cs generalizing current with
  | nil => simp [splitCharsFrom]
  | cons first rest ih =>
      rw [splitCharsFrom, h first (by simp), if_neg Bool.false_ne_true,
        ih fun c hc => h c (List.mem_cons_of_mem _ hc)]
      simp

end

/-- A part of a text, which goes from an end or a separator to the next one. -/
structure IsPart (isSeparator : Char → Bool) (cs part : List Char) : Prop where
  plain : ∀ c ∈ part, isSeparator c = false
  between : ∃ front back, cs = front ++ part ++ back ∧
    (∀ c ∈ front.getLast?, isSeparator c = true) ∧ ∀ c ∈ back.head?, isSeparator c = true

section

variable {isSeparator : Char → Bool}

/-- What splitting gives after some characters is a part of the text with these in front. -/
theorem isPart_of_mem_splitCharsFrom {current cs part : List Char}
    (hcurrent : ∀ c ∈ current.reverse, isSeparator c = false)
    (h : part ∈ splitCharsFrom isSeparator current cs) :
    IsPart isSeparator (current.reverse ++ cs) part := by
  induction cs generalizing current with
  | nil =>
      rw [splitCharsFrom, List.mem_singleton] at h
      subst h
      exact ⟨hcurrent, [], [], by simp⟩
  | cons c rest ih =>
      rw [splitCharsFrom] at h
      split at h
      next hc =>
        rcases List.mem_cons.mp h with rfl | h
        · exact ⟨hcurrent, [], c :: rest, by simp [hc]⟩
        obtain ⟨hplain, front, back, hrest, hfront, hback⟩ := ih (by simp) h
        refine ⟨hplain, current.reverse ++ c :: front, back, ?_, ?_, hback⟩
        · simpa using hrest
        · intro d hd
          rw [List.getLast?_append, List.getLast?_cons] at hd
          cases hlast : front.getLast? with
          | none =>
              simp only [hlast, Option.getD_none, Option.some_or, Option.mem_some_iff] at hd
              rwa [← hd]
          | some last =>
              simp only [hlast, Option.getD_some, Option.some_or, Option.mem_some_iff] at hd
              exact hfront d (hd ▸ hlast)
      next hc =>
        have hmore : ∀ d ∈ (c :: current).reverse, isSeparator d = false := by
          rw [List.reverse_cons, List.forall_mem_append, List.forall_mem_singleton]
          exact ⟨hcurrent, Bool.eq_false_iff.mpr hc⟩
        simpa using ih hmore h

/-- Every part of a text is among those that splitting gives. -/
theorem IsPart.mem_splitCharsFrom {cs part : List Char} (h : IsPart isSeparator cs part) :
    part ∈ splitCharsFrom isSeparator [] cs := by
  obtain ⟨hplain, front, back, rfl, hfront, hback⟩ := h
  have hpart : part ∈ splitCharsFrom isSeparator [] (part ++ back) := by
    cases back with
    | nil => simp [splitCharsFrom_eq_singleton hplain]
    | cons c rest =>
        rw [splitCharsFrom_append (hback c rfl), splitCharsFrom_eq_singleton hplain]
        simp
  rw [List.append_assoc]
  rcases List.eq_nil_or_concat front with rfl | ⟨before, c, rfl⟩
  · exact hpart
  · have hc : isSeparator c = true := hfront c (by simp)
    rw [List.concat_eq_append, List.append_assoc, List.singleton_append,
      splitCharsFrom_append hc]
    exact List.mem_append_right _ hpart

theorem mem_splitText_iff {text part : String} :
    part ∈ splitText isSeparator text ↔ IsPart isSeparator text.toList part.toList := by
  rw [splitText, List.mem_map]
  constructor
  · rintro ⟨cs, hcs, rfl⟩
    rw [String.toList_ofList]
    exact isPart_of_mem_splitCharsFrom (by simp) hcs
  · intro h
    exact ⟨part.toList, h.mem_splitCharsFrom, String.ofList_toList⟩

/-- With more separators, a part that has none of them is still a part. -/
theorem IsPart.imp {other : Char → Bool} {cs part : List Char} (h : IsPart isSeparator cs part)
    (himp : ∀ c, isSeparator c = true → other c = true) (hplain : ∀ c ∈ part, other c = false) :
    IsPart other cs part := by
  obtain ⟨_, front, back, hcs, hfront, hback⟩ := h
  exact ⟨hplain, front, back, hcs, fun c hc => himp c (hfront c hc),
    fun c hc => himp c (hback c hc)⟩

end

namespace Path

open FileTree (IsName)

/-- A name after a slash is the last part of a path. -/
theorem split_append_name {name : String} (hslash : '/' ∉ name.toList) (text : String) :
    split (text ++ "/" ++ name) = split text ++ [name] := by
  have hname : ∀ c ∈ name.toList, (c == '/') = false := by
    intro c hc
    rw [beq_eq_false_iff_ne]
    rintro rfl
    exact hslash hc
  have htext : (text ++ "/" ++ name).toList = text.toList ++ '/' :: name.toList := by
    simp
  rw [split, splitText, htext, splitCharsFrom_append rfl, splitCharsFrom_eq_singleton hname,
    List.map_append]
  simp [split, splitText]

/-! ## Resolving -/

theorem isName_of_mem_follow {directory : List String} {name : String}
    (h : ∀ n ∈ directory, IsName n) : ∀ n ∈ follow directory name, IsName n := by
  intro n hn
  rw [follow] at hn
  split at hn
  next => exact h n hn
  next hkept =>
    split at hn
    next => exact h n (List.dropLast_subset _ hn)
    next hup =>
      rcases List.mem_append.mp hn with hn | hn
      · exact h n hn
      · rw [List.mem_singleton.mp hn]
        exact ⟨fun h => hkept (Or.inl h), fun h => hkept (Or.inr h), hup⟩

theorem isName_of_mem_foldl {directory names : List String} (h : ∀ n ∈ directory, IsName n) :
    ∀ n ∈ names.foldl follow directory, IsName n := by
  induction names generalizing directory with
  | nil => exact h
  | cons name rest ih => exact ih (isName_of_mem_follow h)

/-- What a path resolves to is made of names, if the directory is. -/
theorem isName_of_mem_resolveFrom {directory : List String} (h : ∀ n ∈ directory, IsName n)
    (text : String) : ∀ n ∈ resolveFrom directory text, IsName n := by
  rw [resolveFrom]
  split
  · exact isName_of_mem_foldl (by simp)
  · exact isName_of_mem_foldl h

theorem follow_of_isName {name : String} (hname : IsName name) (directory : List String) :
    follow directory name = directory ++ [name] := by
  obtain ⟨hempty, hhere, hup⟩ := hname
  rw [follow, if_neg (by simp [hempty, hhere]), if_neg hup]

/-! ## Joining -/

theorem exists_ofComponents_concat (directory : List String) (name : String) :
    ∃ front, ofComponents (directory ++ [name]) = front ++ "/" ++ name := by
  by_cases hempty : directory = []
  · exact ⟨"", by simp [ofComponents, hempty]⟩
  · refine ⟨"/" ++ "/".intercalate directory, ?_⟩
    rw [ofComponents, String.intercalate_append_of_ne_nil hempty (by simp)]
    simp [String.append_assoc]

theorem ofComponents_ne_empty (components : List String) : ofComponents components ≠ "" := by
  intro h
  have hlist := congrArg String.toList h
  simp [ofComponents] at hlist

theorem endsWithSlash_append_name {name : String} (hname : name ≠ "")
    (hslash : '/' ∉ name.toList) (text : String) : endsWithSlash (text ++ name) = false := by
  cases hlast : name.toList.getLast? with
  | none => exact absurd (String.toList_eq_nil_iff.mp (List.getLast?_eq_none_iff.mp hlast)) hname
  | some c =>
      rw [endsWithSlash, String.toList_append, List.getLast?_append, hlast, Option.some_or,
        beq_eq_false_iff_ne]
      rintro ⟨rfl⟩
      exact hslash (List.mem_of_getLast? hlast)

/-- An absolute path continued by a name is the path of the components with that name. -/
theorem join_ofComponents {name : String} (hname : IsName name) (hslash : '/' ∉ name.toList)
    (components : List String) :
    ∃ directory, join (ofComponents components) name = ofComponents (directory ++ [name]) := by
  have habsolute : isAbsolute (ofComponents components ++ "/" ++ name) = true := by
    simp [isAbsolute, ofComponents]
  refine ⟨(split (ofComponents components)).foldl follow [], ?_⟩
  rw [join, if_neg (ofComponents_ne_empty components), if_neg hname.1, normalize]
  simp only [habsolute, if_true, split_append_name hslash, List.foldl_append, List.foldl_cons,
    List.foldl_nil, follow_of_isName hname, endsWithSlash_append_name hname.1 hslash,
    Bool.false_and, Bool.false_eq_true, if_false]
  exact if_neg (ofComponents_ne_empty _)

/-- An absolute path continued by a name ends in that name. -/
theorem exists_split_join {name : String} (hname : IsName name) (hslash : '/' ∉ name.toList)
    (components : List String) :
    ∃ front, split (join (ofComponents components) name) = front ++ [name] := by
  obtain ⟨directory, hjoin⟩ := join_ofComponents hname hslash components
  obtain ⟨front, hfront⟩ := exists_ofComponents_concat directory name
  exact ⟨split front, by rw [hjoin, hfront, split_append_name hslash]⟩

end Path

end Dispatch
