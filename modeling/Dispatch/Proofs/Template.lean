import Dispatch.Template
import Dispatch.Proofs.Results

/-!
# What templates mean

A template is a text that pieces spell, one after another: a character that is no brace,
a doubled brace, or a key between braces.  No piece begins like another one, so that a
template is read in one way only, which is the way of the scanner.

A text that is no template has a first gap, which is a place that pieces lead to and
where none fits.  Its fault is about that place: an unknown key, if something without
braces stands between braces there, and else a brace without its partner.
-/

namespace Dispatch.Template

/-- The two characters that mean something in templates. -/
def IsBrace (c : Char) : Prop :=
  c = '\x7b' ∨ c = '\x7d'

instance : DecidablePred IsBrace :=
  fun _ => inferInstanceAs (Decidable (_ ∨ _))

namespace Piece

/-- How templates write a piece. -/
def spelling : Piece → List Char
  | .char c => [c]
  | .openBrace => ['\x7b', '\x7b']
  | .closeBrace => ['\x7d', '\x7d']
  | .key known => '\x7b' :: known.name.toList ++ ['\x7d']

/-- Braces are no plain characters. -/
def IsProper (piece : Piece) : Prop :=
  ∀ c, piece = .char c → ¬IsBrace c

/-- A text begins with the piece. -/
def Fits (piece : Piece) (text : List Char) : Prop :=
  piece.IsProper ∧ piece.spelling <+: text

end Piece

/-- Pieces lead through a text to a rest of it. -/
structure LeadsTo (text : List Char) (pieces : List Piece) (rest : List Char) : Prop where
  proper : ∀ piece ∈ pieces, piece.IsProper
  text_eq : text = pieces.flatMap Piece.spelling ++ rest

/-- Pieces lead through the whole text. -/
def Spells (pieces : List Piece) (text : List Char) : Prop :=
  LeadsTo text pieces []

/-- No piece fits, though the text is not at its end. -/
def IsGap (rest : List Char) : Prop :=
  rest ≠ [] ∧ ∀ piece : Piece, ¬piece.Fits rest

/-- Pieces lead to a gap, and no pieces lead further. -/
structure IsFirstGap (text : List Char) (pieces : List Piece) (rest : List Char) : Prop where
  leads : LeadsTo text pieces rest
  gap : IsGap rest
  furthest : ∀ others rest', LeadsTo text others rest' → others <+: pieces

/-- A text begins with something without braces between braces. -/
def BeginsWithKey (rest name : List Char) : Prop :=
  (∀ c ∈ name, ¬IsBrace c) ∧ ∃ tail, rest = '\x7b' :: name ++ '\x7d' :: tail

/-- What is said of a gap in a template. -/
inductive SaysAt (template : String) : List Char → String → Prop
  | unknownKey {rest name : List Char} (hname : BeginsWithKey rest name) :
      SaysAt template rest
        s!"Unknown template key \"{String.ofList name}\" in \"{template}\" (known: AMS_STORE_PATH)"
  | unbalancedBrace {brace : Char} {tail : List Char} (hbrace : IsBrace brace)
      (hname : ∀ name, ¬BeginsWithKey (brace :: tail) name) :
      SaysAt template (brace :: tail)
        s!"Unbalanced \"{String.ofList [brace]}\" in template \"{template}\""

/-- A failure that is about a gap in a template. -/
structure FailureAt (template : String) (rest : List Char) (failure : Failure) : Prop where
  realm : failure.realm = .configuration
  message : ∃ message, failure.message? = some message ∧ SaysAt template rest message

/-- A text with every brace doubled. -/
def escape (s : String) : String :=
  .ofList (s.toList.flatMap fun c => if IsBrace c then [c, c] else [c])

/-! ## Pieces at the beginning of a text -/

theorem Key.ofName?_eq_some_iff {name : String} {known : Key} :
    Key.ofName? name = some known ↔ known.name = name := by
  cases known
  by_cases h : Key.storePath.name = name
  · simp [ofName?, all, h]
  · simp [ofName?, all, h]

theorem Key.not_isBrace_of_mem_name (known : Key) : ∀ c ∈ known.name.toList, ¬IsBrace c := by
  have hnone : known.name.toList.all (¬IsBrace ·) = true := by
    cases known
    decide
  simpa only [List.all_eq_true, decide_eq_true_eq] using hnone

theorem Piece.spelling_ne_nil (piece : Piece) : piece.spelling ≠ [] := by
  cases piece <;> simp [spelling]

/-- The first two characters of a text tell which piece fits. -/
theorem Piece.Fits.start {piece : Piece} {c : Char} {cs : List Char}
    (h : piece.Fits (c :: cs)) :
    match piece with
    | .char d => d = c ∧ ¬IsBrace c
    | .openBrace => c = '\x7b' ∧ cs.head? = some '\x7b'
    | .closeBrace => c = '\x7d'
    | .key _ => c = '\x7b' ∧ cs.head? ≠ some '\x7b' := by
  obtain ⟨hproper, rest, htext⟩ := h
  cases piece with
  | char d =>
      obtain ⟨rfl, rfl⟩ := List.cons.inj htext
      exact ⟨rfl, hproper d rfl⟩
  | openBrace =>
      obtain ⟨rfl, rfl⟩ := List.cons.inj htext
      exact ⟨rfl, rfl⟩
  | closeBrace =>
      obtain ⟨rfl, rfl⟩ := List.cons.inj htext
      rfl
  | key known =>
      obtain ⟨rfl, rfl⟩ := List.cons.inj htext
      refine ⟨rfl, ?_⟩
      cases known
      simp [Key.name]

/-- No piece begins like another one. -/
theorem Piece.Fits.eq {piece other : Piece} {text : List Char} (h : piece.Fits text)
    (hother : other.Fits text) : piece = other := by
  cases text with
  | nil => exact absurd (List.prefix_nil.mp h.2) piece.spelling_ne_nil
  | cons c cs =>
      have hstart := h.start
      have hstart' := hother.start
      cases piece <;> cases other <;> grind [IsBrace]

/-! ## Ways through a text -/

section

variable {text rest : List Char} {piece : Piece} {pieces others : List Piece}

theorem leadsTo_nil (text : List Char) : LeadsTo text [] text :=
  ⟨by simp, rfl⟩

theorem leadsTo_cons_iff :
    LeadsTo text (piece :: pieces) rest ↔
      ∃ next, piece.IsProper ∧ text = piece.spelling ++ next ∧ LeadsTo next pieces rest := by
  constructor
  · rintro ⟨hproper, rfl⟩
    rw [List.forall_mem_cons] at hproper
    exact ⟨_, hproper.1, by simp, hproper.2, rfl⟩
  · rintro ⟨next, hproper, rfl, hrest, rfl⟩
    exact ⟨List.forall_mem_cons.mpr ⟨hproper, hrest⟩, by simp⟩

/-- Pieces that lead anywhere begin the pieces that lead to a gap. -/
theorem LeadsTo.prefix_of_isGap (h : LeadsTo text pieces rest) (hgap : IsGap rest)
    {rest' : List Char} (hothers : LeadsTo text others rest') : others <+: pieces := by
  induction others generalizing text pieces with
  | nil => exact List.nil_prefix
  | cons other others ih =>
      obtain ⟨next, hproper, rfl, hnext⟩ := leadsTo_cons_iff.mp hothers
      have hfits : other.Fits (other.spelling ++ next) := ⟨hproper, List.prefix_append _ _⟩
      cases pieces with
      | nil =>
          have hrest : other.spelling ++ next = rest := h.text_eq
          rw [hrest] at hfits
          exact absurd hfits (hgap.2 other)
      | cons piece pieces =>
          obtain ⟨next', hproper', htext, hnext'⟩ := leadsTo_cons_iff.mp h
          have hfits' : piece.Fits (other.spelling ++ next) :=
            ⟨hproper', htext ▸ List.prefix_append _ _⟩
          obtain rfl := hfits.eq hfits'
          rw [← List.append_cancel_left htext] at hnext'
          exact List.cons_prefix_cons.mpr ⟨rfl, ih hnext' hnext⟩

/-- Pieces lead through every text to its end or to a gap. -/
theorem exists_leadsTo (text : List Char) :
    ∃ pieces rest, LeadsTo text pieces rest ∧ (rest = [] ∨ IsGap rest) := by
  by_cases hfits : ∃ piece : Piece, piece.Fits text
  · obtain ⟨piece, hproper, next, rfl⟩ := hfits
    have hpos := List.length_pos_iff.mpr piece.spelling_ne_nil
    have hshorter : next.length < (piece.spelling ++ next).length := by
      rw [List.length_append]
      omega
    obtain ⟨pieces, rest, hleads, hrest⟩ := exists_leadsTo next
    exact ⟨piece :: pieces, rest, leadsTo_cons_iff.mpr ⟨next, hproper, rfl, hleads⟩, hrest⟩
  · rw [not_exists] at hfits
    refine ⟨[], text, leadsTo_nil text, ?_⟩
    rw [or_iff_not_imp_left]
    intro hne
    exact ⟨hne, hfits⟩
termination_by text.length

end

/-! ## Scanning -/

section

variable {name rest : List Char} {read : List Char}

theorem scan_none_cons {c : Char} (hc : ¬IsBrace c) (rest : List Char) :
    scan none (c :: rest) = consPiece (.char c) (scan none rest) := by
  obtain ⟨hopen, hclose⟩ := not_or.mp hc
  rw [scan]
  · exact fun _ h => absurd h hopen
  · exact fun _ h => absurd h hclose
  · exact hopen
  · exact hclose

theorem scan_none_open (h : rest.head? ≠ some '\x7b') :
    scan none ('\x7b' :: rest) = scan (some []) rest := by
  rw [scan]
  rintro rest' rfl
  exact h rfl

theorem scan_none_close (h : rest.head? ≠ some '\x7d') :
    scan none ('\x7d' :: rest) = .error (.unbalanced '\x7d') := by
  rw [scan]
  rintro rest' rfl
  exact h rfl

theorem scan_some_cons {c : Char} (hc : ¬IsBrace c) (read rest : List Char) :
    scan (some read) (c :: rest) = scan (some (c :: read)) rest := by
  obtain ⟨hopen, hclose⟩ := not_or.mp hc
  rw [scan]
  · exact hopen
  · exact hclose

/-- What has no brace in it is read up to the closing one. -/
theorem scan_some_append (hname : ∀ c ∈ name, ¬IsBrace c) (read rest : List Char) :
    scan (some read) (name ++ '\x7d' :: rest) =
      match Key.ofName? (.ofList (read.reverse ++ name)) with
      | some known => consPiece (.key known) (scan none rest)
      | none => .error (.unknown (.ofList (read.reverse ++ name))) := by
  induction name generalizing read with
  | nil =>
      rw [List.nil_append, List.append_nil]
      exact scan.eq_def _ _
  | cons c name ih =>
      obtain ⟨hc, hname⟩ := List.forall_mem_cons.mp hname
      rw [List.cons_append, scan_some_cons hc, ih hname]
      simp

/-- An opening brace is alone when nothing without braces stands before a closing one. -/
theorem scan_some_eq_error {text : List Char}
    (h : ∀ name tail, (∀ c ∈ name, ¬IsBrace c) → text ≠ name ++ '\x7d' :: tail)
    (read : List Char) : scan (some read) text = .error (.unbalanced '\x7b') := by
  induction text generalizing read with
  | nil => rfl
  | cons c text ih =>
      by_cases hc : IsBrace c
      · rcases hc with rfl | rfl
        · rfl
        · exact absurd rfl (h [] text (by simp))
      · rw [scan_some_cons hc]
        apply ih
        intro name tail hname htext
        refine h (c :: name) tail (List.forall_mem_cons.mpr ⟨hc, hname⟩) ?_
        rw [htext, List.cons_append]

theorem scan_open_append (hname : ∀ c ∈ name, ¬IsBrace c) (rest : List Char) :
    scan none ('\x7b' :: name ++ '\x7d' :: rest) =
      match Key.ofName? (.ofList name) with
      | some known => consPiece (.key known) (scan none rest)
      | none => .error (.unknown (.ofList name)) := by
  have hhead : (name ++ '\x7d' :: rest).head? ≠ some '\x7b' := by
    cases name with
    | nil => simp
    | cons c name =>
        have hc := (List.forall_mem_cons.mp hname).1
        rintro ⟨⟩
        exact hc (Or.inl rfl)
  rw [List.cons_append, scan_none_open hhead, scan_some_append hname, List.reverse_nil,
    List.nil_append]

/-- The scanner takes the piece that fits. -/
theorem scan_spelling {piece : Piece} (h : piece.IsProper) (rest : List Char) :
    scan none (piece.spelling ++ rest) = consPiece piece (scan none rest) := by
  cases piece with
  | char c => exact scan_none_cons (h c rfl) rest
  | openBrace => rfl
  | closeBrace => rfl
  | key known =>
      have hknown : Key.ofName? (.ofList known.name.toList) = some known := by
        rw [Key.ofName?_eq_some_iff, String.ofList_toList]
      have hscan := scan_open_append known.not_isBrace_of_mem_name rest
      rw [hknown] at hscan
      simpa [Piece.spelling] using hscan

/-- The scanner follows the pieces that lead through a text. -/
theorem LeadsTo.scan_eq {text : List Char} {pieces : List Piece} (h : LeadsTo text pieces rest) :
    scan none text = (scan none rest).map (pieces ++ ·) := by
  induction pieces generalizing text with
  | nil =>
      have htext : text = rest := h.text_eq
      rw [htext]
      cases scan none rest <;> rfl
  | cons piece pieces ih =>
      obtain ⟨next, hproper, rfl, hnext⟩ := leadsTo_cons_iff.mp h
      rw [scan_spelling hproper, ih hnext, consPiece]
      cases scan none rest <;> rfl

theorem failureAt_unknownKey (template : String) {name : List Char} (h : BeginsWithKey rest name) :
    FailureAt template rest ((Fault.unknown (.ofList name)).failure template) := by
  refine ⟨rfl, _, ?_, .unknownKey h⟩
  have hknown : "\" (known: " ++ ("AMS_STORE_PATH" ++ ")") = "\" (known: AMS_STORE_PATH)" := by
    decide
  have hnames : ", ".intercalate (Key.all.map Key.name) = "AMS_STORE_PATH" := by decide
  simp only [Fault.failure, Failure.message?, hnames, toString, String.append_assoc, hknown]

/-- The scanner stops at a gap with a failure that is about the gap. -/
theorem exists_failureAt (template : String) (h : IsGap rest) :
    ∃ fault, scan none rest = .error fault ∧ FailureAt template rest (fault.failure template) := by
  obtain ⟨hne, hgap⟩ := h
  by_cases hkey : ∃ name, BeginsWithKey rest name
  · obtain ⟨name, hname⟩ := hkey
    refine ⟨.unknown (.ofList name), ?_, failureAt_unknownKey template hname⟩
    obtain ⟨hplain, tail, rfl⟩ := hname
    rw [scan_open_append hplain]
    cases hknown : Key.ofName? (.ofList name) with
    | none => rfl
    | some known =>
        have hsame : known.name.toList = name := by
          rw [Key.ofName?_eq_some_iff.mp hknown, String.toList_ofList]
        refine absurd ⟨by simp [Piece.IsProper], tail, ?_⟩ (hgap (.key known))
        simp [Piece.spelling, hsame]
  · rw [not_exists] at hkey
    obtain ⟨brace, tail, rfl⟩ := List.exists_cons_of_ne_nil hne
    have hbrace : IsBrace brace := by
      by_contra hplain
      refine hgap (.char brace) ⟨?_, List.prefix_append [brace] tail⟩
      rintro c ⟨⟩
      exact hplain
    refine ⟨.unbalanced brace, ?_, rfl, _, rfl, .unbalancedBrace hbrace hkey⟩
    rcases hbrace with rfl | rfl
    · have hhead : tail.head? ≠ some '\x7b' := by
        intro hhead
        obtain ⟨tail, rfl⟩ := List.head?_eq_some_iff.mp hhead
        exact hgap .openBrace ⟨by simp [Piece.IsProper], tail, rfl⟩
      rw [scan_none_open hhead]
      apply scan_some_eq_error
      rintro name tail' hname rfl
      exact hkey name ⟨hname, tail', rfl⟩
    · apply scan_none_close
      intro hhead
      obtain ⟨tail, rfl⟩ := List.head?_eq_some_iff.mp hhead
      exact hgap .closeBrace ⟨by simp [Piece.IsProper], tail, rfl⟩

end

/-! ## Filling in -/

section

variable {context : Context} {template : String} {pieces : List Piece}

theorem Spells.format_eq (h : Spells pieces template.toList) :
    format context template = .ok (fill context pieces) := by
  have hscan : scan none template.toList = .ok pieces := by
    rw [h.scan_eq, scan]
    simp [Except.map]
  rw [format, hscan]

/-- A template is read in one way. -/
theorem Spells.eq {others : List Piece} {text : List Char} (h : Spells pieces text)
    (hothers : Spells others text) : others = pieces := by
  have hscan := h.scan_eq
  rw [hothers.scan_eq, scan] at hscan
  simpa [Except.map] using hscan

/-- A text that is no template fails at its first gap. -/
theorem exists_isFirstGap (context : Context) (h : ¬∃ pieces, Spells pieces template.toList) :
    ∃ pieces rest failure, IsFirstGap template.toList pieces rest ∧
      FailureAt template rest failure ∧ format context template = .error failure := by
  obtain ⟨pieces, rest, hleads, hrest⟩ := exists_leadsTo template.toList
  have hgap : IsGap rest := by
    refine hrest.resolve_left ?_
    rintro rfl
    exact h ⟨pieces, hleads⟩
  obtain ⟨fault, hscan, hfault⟩ := exists_failureAt template hgap
  refine ⟨pieces, rest, _, ⟨hleads, hgap, fun others rest' hothers => ?_⟩, hfault, ?_⟩
  · exact hleads.prefix_of_isGap hgap hothers
  · rw [format, hleads.scan_eq, hscan]
    rfl

/-- Exactly the templates are filled in. -/
theorem exists_format_eq_ok_iff :
    (∃ content, format context template = .ok content) ↔
      ∃ pieces, Spells pieces template.toList := by
  constructor
  · rintro ⟨content, hcontent⟩
    by_contra hnone
    obtain ⟨_, _, failure, _, _, hfailure⟩ := exists_isFirstGap context hnone
    rw [hcontent] at hfailure
    cases hfailure
  · rintro ⟨pieces, hpieces⟩
    exact ⟨_, hpieces.format_eq⟩

end

/-! ## Arguments -/

/-- A text is filled in as the pieces that spell it say, and other values are left alone. -/
inductive IsFilled (context : Context) : Value → Value → Prop
  | text {template : String} {pieces : List Piece} (h : Spells pieces template.toList) :
      IsFilled context (.text template) (.text (fill context pieces))
  | other {value : Value} (h : ∀ s, value ≠ .text s) : IsFilled context value value

section

variable {context : Context} {value filled : Value} {failure : Failure}

theorem formatArgument_eq_ok_iff :
    formatArgument context value = .ok filled ↔ IsFilled context value filled := by
  cases value with
  | text template =>
      rw [formatArgument]
      constructor
      · intro h
        obtain ⟨content, hcontent, rfl⟩ := map_eq_ok_iff.mp h
        obtain ⟨pieces, hpieces⟩ := exists_format_eq_ok_iff.mp ⟨content, hcontent⟩
        obtain rfl := Except.ok.inj (hpieces.format_eq.symm.trans hcontent)
        exact .text hpieces
      · rintro (hpieces | hother)
        · rw [hpieces.format_eq]
          rfl
        · exact absurd rfl (hother template)
  | _ =>
      constructor
      · rintro ⟨⟩
        exact .other (by simp)
      · rintro ⟨⟩
        rfl

/-- An argument is filled in, unless it is a text that is no template. -/
theorem exists_formatArgument_iff :
    (∃ result, formatArgument context value = .ok result) ↔
      ∀ s, value = .text s → ∃ pieces, Spells pieces s.toList := by
  cases value with
  | text s =>
      have hformat := @exists_format_eq_ok_iff context s
      simp only [Value.text.injEq, forall_eq', ← hformat, formatArgument]
      cases format context s <;> simp [Except.map]
  | _ => simp [formatArgument]

theorem formatArgument_eq_error_iff :
    formatArgument context value = .error failure ↔
      ∃ template, value = .text template ∧ format context template = .error failure := by
  cases value with
  | text template =>
      simp only [Value.text.injEq, exists_eq_left', formatArgument]
      exact map_eq_error_iff
  | _ => simp [formatArgument]

end

/-! ## Escaped texts -/

/-- The piece that stands for a character. -/
def Piece.ofChar (c : Char) : Piece :=
  if c = '\x7b' then .openBrace else if c = '\x7d' then .closeBrace else .char c

theorem Piece.isProper_ofChar (c : Char) : (ofChar c).IsProper := by
  rintro d hd
  grind [ofChar, IsBrace]

theorem spells_escape (s : String) : Spells (s.toList.map Piece.ofChar) (escape s).toList := by
  constructor
  · intro piece hpiece
    obtain ⟨c, _, rfl⟩ := List.mem_map.mp hpiece
    exact Piece.isProper_ofChar c
  · rw [escape, String.toList_ofList, List.append_nil, List.flatMap_map]
    congr 1
    funext c
    grind [Piece.ofChar, Piece.spelling, IsBrace]

theorem Spells.append {pieces others : List Piece} {text more : List Char}
    (h : Spells pieces text) (hothers : Spells others more) :
    Spells (pieces ++ others) (text ++ more) := by
  constructor
  · exact List.forall_mem_append.mpr ⟨h.proper, hothers.proper⟩
  · rw [h.text_eq, hothers.text_eq]
    simp

theorem spells_storePath : Spells [.key .storePath] "\x7bAMS_STORE_PATH\x7d".toList :=
  ⟨by simp [Piece.IsProper], by decide⟩

theorem Piece.meaning_ofChar (context : Context) (c : Char) :
    (ofChar c).meaning context = [c] := by
  rw [ofChar]
  split_ifs with hopen hclose
  · rw [hopen, meaning]
  · rw [hclose, meaning]
  · rfl

theorem flatMap_meaning_ofChar (context : Context) (cs : List Char) :
    (cs.map Piece.ofChar).flatMap (Piece.meaning context) = cs := by
  induction cs with
  | nil => rfl
  | cons c cs ih =>
      rw [List.map_cons, List.flatMap_cons, Piece.meaning_ofChar, ih, List.singleton_append]

theorem format_escape (context : Context) (front back : String) :
    format context (escape front ++ "\x7bAMS_STORE_PATH\x7d" ++ escape back) =
      .ok (front ++ context.storePath ++ back) := by
  have hspells := ((spells_escape front).append spells_storePath).append (spells_escape back)
  rw [← String.toList_append, ← String.toList_append] at hspells
  rw [hspells.format_eq, fill, List.flatMap_append, List.flatMap_append, flatMap_meaning_ofChar,
    flatMap_meaning_ofChar]
  simp [Piece.meaning, Key.value, String.ofList_append, String.append_assoc]

/-! ## Templates -/

/--
A text is filled in exactly if pieces spell it, which they do in one way; the result is what
the pieces stand for, and the store's path is inserted as it is.  Any other text fails as is
said of its first gap.  Between texts with their braces doubled a key is all that is filled in.
-/
theorem format_cases (context : Context) (template : String) :
    (∀ content, format context template = .ok content ↔
      ∃ pieces, Spells pieces template.toList ∧
        content = .ofList (pieces.flatMap (Piece.meaning context))) ∧
    (∀ pieces others, Spells pieces template.toList → Spells others template.toList →
      others = pieces) ∧
    (∀ failure, format context template = .error failure →
      ∃ pieces rest, IsFirstGap template.toList pieces rest ∧
        FailureAt template rest failure) ∧
    ∀ front back,
      format context (escape front ++ "\x7bAMS_STORE_PATH\x7d" ++ escape back) =
        .ok (front ++ context.storePath ++ back) := by
  refine ⟨fun content => ⟨fun hcontent => ?_, ?_⟩, fun pieces others h hothers => h.eq hothers,
    fun failure hfailure => ?_, format_escape context⟩
  · obtain ⟨pieces, hpieces⟩ := exists_format_eq_ok_iff.mp ⟨content, hcontent⟩
    rw [hpieces.format_eq] at hcontent
    cases hcontent
    exact ⟨pieces, hpieces, rfl⟩
  · rintro ⟨pieces, hpieces, rfl⟩
    exact hpieces.format_eq
  · have hnone : ¬∃ pieces, Spells pieces template.toList := by
      rintro ⟨pieces, hpieces⟩
      rw [hpieces.format_eq] at hfailure
      cases hfailure
    obtain ⟨pieces, rest, cause, hgap, hcause, hsame⟩ :=
      exists_isFirstGap context hnone
    rw [hfailure] at hsame
    cases hsame
    exact ⟨pieces, rest, hgap, hcause⟩

example :
    (format ⟨"/s"⟩ "\x7b\x7b\x7bAMS_STORE_PATH\x7d/a\x7d\x7d").toOption =
      some "\x7b/s/a\x7d" := by
  decide +kernel

end Dispatch.Template
