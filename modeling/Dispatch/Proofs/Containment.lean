import Dispatch.Proofs.Path
import Dispatch.Proofs.Results
import Mathlib.Data.List.Induction

/-!
# Paths below a directory

The text of an absolute path and the list of its components determine each other, as
long as the components are names without slashes.  What a text resolves to always has
such components.

The check `Path.staysBelow` looks at the text of a relative path.  It accepts only
paths whose components begin with those of the base, whatever names are in them.  Of
these it refuses the ones whose first name below the base begins with two dots.
`isInside_iff_components` says this of any two texts, whatever they resolve to.
-/

namespace Dispatch

namespace Path

open FileTree (IsName)

/-- A name that can stand between two slashes of a resolved path. -/
structure IsComponent (text : String) : Prop where
  name : IsName text
  slash : '/' ∉ text.toList

/-! ## Components of resolved paths -/

theorem slash_not_mem_of_mem_split {text name : String} (h : name ∈ split text) :
    '/' ∉ name.toList := by
  intro hslash
  have hplain := (mem_splitText_iff.mp h).plain '/' hslash
  rw [beq_self_eq_true] at hplain
  cases hplain

/-- Following names leads to nothing but the names of the directory and those followed. -/
theorem mem_of_mem_foldl_follow {directory names : List String} {name : String}
    (h : name ∈ names.foldl follow directory) : name ∈ directory ∨ name ∈ names := by
  induction names generalizing directory with
  | nil => exact Or.inl h
  | cons first rest ih =>
      rcases ih h with hfollowed | hrest
      · rw [follow] at hfollowed
        split at hfollowed
        next => exact Or.inl hfollowed
        next =>
          split at hfollowed
          next => exact Or.inl (List.dropLast_subset _ hfollowed)
          next =>
            rcases List.mem_append.mp hfollowed with hdirectory | hfirst
            · exact Or.inl hdirectory
            · exact Or.inr (List.mem_cons.mpr (Or.inl (List.mem_singleton.mp hfirst)))
      · exact Or.inr (List.mem_cons_of_mem _ hrest)

theorem isComponent_of_mem_resolveFrom {directory : List String}
    (h : ∀ name ∈ directory, IsComponent name) (text : String) :
    ∀ name ∈ resolveFrom directory text, IsComponent name := by
  intro name hname
  refine ⟨isName_of_mem_resolveFrom (fun n hn => (h n hn).name) text name hname, ?_⟩
  rw [resolveFrom] at hname
  split at hname
  next =>
    rcases mem_of_mem_foldl_follow hname with hnil | hpart
    · cases hnil
    · exact slash_not_mem_of_mem_split hpart
  next =>
    rcases mem_of_mem_foldl_follow hname with hdirectory | hpart
    · exact (h name hdirectory).slash
    · exact slash_not_mem_of_mem_split hpart

/-! ## Texts of absolute paths -/

theorem foldl_follow_of_isComponent {names : List String} (h : ∀ name ∈ names, IsComponent name)
    (directory : List String) : names.foldl follow directory = directory ++ names := by
  induction names generalizing directory with
  | nil => simp
  | cons name rest ih =>
      rw [List.foldl_cons, follow_of_isName (h name (by simp)).name,
        ih fun n hn => h n (List.mem_cons_of_mem _ hn)]
      simp

/-- The text of an absolute path is split into its components, after an empty part. -/
theorem split_ofComponents {components : List String} (hne : components ≠ [])
    (h : ∀ name ∈ components, IsComponent name) :
    split (ofComponents components) = "" :: components := by
  induction components using List.reverseRecOn with
  | nil => exact absurd rfl hne
  | append_singleton front name ih =>
      have hname := (h name (by simp)).slash
      have hfront : ∀ n ∈ front, IsComponent n := fun n hn => h n (List.mem_append_left _ hn)
      by_cases hempty : front = []
      · have htext : ofComponents ([] ++ [name]) = "" ++ "/" ++ name := by simp [ofComponents]
        rw [hempty, htext, split_append_name hname]
        rfl
      · have htext : ofComponents (front ++ [name]) = ofComponents front ++ "/" ++ name := by
          rw [ofComponents, String.intercalate_append_of_ne_nil hempty (by simp), ofComponents]
          simp [String.append_assoc]
        rw [htext, split_append_name hname, ih hempty hfront]
        rfl

/-- The text of an absolute path resolves to its components, wherever it is resolved. -/
theorem resolveFrom_ofComponents {components : List String}
    (h : ∀ name ∈ components, IsComponent name) (directory : List String) :
    resolveFrom directory (ofComponents components) = components := by
  have habsolute : isAbsolute (ofComponents components) = true := by
    simp [isAbsolute, ofComponents]
  rw [resolveFrom, if_pos habsolute]
  by_cases hne : components = []
  · subst hne
    decide
  · rw [split_ofComponents hne h, List.foldl_cons]
    exact foldl_follow_of_isComponent h []

/-- An absolute path continued by a name is the path of the components and that name. -/
theorem join_ofComponents_eq {components : List String}
    (h : ∀ name ∈ components, IsComponent name) {name : String} (hname : IsComponent name) :
    join (ofComponents components) name = ofComponents (components ++ [name]) := by
  have habsolute : isAbsolute (ofComponents components ++ "/" ++ name) = true := by
    simp [isAbsolute, ofComponents]
  have hwalk : (split (ofComponents components)).foldl follow [] = components := by
    have hresolve := resolveFrom_ofComponents h []
    rwa [resolveFrom, if_pos (by simp [isAbsolute, ofComponents])] at hresolve
  rw [join, if_neg (ofComponents_ne_empty components), if_neg hname.name.1, normalize]
  simp only [habsolute, if_true, split_append_name hname.slash, List.foldl_append, hwalk,
    List.foldl_cons, List.foldl_nil, follow_of_isName hname.name,
    endsWithSlash_append_name hname.name.1 hname.slash, Bool.false_and, Bool.false_eq_true,
    if_false]
  exact if_neg (ofComponents_ne_empty _)

/-! ## Relative paths that stay below -/

theorem dropCommon_spec (base target : List String) :
    ∃ common, base = common ++ (dropCommon base target).1 ∧
      target = common ++ (dropCommon base target).2 := by
  induction base generalizing target with
  | nil => exact ⟨[], rfl, by cases target <;> rfl⟩
  | cons name rest ih =>
      cases target with
      | nil => exact ⟨[], rfl, rfl⟩
      | cons other more =>
          by_cases hsame : name = other
          · obtain ⟨common, hbase, htarget⟩ := ih more
            refine ⟨name :: common, ?_, ?_⟩
            · simpa [dropCommon, hsame] using hbase
            · simpa [dropCommon, hsame] using htarget
          · exact ⟨[], by simp [dropCommon, hsame], by simp [dropCommon, hsame]⟩

/-- A relative path that goes up begins with two dots. -/
theorem staysBelow_of_up (up down : List String) (name : String) :
    staysBelow ("/".intercalate ((name :: up).map (fun _ => "..") ++ down)) = false := by
  obtain ⟨rest, hrest⟩ : ∃ rest : String,
      "/".intercalate ((name :: up).map (fun _ => "..") ++ down) = ".." ++ rest := by
    rw [List.map_cons, List.cons_append]
    cases hmore : up.map (fun _ => "..") ++ down with
    | nil => exact ⟨"", by rw [String.intercalate_singleton, String.append_empty]⟩
    | cons second more =>
        refine ⟨"/" ++ "/".intercalate (second :: more), ?_⟩
        rw [String.intercalate_cons_cons, String.append_assoc]
  have hdots : ['.', '.'].isPrefixOf (".." ++ rest).toList = true := by
    simp [List.isPrefixOf]
  have hne : ((".." ++ rest) == "") = false := by
    rw [beq_eq_false_iff_ne]
    intro hempty
    have hlist := congrArg String.toList hempty
    simp at hlist
  rw [hrest, staysBelow, hne, hdots]
  rfl

/-- What the check of the relative path accepts begins with the components of the base. -/
theorem prefix_of_staysBelow_relative {base target : List String}
    (h : staysBelow (relative base target) = true) : base <+: target := by
  obtain ⟨common, hbase, htarget⟩ := dropCommon_spec base target
  rw [relative] at h
  rcases hdrop : dropCommon base target with ⟨up, down⟩
  rw [hdrop] at h hbase htarget
  cases up with
  | nil =>
      rw [List.append_nil] at hbase
      exact ⟨down, by rw [hbase]; exact htarget.symm⟩
  | cons name up =>
      have hgoes := staysBelow_of_up up down name
      exact absurd (hgoes.symm.trans h) Bool.false_ne_true

/-! ## Ways down -/

/-- The names on a path, without those that lead nowhere else. -/
def names (text : String) : List String :=
  (split text).filter fun name => name ≠ "" ∧ name ≠ "."

/-- Whether the first of some names begins with two dots. -/
def beginsWithDots (names : List String) : Bool :=
  names.head?.any fun name => ['.', '.'].isPrefixOf name.toList

/-- Names that do not go up are all followed downwards. -/
theorem foldl_follow_of_not_mem {parts : List String} (h : ".." ∉ parts)
    (directory : List String) : parts.foldl follow directory =
      directory ++ parts.filter fun name => name ≠ "" ∧ name ≠ "." := by
  induction parts generalizing directory with
  | nil => simp
  | cons name rest ih =>
      rw [List.foldl_cons, ih fun hmem => h (List.mem_cons_of_mem _ hmem)]
      by_cases hstays : name = "" ∨ name = "."
      · have hdropped : ¬ (name ≠ "" ∧ name ≠ ".") := by tauto
        rw [follow, if_pos hstays, List.filter_cons_of_neg (by simpa using hdropped)]
      · have hname : IsName name :=
          ⟨fun h => hstays (Or.inl h), fun h => hstays (Or.inr h), fun hup => h (by simp [hup])⟩
        rw [follow_of_isName hname,
          List.filter_cons_of_pos (by simp [hname.1, hname.2.1]), List.append_assoc]
        rfl

theorem dropCommon_append (base down : List String) :
    dropCommon base (base ++ down) = ([], down) := by
  induction base with
  | nil => cases down <;> rfl
  | cons name rest ih => rw [List.cons_append, dropCommon, if_pos rfl, ih]

theorem relative_append (base down : List String) :
    relative base (base ++ down) = "/".intercalate down := by
  rw [relative, dropCommon_append]
  rfl

/-- A way down stays below unless its first name begins with two dots. -/
theorem staysBelow_intercalate {down : List String} (h : ∀ name ∈ down, IsComponent name) :
    staysBelow ("/".intercalate down) = !beginsWithDots down := by
  cases down with
  | nil => rfl
  | cons name rest =>
      obtain ⟨⟨hempty, hhere, _⟩, hslash⟩ := h name List.mem_cons_self
      obtain ⟨more, hmore⟩ : ∃ more, ("/".intercalate (name :: rest)).toList =
          name.toList ++ more := by
        cases rest with
        | nil => exact ⟨[], by rw [String.intercalate_singleton, List.append_nil]⟩
        | cons second rest =>
            refine ⟨("/" ++ "/".intercalate (second :: rest)).toList, ?_⟩
            rw [String.intercalate_cons_cons, String.append_assoc, String.toList_append]
      rw [← String.ofList_toList (s := name)] at hempty hhere
      rw [staysBelow, isAbsolute, beginsWithDots, List.head?_cons, Option.any_some, hmore]
      have htext : ("/".intercalate (name :: rest) == "") = false := by
        rw [beq_eq_false_iff_ne]
        intro hnone
        have hnil : name.toList ++ more = [] := by
          rw [← hmore, hnone]
          rfl
        exact hempty (by rw [(List.append_eq_nil_iff.mp hnil).1])
      rw [htext, Bool.false_or]
      -- A name of one character is no dot, so the two dots lie within the first name or nowhere.
      rcases hname : name.toList with _ | ⟨c, _ | ⟨d, cs⟩⟩
      · exact absurd (by rw [hname]) hempty
      · have hdot : c ≠ '.' := by
          rintro rfl
          exact hhere (by rw [hname])
        have hc : c ≠ '/' := by
          rintro rfl
          exact hslash (by simp [hname])
        simp [List.isPrefixOf, hc, hdot.symm]
      · have hc : c ≠ '/' := by
          rintro rfl
          exact hslash (by simp [hname])
        simp [List.isPrefixOf, hc]

/-! ## Paths inside others -/

/-- The names on the text of an absolute path are its components. -/
theorem names_ofComponents {components : List String}
    (h : ∀ name ∈ components, IsComponent name) :
    names (ofComponents components) = components := by
  by_cases hne : components = []
  · subst hne
    decide
  · have hkept : ∀ name ∈ components, decide (name ≠ "" ∧ name ≠ ".") = true := by
      intro name hname
      obtain ⟨⟨hempty, hhere, _⟩, _⟩ := h name hname
      exact decide_eq_true ⟨hempty, hhere⟩
    rw [names, split_ofComponents hne h, List.filter_cons_of_neg (by simp),
      List.filter_eq_self.mpr hkept]

/-- The components that a text is resolved to can stand in paths. -/
theorem isComponent_of_mem_resolveText (workingDirectory text : String) :
    ∀ name ∈ resolveFrom (resolveFrom [] workingDirectory) text, IsComponent name :=
  isComponent_of_mem_resolveFrom (isComponent_of_mem_resolveFrom (by simp) workingDirectory) text

theorem names_resolve (workingDirectory text : String) :
    names (resolve workingDirectory text) =
      resolveFrom (resolveFrom [] workingDirectory) text :=
  names_ofComponents (isComponent_of_mem_resolveText workingDirectory text)

/-- A resolved path is resolved to itself. -/
theorem resolveFrom_resolve (workingDirectory text : String) :
    resolveFrom (resolveFrom [] workingDirectory) (resolve workingDirectory text) =
      resolveFrom (resolveFrom [] workingDirectory) text :=
  resolveFrom_ofComponents (isComponent_of_mem_resolveText workingDirectory text) _

/-- A relative path stays below where nothing goes up and no two dots come first. -/
theorem staysBelow_relative_iff {base target : List String}
    (htarget : ∀ name ∈ target, IsComponent name) :
    staysBelow (relative base target) = true ↔
      ∃ rest, target = base ++ rest ∧ beginsWithDots rest = false := by
  constructor
  · intro h
    obtain ⟨rest, rfl⟩ := prefix_of_staysBelow_relative h
    have hrest : ∀ name ∈ rest, IsComponent name :=
      fun name hname => htarget name (List.mem_append_right _ hname)
    rw [relative_append, staysBelow_intercalate hrest, Bool.not_eq_true'] at h
    exact ⟨rest, rfl, h⟩
  · rintro ⟨rest, rfl, hdots⟩
    have hrest : ∀ name ∈ rest, IsComponent name :=
      fun name hname => htarget name (List.mem_append_right _ hname)
    rw [relative_append, staysBelow_intercalate hrest, hdots, Bool.not_false]

theorem beginsWithDots_eq_false_iff {names : List String} :
    beginsWithDots names = false ↔ ∀ name ∈ names.head?, ¬['.', '.'] <+: name.toList := by
  cases names with
  | nil => simp [beginsWithDots]
  | cons name rest => simp [beginsWithDots, ← List.isPrefixOf_iff_prefix]

theorem isInside_iff {workingDirectory base candidate : String} :
    isInside workingDirectory base candidate = true ↔
      ∃ rest, names (resolve workingDirectory candidate) =
          names (resolve workingDirectory base) ++ rest ∧
        ∀ name ∈ rest.head?, ¬['.', '.'] <+: name.toList := by
  have hcandidate := isComponent_of_mem_resolveText workingDirectory candidate
  simp only [isInside, staysBelow_relative_iff hcandidate, beginsWithDots_eq_false_iff,
    names_resolve]

/-- A path is not inside another that it does not begin with. -/
theorem isInside_eq_false {workingDirectory base candidate : String}
    (h : ¬names (resolve workingDirectory base) <+: names (resolve workingDirectory candidate)) :
    isInside workingDirectory base candidate = false := by
  rw [Bool.eq_false_iff]
  intro hinside
  obtain ⟨rest, hrest, _⟩ := isInside_iff.mp hinside
  exact h ⟨rest, hrest.symm⟩

/--
Whether a path is inside another is decided by the components that both resolve to: those of
the outer path must come first, and what remains must not begin with two dots.  A name that
merely goes on after the last one of the outer path leads elsewhere.  Resolving either path
beforehand makes no difference.
-/
theorem isInside_iff_components (workingDirectory base candidate : String) :
    (isInside workingDirectory base candidate = true ↔
      ∃ rest, names (resolve workingDirectory candidate) =
          names (resolve workingDirectory base) ++ rest ∧
        ∀ name ∈ rest.head?, ¬['.', '.'] <+: name.toList) ∧
    (¬names (resolve workingDirectory base) <+: names (resolve workingDirectory candidate) →
      isInside workingDirectory base candidate = false) ∧
    (∀ directory name more rest, more ≠ "" →
      names (resolve workingDirectory base) = directory ++ [name] →
      names (resolve workingDirectory candidate) = directory ++ (name ++ more) :: rest →
      isInside workingDirectory base candidate = false) ∧
    isInside workingDirectory (resolve workingDirectory base) candidate =
      isInside workingDirectory base candidate ∧
    isInside workingDirectory base (resolve workingDirectory candidate) =
      isInside workingDirectory base candidate := by
  refine ⟨isInside_iff, isInside_eq_false, ?_, ?_, ?_⟩
  · intro directory name more rest hmore hbase hcandidate
    apply isInside_eq_false
    rw [hbase, hcandidate, List.prefix_append_right_inj, List.cons_prefix_cons]
    rintro ⟨hsame, _⟩
    have hlist := congrArg String.toList hsame
    rw [String.toList_append, List.self_eq_append_right] at hlist
    exact hmore (String.toList_eq_nil_iff.mp hlist)
  · simp only [isInside, resolveFrom_resolve]
  · simp only [isInside, resolveFrom_resolve]

example : isInside "/work" "a" "../work/a//b/" = true ∧
    isInside "/work" "a" "a/b/../..c" = false := by
  decide +kernel

end Path

/-! ## Following absolute paths -/

/-- The text of an absolute path leads to its components, if it leads anywhere. -/
theorem FileTree.eq_of_locateText {tree : FileTree}
    {workingDirectory components place : List String}
    (hne : components ≠ []) (h : ∀ name ∈ components, Path.IsComponent name)
    (hplace : tree.locateText workingDirectory (Path.ofComponents components) = .ok place) :
    place = components := by
  have habsolute : Path.isAbsolute (Path.ofComponents components) = true := by
    simp [Path.isAbsolute, Path.ofComponents]
  rw [locateText, if_neg (Path.ofComponents_ne_empty components), if_pos habsolute,
    Path.split_ofComponents hne h, locate] at hplace
  obtain ⟨done, _, hplace⟩ := exists_of_bind_eq_ok hplace
  rw [if_pos (Or.inl rfl)] at hplace
  rw [eq_of_locate (fun name hname => (h name hname).name) hplace, List.nil_append]

end Dispatch
