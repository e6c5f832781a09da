import Dispatch.Config
import Dispatch.Proofs.Containment
import Dispatch.Proofs.Text.Blank

/-!
# Settings that were read

Reading settings gives a normal form.  Whatever the settings were read from, each of them is
a text without blanks at its ends, the directory for artifacts leads out of no root, and
reading the settings once more changes nothing.

`Config.parse_cases` says what every value is read as.  Each setting is read by itself, from
the member of its name, and the first setting that cannot be read says why.
-/

namespace Dispatch

namespace Config

/-- A directory that does not begin at the root, and of which no part goes up. -/
structure StaysInside (directory : String) : Prop where
  relative : directory.toList.head? ≠ some '/'
  down : ¬IsPart (fun c => c == '/' || c == '\\') directory.toList ['.', '.']

/-- The settings with their names, in the order in which they are read. -/
def entries (config : Config) : List (String × String) :=
  [("defaultStdout", config.defaultStdout), ("defaultStderr", config.defaultStderr),
    ("mpiFlavor", config.mpiFlavor), ("gpuAffinity", config.gpuAffinity),
    ("artifactDir", config.artifactDir)]

/-- The names of the settings, in the order in which they are read. -/
def settingNames : List String :=
  ({} : Config).entries.map Prod.fst

/-- The settings as a table. -/
def toTable (config : Config) : Dict Value :=
  config.entries.map fun entry => (entry.1, .text entry.2)

/-- A text that can stand for a setting once it was read. -/
structure IsProper (name setting : String) : Prop where
  filled : setting ≠ ""
  trimmed : IsTrimmed setting.toList
  inside : name = "artifactDir" → StaysInside setting

/-- All settings are proper. -/
def IsSafe (config : Config) : Prop :=
  ∀ entry ∈ config.entries, IsProper entry.1 entry.2

/-- A setting is what was given for it without the blanks around it, or else its default. -/
inductive IsTaken (default : String) : Value → String → Prop
  | given {text : String} (h : trim text ≠ "") : IsTaken default (.text text) (trim text)
  | blank {text : String} (h : trim text = "") : IsTaken default (.text text) default
  | absent {value : Value} (h : value.isPresent = false) : IsTaken default value default

/-- Every setting is taken from the member of its name. -/
def IsTakenFrom (config : Config) (value : Value) : Prop :=
  List.Forall₂ (fun default taken => taken.1 = default.1 ∧
    IsTaken default.2 (value.member default.1) taken.2) ({} : Config).entries config.entries

/-- What is wrong with the value that is given for a setting. -/
inductive IsFault (name : String) : Value → Failure → Prop
  | notText {value : Value} (hpresent : value.isPresent = true)
      (hother : ∀ text, value ≠ .text text) : IsFault name value (.notText name)
  | outsideRoot {text : String} (hname : name = "artifactDir")
      (houtside : ¬StaysInside (trim text)) :
      IsFault name (.text text) (.outsideRoot name (trim text))

/-- Why a value gives no configuration: it is no object, or the first fault of a setting. -/
inductive IsRefused (value : Value) : Failure → Prop
  | notObject (hpresent : value.isPresent = true)
      (hother : ∀ kind members, value ≠ .object kind members) :
      IsRefused value (.notObject "ams-jobs config")
  | setting {front back : List String} {name : String} {failure : Failure}
      (hnames : settingNames = front ++ name :: back)
      (hfront : ∀ earlier ∈ front, ∀ other, ¬IsFault earlier (value.member earlier) other)
      (hfault : IsFault name (value.member name) failure) : IsRefused value failure

/-! ## Directories -/

section

variable {directory : String}

theorem leavesRoot_eq_false_iff : leavesRoot directory = false ↔ StaysInside directory := by
  rw [leavesRoot, Bool.or_eq_false_iff, beq_eq_false_iff_ne, ← Bool.not_eq_true,
    List.contains_iff_mem, segments, mem_splitText_iff]
  exact ⟨fun h => ⟨h.1, h.2⟩, fun h => ⟨h.relative, h.down⟩⟩

instance (directory : String) : Decidable (StaysInside directory) :=
  decidable_of_iff _ leavesRoot_eq_false_iff

/-- A directory that stays inside has no name that goes up. -/
theorem StaysInside.not_mem_split (h : StaysInside directory) :
    ".." ∉ Path.split directory := by
  intro hmem
  refine h.down ((mem_splitText_iff.mp hmem).imp ?_ ?_)
  · intro c hc
    rw [hc, Bool.true_or]
  · simp

/-- A directory that stays inside is followed to its names. -/
theorem StaysInside.resolveFrom_eq (h : StaysInside directory) (root : List String) :
    Path.resolveFrom root directory = root ++ Path.names directory := by
  have habsolute : Path.isAbsolute directory = false := by
    simpa [Path.isAbsolute] using h.relative
  rw [Path.resolveFrom, habsolute, if_neg Bool.false_ne_true,
    Path.foldl_follow_of_not_mem h.not_mem_split, Path.names]

/-- The names of a directory that stays inside are components of paths. -/
theorem StaysInside.isComponent (h : StaysInside directory) :
    ∀ name ∈ Path.names directory, Path.IsComponent name := by
  intro name hname
  obtain ⟨hmem, hkept⟩ := List.mem_filter.mp hname
  obtain ⟨hempty, hhere⟩ := of_decide_eq_true hkept
  refine ⟨⟨hempty, hhere, ?_⟩, Path.slash_not_mem_of_mem_split hmem⟩
  rintro rfl
  exact h.not_mem_split hmem

/-- Wherever a directory that stays inside is resolved, it leads to that place or below it. -/
theorem StaysInside.prefix_resolve (h : StaysInside directory) (workingDirectory root : String) :
    Path.names (Path.resolve workingDirectory root) <+:
      Path.names (Path.resolve (Path.resolve workingDirectory root) directory) := by
  have hroot : Path.resolveFrom [] (Path.resolve workingDirectory root) =
      Path.resolveFrom (Path.resolveFrom [] workingDirectory) root :=
    Path.resolveFrom_ofComponents (Path.isComponent_of_mem_resolveText workingDirectory root) []
  rw [Path.names_resolve, Path.names_resolve, hroot, h.resolveFrom_eq]
  exact List.prefix_append _ _

end

/-! ## Reading one setting -/

/-- What is read of the value that is given for a setting. -/
def readMember (name : String) (member : Value) : Except Failure (Option String) :=
  if name = "artifactDir" then readDirectory member name else member.readText name

/-- One setting read from the member of its name. -/
def readSetting (value : Value) (default : String × String) :
    Except Failure (String × String) := do
  let taken ← readMember default.1 (value.member default.1)
  return (default.1, taken.getD default.2)

section

variable {name : String} {member : Value} {failure : Failure}

theorem readMember_of_absent (h : member.isPresent = false) :
    readMember name member = .ok none := by
  cases member with
  | missing | null =>
      rw [readMember]
      split <;> rfl
  | bool _ | number _ | text _ | atom _ | list _ | object _ _ => cases h

theorem readDirectory_of_some {directory : String}
    (h : member.readText name = .ok (some directory)) :
    readDirectory member name = if StaysInside directory then .ok (some directory)
      else .error (.outsideRoot name directory) := by
  by_cases hinside : StaysInside directory
  · have hleaves : ¬leavesRoot directory = true := by
      simp [leavesRoot_eq_false_iff.mpr hinside]
    rw [readDirectory, h, if_pos hinside]
    exact (if_neg hleaves).trans rfl
  · have hleaves : leavesRoot directory = true := by
      rwa [← leavesRoot_eq_false_iff, Bool.not_eq_false] at hinside
    rw [readDirectory, h, if_neg hinside]
    exact (if_pos hleaves).trans rfl

theorem readMember_text (text : String) :
    readMember name (.text text) =
      if trim text = "" then .ok none
      else if name = "artifactDir" → StaysInside (trim text) then .ok (some (trim text))
      else .error (.outsideRoot name (trim text)) := by
  have hread : (Value.text text).readText name =
      .ok (if trim text = "" then none else some (trim text)) := rfl
  by_cases hblank : trim text = ""
  · rw [if_pos hblank] at hread ⊢
    rw [readMember, readDirectory, hread]
    split <;> rfl
  rw [if_neg hblank] at hread ⊢
  by_cases hname : name = "artifactDir"
  · rw [readMember, if_pos hname, readDirectory_of_some hread]
    simp only [hname, true_implies]
  · rw [readMember, if_neg hname, hread, if_pos fun h => absurd h hname]

theorem readMember_of_present (hpresent : member.isPresent = true)
    (hother : ∀ text, member ≠ .text text) :
    readMember name member = .error (.notText name) := by
  cases member with
  | missing | null => cases hpresent
  | text content => exact absurd rfl (hother content)
  | bool _ | number _ | atom _ | list _ | object _ _ =>
      rw [readMember]
      split <;> rfl

/-- A value given for a setting is absent, a text, or of no use. -/
theorem absent_or_text_or_other (member : Value) : member.isPresent = false ∨
    (∃ text, member = .text text) ∨
    member.isPresent = true ∧ ∀ text, member ≠ .text text := by
  cases member <;> simp [Value.isPresent]

theorem IsFault.realm_eq (h : IsFault name member failure) :
    failure.realm = .configuration := by
  cases h <;> rfl

theorem not_isFault_of_absent (h : member.isPresent = false) :
    ¬IsFault name member failure := by
  rintro (⟨hpresent, _⟩ | _)
  · exact absurd (hpresent.symm.trans h) (by decide)
  · cases h

theorem readMember_eq_error_iff :
    readMember name member = .error failure ↔ IsFault name member failure := by
  rcases absent_or_text_or_other member with habsent | ⟨text, rfl⟩ | ⟨hpresent, hother⟩
  · rw [readMember_of_absent habsent]
    constructor
    · rintro ⟨⟩
    · intro h
      exact absurd h (not_isFault_of_absent habsent)
  · rw [readMember_text]
    constructor
    · intro h
      split at h
      next => cases h
      next =>
        split at h
        next => cases h
        next houtside =>
          cases h
          obtain ⟨hname, houtside⟩ := Classical.not_imp.mp houtside
          exact .outsideRoot hname houtside
    · rintro (⟨_, hother⟩ | ⟨hname, houtside⟩)
      · exact absurd rfl (hother text)
      · have hfilled : trim text ≠ "" := by
          intro hblank
          rw [hblank] at houtside
          exact houtside (by decide)
        rw [if_neg hfilled, if_neg fun hinside => houtside (hinside hname)]
  · rw [readMember_of_present hpresent hother]
    constructor
    · rintro ⟨⟩
      exact .notText hpresent hother
    · rintro (_ | _)
      · rfl
      · exact absurd rfl (hother _)

/-- A setting that was read is the given text, if there is one, and a proper one. -/
theorem isTaken_of_readMember {taken : Option String} (default : String)
    (h : readMember name member = .ok taken) :
    IsTaken default member (taken.getD default) ∧ ∀ setting ∈ taken, IsProper name setting := by
  rcases absent_or_text_or_other member with habsent | ⟨text, rfl⟩ | ⟨hpresent, hother⟩
  · rw [readMember_of_absent habsent] at h
    cases h
    exact ⟨.absent habsent, by simp⟩
  · rw [readMember_text] at h
    split at h
    next hblank =>
      cases h
      exact ⟨.blank hblank, by simp⟩
    next hfilled =>
      split at h
      next hinside =>
        cases h
        refine ⟨.given hfilled, ?_⟩
        rintro setting ⟨⟩
        exact ⟨hfilled, isTrimmed_trim text, hinside⟩
      next => cases h
  · rw [readMember_of_present hpresent hother] at h
    cases h

/-- A proper setting is read as it is. -/
theorem IsProper.readMember_eq {setting : String} (h : IsProper name setting) :
    readMember name (.text setting) = .ok (some setting) := by
  rw [readMember_text, trim_eq_self_iff.mpr h.trimmed, if_neg h.filled, if_pos h.inside]

end

/-! ## Reading all settings -/

section

variable {value : Value} {config : Config} {failure : Failure}

theorem entries_injective : Function.Injective entries := by
  rintro ⟨⟩ ⟨⟩ h
  simpa [entries] using h

theorem eq_of_map_entries {result other : Except Failure Config}
    (h : entries <$> result = entries <$> other) : result = other := by
  cases result with
  | error failure =>
      cases other with
      | error cause =>
          cases h
          rfl
      | ok config => cases h
  | ok config =>
      cases other with
      | error cause => cases h
      | ok config' => rw [entries_injective (Except.ok.inj h)]

/-- The settings of an object are read one by one; where nothing is given, all are defaults. -/
theorem entries_parse
    (h : value.isPresent = false ∨ ∃ kind members, value = .object kind members) :
    entries <$> parse value = ({} : Config).entries.mapM (readSetting value) := by
  rcases h with habsent | ⟨kind, members, rfl⟩
  · cases value with
    | missing | null => rfl
    | bool _ | number _ | text _ | atom _ | list _ | object _ _ => cases habsent
  · have hmembers : (Value.object kind members).asObject "ams-jobs config" = pure members := rfl
    simp [parse, Value.present?, hmembers, readSetting, entries, Value.member, Value.members,
      readMember]

theorem parse_of_other (hpresent : value.isPresent = true)
    (hother : ∀ kind members, value ≠ .object kind members) :
    parse value = .error (.notObject "ams-jobs config") := by
  cases value with
  | missing | null => cases hpresent
  | object kind members => exact absurd rfl (hother kind members)
  | bool _ | number _ | text _ | atom _ | list _ => rfl

theorem absent_or_object_or_other (value : Value) :
    (value.isPresent = false ∨ ∃ kind members, value = .object kind members) ∨
      value.isPresent = true ∧ ∀ kind members, value ≠ .object kind members := by
  cases value <;> simp [Value.isPresent]

theorem mapM_readSetting_of_parse (h : parse value = .ok config) :
    ({} : Config).entries.mapM (readSetting value) = .ok config.entries := by
  rcases absent_or_object_or_other value with hsettings | ⟨hpresent, hother⟩
  · rw [← entries_parse hsettings, h]
    rfl
  · rw [parse_of_other hpresent hother] at h
    cases h

theorem isSafe_default : ({} : Config).IsSafe := by
  have hproper : ∀ entry ∈ ({} : Config).entries,
      entry.2 ≠ "" ∧ trim entry.2 = entry.2 ∧ StaysInside entry.2 := by
    decide
  intro entry hentry
  obtain ⟨hfilled, htrimmed, hinside⟩ := hproper entry hentry
  exact ⟨hfilled, trim_eq_self_iff.mp htrimmed, fun _ => hinside⟩

theorem isSafe_of_parse (h : parse value = .ok config) : config.IsSafe := by
  intro entry hentry
  obtain ⟨default, hdefault, hread⟩ := exists_of_mem_mapM (mapM_readSetting_of_parse h) hentry
  obtain ⟨taken, htaken, hread⟩ := exists_of_bind_eq_ok hread
  cases hread
  cases taken with
  | none => exact isSafe_default default hdefault
  | some setting => exact (isTaken_of_readMember default.2 htaken).2 setting rfl

theorem isTakenFrom_of_parse (h : parse value = .ok config) : config.IsTakenFrom value := by
  refine (mapM_eq_ok_iff_forall₂.mp (mapM_readSetting_of_parse h)).imp fun default entry hread => ?_
  obtain ⟨taken, htaken, hread⟩ := exists_of_bind_eq_ok hread
  cases hread
  exact ⟨rfl, (isTaken_of_readMember default.2 htaken).1⟩

theorem IsSafe.staysInside (h : config.IsSafe) : StaysInside config.artifactDir :=
  (h ("artifactDir", config.artifactDir) (by simp [entries])).inside rfl

theorem member_toTable (config : Config) :
    ∀ entry ∈ config.entries, (Value.table config.toTable).member entry.1 = .text entry.2 := by
  simp [entries, toTable, Value.member, Value.members, Dict.get?_cons]

/-- Safe settings are read as they are. -/
theorem IsSafe.parse_toTable (h : config.IsSafe) :
    parse (.table config.toTable) = .ok config := by
  have hread : ∀ entry ∈ config.entries, ∀ default,
      readSetting (.table config.toTable) (entry.1, default) = .ok entry := by
    intro entry hentry default
    rw [readSetting, member_toTable config entry hentry, (h entry hentry).readMember_eq]
    rfl
  refine eq_of_map_entries ((entries_parse (Or.inr ⟨_, _, rfl⟩)).trans ?_)
  refine mapM_eq_ok_iff_forall₂.mpr ?_
  simp only [entries, List.forall_mem_cons] at hread
  obtain ⟨hstdout, hstderr, hflavor, haffinity, hdirectory, _⟩ := hread
  exact .cons (hstdout _) (.cons (hstderr _) (.cons (hflavor _) (.cons (haffinity _)
    (.cons (hdirectory _) .nil))))

/-- Only the members that are settings matter. -/
theorem parse_congr {kind kind' : ObjectClass} {members members' : Dict Value}
    (h : ∀ name ∈ settingNames,
      (Value.object kind members).member name = (Value.object kind' members').member name) :
    parse (.object kind members) = parse (.object kind' members') := by
  refine eq_of_map_entries ?_
  rw [entries_parse (Or.inr ⟨_, _, rfl⟩), entries_parse (Or.inr ⟨_, _, rfl⟩)]
  refine mapM_congr fun default hdefault => ?_
  rw [readSetting, readSetting, h default.1 (List.mem_map_of_mem hdefault)]

theorem readSetting_eq_error_iff {default : String × String} :
    readSetting value default = .error failure ↔
      IsFault default.1 (value.member default.1) failure := by
  rw [← readMember_eq_error_iff, readSetting]
  cases readMember default.1 (value.member default.1) with
  | error cause =>
      constructor <;>
      · rintro ⟨⟩
        rfl
  | ok taken => constructor <;> rintro ⟨⟩

/-- Settings that are read one by one fail with the first that has a fault. -/
theorem mapM_readSetting_eq_error_iff :
    ({} : Config).entries.mapM (readSetting value) = .error failure ↔
      ∃ front name back, settingNames = front ++ name :: back ∧
        (∀ earlier ∈ front, ∀ other, ¬IsFault earlier (value.member earlier) other) ∧
        IsFault name (value.member name) failure := by
  have hread : ∀ default, (∃ entry, readSetting value default = .ok entry) ↔
      ∀ other, ¬IsFault default.1 (value.member default.1) other := by
    intro default
    simp only [← readSetting_eq_error_iff]
    cases readSetting value default <;> simp
  rw [mapM_eq_error_iff]
  constructor
  · rintro ⟨front, default, back, hsplit, hfront, hfault⟩
    refine ⟨front.map Prod.fst, default.1, back.map Prod.fst, ?_, ?_,
      readSetting_eq_error_iff.mp hfault⟩
    · rw [settingNames, hsplit, List.map_append, List.map_cons]
    · rw [List.forall_mem_map]
      exact fun earlier hearlier => (hread earlier).mp (hfront earlier hearlier)
  · rintro ⟨front, name, back, hnames, hfront, hfault⟩
    obtain ⟨before, after, hsplit, rfl, hafter⟩ := List.map_eq_append_iff.mp hnames
    obtain ⟨default, rest, rfl, rfl, rfl⟩ := List.map_eq_cons_iff.mp hafter
    rw [List.forall_mem_map] at hfront
    exact ⟨before, default, rest, hsplit,
      fun earlier hearlier => (hread earlier).mpr (hfront earlier hearlier),
      readSetting_eq_error_iff.mpr hfault⟩

theorem parse_eq_error_iff : parse value = .error failure ↔ IsRefused value failure := by
  rcases absent_or_object_or_other value with hsettings | ⟨hpresent, hother⟩
  · rw [← map_eq_error_iff (f := entries), entries_parse hsettings, mapM_readSetting_eq_error_iff]
    constructor
    · rintro ⟨front, name, back, hnames, hfront, hfault⟩
      exact .setting hnames hfront hfault
    · rintro (⟨hpresent, hother⟩ | ⟨hnames, hfront, hfault⟩)
      · rcases hsettings with habsent | ⟨kind, members, hobject⟩
        · exact absurd (hpresent.symm.trans habsent) (by decide)
        · exact absurd hobject (hother kind members)
      · exact ⟨_, _, _, hnames, hfront, hfault⟩
  · rw [parse_of_other hpresent hother]
    constructor
    · rintro ⟨⟩
      exact .notObject hpresent hother
    · rintro (_ | ⟨_, _, hfault⟩)
      · rfl
      · have habsent : ∀ name, (value.member name).isPresent = false := by
          intro name
          cases value with
          | object kind members => exact absurd rfl (hother kind members)
          | missing | null | bool _ | number _ | text _ | atom _ | list _ => rfl
        exact absurd hfault (not_isFault_of_absent (habsent _))

theorem IsRefused.realm_eq (h : IsRefused value failure) : failure.realm = .configuration := by
  cases h with
  | notObject => rfl
  | setting _ _ hfault => exact hfault.realm_eq

end

/--
What every value is read as.  Settings that were read come each from the member of its name
or are defaults, are proper, and are read again as they are; wherever the directory for
artifacts is resolved, it leads to that place or below it.  A value is refused only as no
object or for the first fault of a setting, always as a matter of configuration.  Members
that are no settings have no influence.
-/
theorem parse_cases (value : Value) :
    (∀ config, parse value = .ok config →
      config.IsTakenFrom value ∧ config.IsSafe ∧ parse (.table config.toTable) = .ok config ∧
      ∀ workingDirectory root, Path.names (Path.resolve workingDirectory root) <+:
        Path.names (Path.resolve (Path.resolve workingDirectory root) config.artifactDir)) ∧
    (∀ failure, parse value = .error failure ↔ IsRefused value failure) ∧
    (∀ failure, parse value = .error failure → failure.realm = .configuration) ∧
    ∀ kind members kind' members', value = .object kind members →
      (∀ name ∈ settingNames, value.member name = (Value.object kind' members').member name) →
      parse (.object kind' members') = parse value := by
  refine ⟨fun config h => ?_, fun failure => parse_eq_error_iff,
    fun failure h => (parse_eq_error_iff.mp h).realm_eq, ?_⟩
  · have hsafe := isSafe_of_parse h
    exact ⟨isTakenFrom_of_parse h, hsafe, hsafe.parse_toTable, hsafe.staysInside.prefix_resolve⟩
  · rintro kind members kind' members' rfl h
    exact (parse_congr h).symm

example :
    parse (.table [("mpiFlavor", .text " "), ("artifactDir", .text "a/.. ")]) =
      .error (.outsideRoot "artifactDir" "a/..") := by
  decide

end Config

end Dispatch
