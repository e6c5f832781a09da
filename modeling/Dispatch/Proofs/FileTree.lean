import Dispatch.FileTree
import Mathlib.Data.List.Induction
import Mathlib.Tactic.Common

/-!
# What operations on file trees leave alone

A file can be read or written exactly when its directory is there.  Creating a
directory binds nothing but directories, only where nothing was bound, and only on
the way to the directory.

In a rooted tree everything that is bound stands in a directory.  There a file that is only
missing can be written once its directory was made.
-/

namespace Dispatch.FileTree

/-- A path is a directory, and so is everything on the way to it. -/
def IsDirectory (tree : FileTree) (path : List String) : Prop :=
  ∀ above, above <+: path → tree.get? above = some .directory

theorem checkDirectory_eq_ok_iff {tree : FileTree} {path : List String} :
    tree.checkDirectory path = .ok () ↔ tree.get? path = some .directory := by
  rw [checkDirectory]
  split
  next h => simp [h]
  next h => simp [h]
  next h => simp [h]

theorem checkParents_append_singleton (tree : FileTree) (walked names : List String)
    (last : String) :
    tree.checkParents walked (names ++ [last]) = .ok () ↔
      ∀ above, above <+: names → tree.get? (walked ++ above) = some .directory := by
  induction names generalizing walked with
  | nil => simp [checkParents, checkDirectory_eq_ok_iff]
  | cons name rest ih =>
      obtain ⟨second, more, hmore⟩ : ∃ second more, rest ++ [last] = second :: more :=
        List.exists_cons_of_ne_nil (by simp)
      have hstep : tree.checkParents walked (name :: rest ++ [last]) = .ok () ↔
          tree.checkDirectory walked = .ok () ∧
            tree.checkParents (walked ++ [name]) (rest ++ [last]) = .ok () := by
        rw [List.cons_append, hmore, checkParents]
        · cases tree.checkDirectory walked with
          | error error => simp [Bind.bind, Except.bind]
          | ok => simp [Bind.bind, Except.bind]
        · simp
      rw [hstep, checkDirectory_eq_ok_iff, ih]
      simp only [List.prefix_cons_iff]
      constructor
      · rintro ⟨hfirst, hrest⟩ above (rfl | ⟨above, rfl, habove⟩)
        · simpa using hfirst
        · simpa using hrest above habove
      · intro h
        refine ⟨by simpa using h [] (Or.inl rfl), fun above habove => ?_⟩
        simpa using h (name :: above) (Or.inr ⟨above, rfl, habove⟩)

/-- Something can be bound in a directory exactly when that is there. -/
theorem checkParents_eq_ok_iff {tree : FileTree} {directory : List String} (name : String) :
    tree.checkParents [] (directory ++ [name]) = .ok () ↔ tree.IsDirectory directory :=
  checkParents_append_singleton tree [] directory name

/-! ## Reading and writing -/

section

variable {tree tree' : FileTree} {directory : List String} {name : String} {bytes : List UInt8}

theorem read_eq_ok_iff : tree.read (directory ++ [name]) = .ok bytes ↔
    tree.IsDirectory directory ∧ tree.get? (directory ++ [name]) = some (.file bytes) := by
  rw [← checkParents_eq_ok_iff name, read]
  cases tree.checkParents [] (directory ++ [name]) with
  | error error => simp [Bind.bind, Except.bind]
  | ok =>
      simp only [Bind.bind, Except.bind, true_and]
      split
      next h => simp [h]
      next h => simp [h]
      next h => simp [h]

/-- What is read from a directory that is there depends on what is bound in it only. -/
theorem read_congr (hdirectory : tree.IsDirectory directory)
    (hdirectory' : tree'.IsDirectory directory)
    (hsame : tree'.get? (directory ++ [name]) = tree.get? (directory ++ [name])) :
    tree'.read (directory ++ [name]) = tree.read (directory ++ [name]) := by
  rw [read, read, (checkParents_eq_ok_iff name).mpr hdirectory,
    (checkParents_eq_ok_iff name).mpr hdirectory', hsame]

theorem read_eq_notFound (hdirectory : tree.IsDirectory directory)
    (hnone : tree.get? (directory ++ [name]) = none) :
    tree.read (directory ++ [name]) = .error .notFound := by
  rw [read, (checkParents_eq_ok_iff name).mpr hdirectory]
  simp only [Bind.bind, Except.bind, hnone]

theorem read_eq_isDirectory (hdirectory : tree.IsDirectory directory)
    (hthere : tree.get? (directory ++ [name]) = some .directory) :
    tree.read (directory ++ [name]) = .error .isDirectory := by
  rw [read, (checkParents_eq_ok_iff name).mpr hdirectory]
  simp only [Bind.bind, Except.bind, hthere]

theorem write_eq_ok_iff : tree.write (directory ++ [name]) bytes = .ok tree' ↔
    tree.IsDirectory directory ∧ tree.get? (directory ++ [name]) ≠ some .directory ∧
      tree' = tree.put (directory ++ [name]) (.file bytes) := by
  rw [← checkParents_eq_ok_iff name, write]
  cases tree.checkParents [] (directory ++ [name]) with
  | error error => simp [Bind.bind, Except.bind]
  | ok =>
      simp only [Bind.bind, Except.bind, true_and]
      split
      next h => simp [h]
      next h =>
        simp only [Except.ok.injEq]
        exact ⟨fun heq => ⟨fun hdir => h hdir, heq.symm⟩, fun heq => heq.2.symm⟩

theorem get?_put_concat (node : FileNode) (other : List String) :
    (tree.put (directory ++ [name]) node).get? other =
      if other = directory ++ [name] then some node else tree.get? other :=
  get?_put tree (directory ++ [name]) node other (by simp)

/-- A file put into a directory leaves the directory there. -/
theorem IsDirectory.put (h : tree.IsDirectory directory) (node : FileNode) :
    (tree.put (directory ++ [name]) node).IsDirectory directory := by
  intro above habove
  have hother : above ≠ directory ++ [name] := by
    rintro rfl
    have hlength := habove.length_le
    rw [List.length_append, List.length_singleton] at hlength
    omega
  rw [get?_put_concat, if_neg hother]
  exact h above habove

/-- A node put where nothing was leaves every directory there. -/
theorem IsDirectory.put_of_none {path place : List String} (h : tree.IsDirectory path)
    (hne : place ≠ []) (hnone : tree.get? place = none) (node : FileNode) :
    (tree.put place node).IsDirectory path := by
  intro above habove
  have hother : above ≠ place := by
    rintro rfl
    simp [h above habove] at hnone
  rw [get?_put tree place node above hne, if_neg hother]
  exact h above habove

/-- What was written is read. -/
theorem read_of_write (h : tree.write (directory ++ [name]) bytes = .ok tree') :
    tree'.read (directory ++ [name]) = .ok bytes := by
  obtain ⟨hdirectory, _, rfl⟩ := write_eq_ok_iff.mp h
  exact read_eq_ok_iff.mpr ⟨hdirectory.put _, by simp [get?_put_concat]⟩

theorem bind_eq_self {path : List String} {node : FileNode}
    {entries : List (List String × FileNode)} (h : List.lookup path entries = some node) :
    bind path node entries = entries := by
  induction entries with
  | nil => cases h
  | cons entry rest ih =>
      obtain ⟨p, n⟩ := entry
      by_cases hp : p = path
      · subst hp
        rw [List.lookup_cons_self, Option.some.injEq] at h
        rw [bind, if_pos rfl, h]
      · rw [List.lookup_cons, beq_eq_false_iff_ne.mpr (Ne.symm hp)] at h
        rw [bind, if_neg hp, ih h]

theorem put_eq_self {node : FileNode} (h : tree.get? (directory ++ [name]) = some node) :
    tree.put (directory ++ [name]) node = tree := by
  rw [get?, if_neg (by simp)] at h
  rw [put, bind_eq_self h]

/-- Writing the same once more changes nothing. -/
theorem write_again (h : tree.write (directory ++ [name]) bytes = .ok tree') :
    tree'.write (directory ++ [name]) bytes = .ok tree' := by
  obtain ⟨hdirectory, _, rfl⟩ := write_eq_ok_iff.mp h
  have hthere : (tree.put (directory ++ [name]) (.file bytes)).get? (directory ++ [name]) =
      some (.file bytes) := by
    rw [get?_put_concat, if_pos rfl]
  exact write_eq_ok_iff.mpr ⟨hdirectory.put _, by simp [hthere], (put_eq_self hthere).symm⟩

end

/-- A new file is written where nothing was bound. -/
theorem put_of_writeNew {tree tree' : FileTree} {path : List String} {bytes : List UInt8}
    (h : tree.writeNew path bytes = .ok tree') :
    path ≠ [] ∧ tree.get? path = none ∧ tree' = tree.put path (.file bytes) := by
  rw [writeNew] at h
  cases hparents : tree.checkParents [] path with
  | error error => simp [hparents, Bind.bind, Except.bind] at h
  | ok =>
      simp only [hparents, Bind.bind, Except.bind] at h
      split at h
      next => cases h
      next hnone =>
        cases h
        refine ⟨?_, hnone, rfl⟩
        rintro rfl
        simp [get?] at hnone

/-! ## Creating directories -/

/-- The second tree is the first with directories where nothing was bound. -/
def AddsDirectories (tree tree' : FileTree) : Prop :=
  ∀ path, tree'.get? path = tree.get? path ∨
    (tree.get? path = none ∧ tree'.get? path = some .directory)

theorem AddsDirectories.refl (tree : FileTree) : AddsDirectories tree tree :=
  fun _ => Or.inl rfl

theorem AddsDirectories.trans {tree tree' tree'' : FileTree} (h : AddsDirectories tree tree')
    (h' : AddsDirectories tree' tree'') : AddsDirectories tree tree'' := by
  intro path
  rcases h path with hsame | ⟨hnone, hmade⟩
  · rcases h' path with hsame' | ⟨hnone', hmade'⟩
    · exact Or.inl (hsame'.trans hsame)
    · exact Or.inr ⟨hsame ▸ hnone', hmade'⟩
  · rcases h' path with hsame' | ⟨hnone', _⟩
    · exact Or.inr ⟨hnone, hsame'.trans hmade⟩
    · simp [hmade] at hnone'

/-- What was bound stays bound to the same. -/
theorem AddsDirectories.get?_eq {tree tree' : FileTree} (h : AddsDirectories tree tree')
    {path : List String} {node : FileNode} (hnode : tree.get? path = some node) :
    tree'.get? path = some node := by
  rcases h path with hsame | ⟨hnone, _⟩
  · rw [hsame, hnode]
  · simp [hnone] at hnode

theorem AddsDirectories.isDirectory {tree tree' : FileTree} (h : AddsDirectories tree tree')
    {path : List String} (hpath : tree.IsDirectory path) : tree'.IsDirectory path :=
  fun above habove => h.get?_eq (hpath above habove)

/-- The files are the same before and after. -/
theorem AddsDirectories.file_iff {tree tree' : FileTree} (h : AddsDirectories tree tree')
    {path : List String} {bytes : List UInt8} :
    tree'.get? path = some (.file bytes) ↔ tree.get? path = some (.file bytes) := by
  constructor
  · intro hfile
    rcases h path with hsame | ⟨_, hmade⟩
    · rw [← hsame, hfile]
    · simp [hmade] at hfile
  · exact h.get?_eq

theorem addsDirectories_put {tree : FileTree} {directory : List String} {name : String}
    (h : tree.get? (directory ++ [name]) = none) :
    AddsDirectories tree (tree.put (directory ++ [name]) .directory) := by
  intro path
  by_cases hpath : path = directory ++ [name]
  · subst hpath
    exact Or.inr ⟨h, by simp [get?_put_concat]⟩
  · exact Or.inl (by rw [get?_put_concat, if_neg hpath])

/-- A name that leads from a directory to something in it. -/
def IsName (name : String) : Prop :=
  name ≠ "" ∧ name ≠ "." ∧ name ≠ ".."

theorem makeFrom_cons {name : String} (hname : IsName name) (tree : FileTree)
    (walked rest : List String) :
    tree.makeFrom walked (name :: rest) =
      match tree.get? (walked ++ [name]) with
      | some .directory => tree.makeFrom (walked ++ [name]) rest
      | some (.file _) => .error (if rest = [] then .occupied else .notDirectory)
      | none => (tree.put (walked ++ [name]) .directory).makeFrom (walked ++ [name]) rest := by
  obtain ⟨hempty, hhere, hup⟩ := hname
  rw [makeFrom]
  exact (if_neg (by simp [hempty, hhere])).trans (if_neg hup)

theorem addsDirectories_of_makeFrom {tree tree' : FileTree} {walked names : List String}
    (h : tree.makeFrom walked names = .ok tree') : AddsDirectories tree tree' := by
  induction names generalizing tree walked with
  | nil =>
      cases h
      exact AddsDirectories.refl _
  | cons name rest ih =>
      by_cases hname : IsName name
      · rw [makeFrom_cons hname] at h
        split at h
        next => exact ih h
        next => cases h
        next hnone => exact (addsDirectories_put hnone).trans (ih h)
      · rw [makeFrom] at h
        split at h
        next => exact ih h
        next hkept =>
          split at h
          next => exact ih h
          next hup => exact absurd ⟨fun h => hkept (Or.inl h), fun h => hkept (Or.inr h), hup⟩ hname

theorem addsDirectories_of_makeDirectory {tree tree' : FileTree} {path : List String}
    (h : tree.makeDirectory path = .ok tree') : AddsDirectories tree tree' :=
  addsDirectories_of_makeFrom h

/-- What is not on the way to a directory is left alone by its creation. -/
theorem get?_of_makeFrom {tree tree' : FileTree} {walked names : List String}
    (hnames : ∀ name ∈ names, IsName name) (h : tree.makeFrom walked names = .ok tree')
    {path : List String} (hpath : ¬path <+: walked ++ names) :
    tree'.get? path = tree.get? path := by
  induction names generalizing tree walked with
  | nil =>
      cases h
      rfl
  | cons name rest ih =>
      have hrest : ∀ name ∈ rest, IsName name := fun n hn => hnames n (List.mem_cons_of_mem _ hn)
      have hpath' : ¬path <+: walked ++ [name] ++ rest := by simpa using hpath
      rw [makeFrom_cons (hnames name (by simp))] at h
      split at h
      next => exact ih hrest h hpath'
      next => cases h
      next =>
        rw [ih hrest h hpath', get?_put_concat, if_neg]
        rintro rfl
        exact hpath' (List.prefix_append _ _)

theorem get?_of_makeDirectory {tree tree' : FileTree} {target : List String}
    (htarget : ∀ name ∈ target, IsName name) (h : tree.makeDirectory target = .ok tree')
    {path : List String} (hpath : ¬path <+: target) : tree'.get? path = tree.get? path :=
  get?_of_makeFrom htarget h (by simpa using hpath)

theorem isDirectory_nil (tree : FileTree) : tree.IsDirectory [] := by
  intro above habove
  rw [List.prefix_nil.mp habove]
  rfl

theorem IsDirectory.concat {tree : FileTree} {directory : List String} {name : String}
    (h : tree.IsDirectory directory)
    (hname : tree.get? (directory ++ [name]) = some .directory) :
    tree.IsDirectory (directory ++ [name]) := by
  intro above habove
  rcases List.prefix_concat_iff.mp habove with rfl | hbefore
  · exact hname
  · exact h above hbefore

/-- A directory that was created is there, with everything on the way to it. -/
theorem isDirectory_of_makeFrom {tree tree' : FileTree} {walked names : List String}
    (hnames : ∀ name ∈ names, IsName name) (hwalked : tree.IsDirectory walked)
    (h : tree.makeFrom walked names = .ok tree') : tree'.IsDirectory (walked ++ names) := by
  induction names generalizing tree walked with
  | nil =>
      cases h
      rwa [List.append_nil]
  | cons name rest ih =>
      have hrest : ∀ name ∈ rest, IsName name := fun n hn => hnames n (List.mem_cons_of_mem _ hn)
      have happend : walked ++ name :: rest = walked ++ [name] ++ rest := by simp
      rw [makeFrom_cons (hnames name (by simp))] at h
      rw [happend]
      split at h
      next hthere => exact ih hrest (hwalked.concat hthere) h
      next => cases h
      next =>
        have hput : (tree.put (walked ++ [name]) .directory).IsDirectory walked :=
          hwalked.put .directory
        exact ih hrest (hput.concat (by rw [get?_put_concat, if_pos rfl])) h

theorem isDirectory_of_makeDirectory {tree tree' : FileTree} {path : List String}
    (hpath : ∀ name ∈ path, IsName name) (h : tree.makeDirectory path = .ok tree') :
    tree'.IsDirectory path :=
  isDirectory_of_makeFrom hpath tree.isDirectory_nil h

/-- Creating a directory that is there changes nothing. -/
theorem makeFrom_eq_self {tree : FileTree} {walked names : List String}
    (hnames : ∀ name ∈ names, IsName name)
    (h : ∀ above, above <+: names → tree.get? (walked ++ above) = some .directory) :
    tree.makeFrom walked names = .ok tree := by
  induction names generalizing walked with
  | nil => rfl
  | cons name rest ih =>
      have hfirst : tree.get? (walked ++ [name]) = some .directory :=
        h [name] ⟨rest, rfl⟩
      rw [makeFrom_cons (hnames name (by simp)), hfirst]
      apply ih (fun n hn => hnames n (List.mem_cons_of_mem _ hn))
      intro above habove
      simpa using h (name :: above) (List.prefix_cons_inj name |>.mpr habove)

theorem makeDirectory_eq_self {tree : FileTree} {path : List String}
    (hpath : ∀ name ∈ path, IsName name) (h : tree.IsDirectory path) :
    tree.makeDirectory path = .ok tree :=
  makeFrom_eq_self hpath h

/-! ## Trees in which everything has its place -/

/-- Everything that is bound stands in a directory. -/
def IsRooted (tree : FileTree) : Prop :=
  ∀ directory name, tree.get? (directory ++ [name]) ≠ none → tree.get? directory = some .directory

theorem isRooted_empty : empty.IsRooted := by
  intro directory name h
  simp [empty, get?] at h

section

variable {tree tree' : FileTree} {directory : List String} {name : String}

/-- What is put into a directory does not take the place of another one. -/
theorem IsRooted.put (h : tree.IsRooted) (hdirectory : tree.get? directory = some .directory)
    {node : FileNode}
    (hplace : node = .directory ∨ tree.get? (directory ++ [name]) ≠ some .directory) :
    (tree.put (directory ++ [name]) node).IsRooted := by
  intro above other hbound
  have habove : tree.get? above = some .directory := by
    rw [get?_put_concat] at hbound
    split at hbound
    next hsame => rw [(List.append_inj' hsame rfl).1, hdirectory]
    next => exact h above other hbound
  rw [get?_put_concat]
  split
  next hsame =>
    rcases hplace with rfl | hplace
    · rfl
    · exact absurd (hsame ▸ habove) hplace
  next => exact habove

theorem IsRooted.isDirectory (h : tree.IsRooted) {path : List String}
    (hpath : tree.get? path = some .directory) : tree.IsDirectory path := by
  induction path using List.reverseRecOn with
  | nil => exact tree.isDirectory_nil
  | append_singleton above name ih =>
      have habove := ih (h above name (by simp [hpath]))
      exact habove.concat hpath

theorem IsRooted.makeFrom (h : tree.IsRooted) {walked names : List String}
    (hnames : ∀ name ∈ names, IsName name) (hwalked : tree.get? walked = some .directory)
    (hmade : tree.makeFrom walked names = .ok tree') : tree'.IsRooted := by
  induction names generalizing tree walked with
  | nil =>
      cases hmade
      exact h
  | cons name rest ih =>
      have hrest : ∀ name ∈ rest, IsName name := fun n hn => hnames n (List.mem_cons_of_mem _ hn)
      rw [makeFrom_cons (hnames name (by simp))] at hmade
      split at hmade
      next hthere => exact ih h hrest hthere hmade
      next => cases hmade
      next =>
        apply ih (h.put hwalked (Or.inl rfl)) hrest _ hmade
        rw [get?_put_concat, if_pos rfl]

/-- A directory can be made where no file is in the way. -/
theorem exists_makeFrom {walked names : List String} (hnames : ∀ name ∈ names, IsName name)
    (hfiles : ∀ above, above <+: names →
      ∀ bytes, tree.get? (walked ++ above) ≠ some (.file bytes)) :
    ∃ made, tree.makeFrom walked names = .ok made := by
  induction names generalizing tree walked with
  | nil => exact ⟨tree, rfl⟩
  | cons name rest ih =>
      have hrest : ∀ name ∈ rest, IsName name := fun n hn => hnames n (List.mem_cons_of_mem _ hn)
      have hbelow : ∀ above, above <+: rest →
          ∀ bytes, tree.get? (walked ++ [name] ++ above) ≠ some (.file bytes) := by
        intro above habove bytes
        rw [List.append_assoc]
        exact hfiles _ ((List.prefix_cons_inj name).mpr habove) bytes
      rw [makeFrom_cons (hnames name (by simp))]
      split
      next => exact ih hrest hbelow
      next bytes hfile => exact absurd hfile (hfiles [name] ⟨rest, rfl⟩ bytes)
      next =>
        apply ih hrest
        intro above habove bytes
        rw [get?_put_concat]
        split
        · simp
        · exact hbelow above habove bytes

/-- The way to a path begins with the way to any directory above it. -/
theorem checkParents_append {walked names rest : List String} (hrest : rest ≠ [])
    (h : ∀ above, above <+: names → above ≠ names →
      tree.get? (walked ++ above) = some .directory) :
    tree.checkParents walked (names ++ rest) = tree.checkParents (walked ++ names) rest := by
  induction names generalizing walked with
  | nil => rw [List.nil_append, List.append_nil]
  | cons name more ih =>
      obtain ⟨second, others, hothers⟩ : ∃ second others, more ++ rest = second :: others :=
        List.exists_cons_of_ne_nil (by simp [hrest])
      have hwalked : tree.get? walked = some .directory := by
        simpa using h [] (List.nil_prefix) (by simp)
      rw [List.cons_append, hothers, checkParents, checkDirectory_eq_ok_iff.mpr hwalked, ← hothers]
      · rw [List.append_cons walked name more]
        change tree.checkParents (walked ++ [name]) (more ++ rest) = _
        apply ih
        intro above habove hne
        simpa using h (name :: above) ((List.prefix_cons_inj name).mpr habove) (by simpa using hne)
      · simp

theorem checkParents_of_file {path rest : List String} {bytes : List UInt8} (hrest : rest ≠ [])
    (hfile : tree.get? path = some (.file bytes)) :
    tree.checkParents path rest = .error .notDirectory := by
  have hdirectory : tree.checkDirectory path = .error .notDirectory := by
    rw [checkDirectory, hfile]
  rcases rest with _ | ⟨first, _ | ⟨second, others⟩⟩
  · exact absurd rfl hrest
  · exact hdirectory
  · rw [checkParents, hdirectory]
    · rfl
    · simp

/-- No file is in the way of what is only missing. -/
theorem IsRooted.ne_file_of_read (h : tree.IsRooted)
    (hread : tree.read (directory ++ [name]) = .error .notFound) {above : List String}
    (habove : above <+: directory) (bytes : List UInt8) : tree.get? above ≠ some (.file bytes) := by
  intro hfile
  obtain ⟨more, rfl⟩ := habove
  rcases List.eq_nil_or_concat above with rfl | ⟨before, last, rfl⟩
  · simp [get?] at hfile
  rw [List.concat_eq_append] at hfile hread
  have hbefore := h.isDirectory (h before last (by simp [hfile]))
  have hparents : tree.checkParents [] (before ++ [last] ++ (more ++ [name])) =
      .error .notDirectory := by
    rw [checkParents_append (by simp)]
    · exact checkParents_of_file (by simp) hfile
    · intro path hpath hne
      rcases List.prefix_concat_iff.mp hpath with hsame | hpath
      · exact absurd hsame hne
      · exact hbefore path hpath
  rw [read, List.append_assoc, hparents] at hread
  cases hread

end

/-! ## Following names -/

/-- Names that lead from directories to something in them are followed one by one. -/
theorem eq_of_locate {tree : FileTree} {walked names path : List String}
    (hnames : ∀ name ∈ names, IsName name) (h : tree.locate walked names = .ok path) :
    path = walked ++ names := by
  induction names generalizing walked with
  | nil =>
      cases h
      exact (List.append_nil _).symm
  | cons name rest ih =>
      obtain ⟨hempty, hhere, hup⟩ := hnames name (by simp)
      rw [locate] at h
      cases hdirectory : tree.checkDirectory walked with
      | error error => simp [hdirectory, Bind.bind, Except.bind] at h
      | ok =>
          simp only [hdirectory, Bind.bind, Except.bind, hempty, hhere, hup, or_self,
            if_false] at h
          rw [ih (fun n hn => hnames n (List.mem_cons_of_mem _ hn)) h, List.append_assoc,
            List.singleton_append]

/-- The last name of a path that is followed stands at the end of what is reached. -/
theorem locate_append_singleton {tree : FileTree} {walked names path : List String}
    {last : String} (hlast : IsName last)
    (h : tree.locate walked (names ++ [last]) = .ok path) :
    ∃ directory, path = directory ++ [last] := by
  induction names generalizing walked with
  | nil =>
      rw [List.nil_append, locate] at h
      cases hdirectory : tree.checkDirectory walked with
      | error error => simp [hdirectory, Bind.bind, Except.bind] at h
      | ok =>
          obtain ⟨hempty, hhere, hup⟩ := hlast
          simp only [hdirectory, Bind.bind, Except.bind, hempty, hhere, hup, locate, or_self,
            if_false, Except.ok.injEq] at h
          exact ⟨walked, h.symm⟩
  | cons name rest ih =>
      rw [List.cons_append, locate] at h
      cases hdirectory : tree.checkDirectory walked with
      | error error => simp [hdirectory, Bind.bind, Except.bind] at h
      | ok =>
          simp only [hdirectory, Bind.bind, Except.bind] at h
          split at h
          next => exact ih h
          next =>
            split at h
            next => exact ih h
            next => exact ih h

end Dispatch.FileTree
