import Dispatch.Path

/-!
# File trees

A file tree binds absolute paths, as lists of components, to files and
directories.  The root is always a directory.  Every operation either gives a
changed tree or fails with the reason and no change.

`get?_put` says what a changed tree answers.

Paths that come as text are followed name by name with `FileTree.locate`, so that
`..` leaves the directory that was really reached.
-/

namespace Dispatch

/-- Why an operation on files fails. -/
inductive FileError
  | notFound
  | occupied
  | notDirectory
  | isDirectory
deriving DecidableEq

/-- What a path is bound to. -/
inductive FileNode
  | file (bytes : List UInt8)
  | directory
deriving DecidableEq

/-- A tree of files and directories below the root. -/
structure FileTree where
  entries : List (List String × FileNode)

namespace FileTree

/-- The tree with nothing below its root. -/
def empty : FileTree :=
  ⟨[]⟩

/-- What is bound to a path. -/
def get? (tree : FileTree) (path : List String) : Option FileNode :=
  if path = [] then some .directory else List.lookup path tree.entries

/-- Entries with a path bound anew. -/
def bind (path : List String) (node : FileNode) :
    List (List String × FileNode) → List (List String × FileNode)
  | [] => [(path, node)]
  | (p, n) :: rest => if p = path then (path, node) :: rest else (p, n) :: bind path node rest

/-- The tree with a path bound to a file or directory. -/
def put (tree : FileTree) (path : List String) (node : FileNode) : FileTree :=
  ⟨bind path node tree.entries⟩

/-- A bound path answers its new node, and every other path what it did before. -/
theorem lookup_bind (path : List String) (node : FileNode)
    (entries : List (List String × FileNode)) (other : List String) :
    List.lookup other (bind path node entries) =
      if other = path then some node else List.lookup other entries := by
  induction entries with
  | nil =>
    by_cases h : other = path
    · simp [bind, h]
    · simp [bind, List.lookup_cons, h, beq_eq_false_iff_ne.mpr h]
  | cons entry rest ih =>
    obtain ⟨p, n⟩ := entry
    by_cases hp : p = path
    · subst hp
      by_cases h : other = p
      · simp [bind, h]
      · simp [bind, List.lookup_cons, h, beq_eq_false_iff_ne.mpr h]
    · by_cases h : other = p
      · subst h
        simp [bind, hp]
      · simp [bind, List.lookup_cons, hp, ih, beq_eq_false_iff_ne.mpr h]

/-- A path that is put answers its new node, and every other path what it did before. -/
theorem get?_put (tree : FileTree) (path : List String) (node : FileNode) (other : List String)
    (hroot : path ≠ []) :
    (tree.put path node).get? other = if other = path then some node else tree.get? other := by
  by_cases h : other = []
  · subst h
    simp [get?, hroot.symm]
  · simp [get?, put, h, lookup_bind]

/-- Whether something can be bound directly below a path. -/
def checkDirectory (tree : FileTree) (path : List String) : Except FileError Unit :=
  match tree.get? path with
  | some .directory => .ok ()
  | some (.file _) => .error .notDirectory
  | none => .error .notFound

/-- Whether every directory on the way to a path is there, starting below `walked`. -/
def checkParents (tree : FileTree) (walked : List String) : List String → Except FileError Unit
  | [] => .ok ()
  | [_] => tree.checkDirectory walked
  | name :: rest => do
    tree.checkDirectory walked
    tree.checkParents (walked ++ [name]) rest

/-- The bytes of a file. -/
def read (tree : FileTree) (path : List String) : Except FileError (List UInt8) := do
  tree.checkParents [] path
  match tree.get? path with
  | some (.file bytes) => .ok bytes
  | some .directory => .error .isDirectory
  | none => .error .notFound

/-- Writes a file, in place of one that is there. -/
def write (tree : FileTree) (path : List String) (bytes : List UInt8) :
    Except FileError FileTree := do
  tree.checkParents [] path
  match tree.get? path with
  | some .directory => .error .isDirectory
  | _ => .ok (tree.put path (.file bytes))

/-- Writes a file where nothing is yet. -/
def writeNew (tree : FileTree) (path : List String) (bytes : List UInt8) :
    Except FileError FileTree := do
  tree.checkParents [] path
  match tree.get? path with
  | some _ => .error .occupied
  | none => .ok (tree.put path (.file bytes))

/--
Creates the directories from `walked` along further names that are missing.  A
file in the way is an error, a different one when it is the last name.
-/
def makeFrom (tree : FileTree) (walked : List String) : List String → Except FileError FileTree
  | [] => .ok tree
  | name :: rest =>
    if name = "" ∨ name = "." then tree.makeFrom walked rest
    else if name = ".." then tree.makeFrom walked.dropLast rest
    else
      let path := walked ++ [name]
      match tree.get? path with
      | some .directory => tree.makeFrom path rest
      | some (.file _) => .error (if rest = [] then .occupied else .notDirectory)
      | none => (tree.put path .directory).makeFrom path rest

/-- Creates a directory and all directories on the way to it that are missing. -/
def makeDirectory (tree : FileTree) (path : List String) : Except FileError FileTree :=
  tree.makeFrom [] path

/--
The components that names lead to from a directory.  Every name but the last must
lead to a directory; the last may lead nowhere.
-/
def locate (tree : FileTree) (walked : List String) : List String → Except FileError (List String)
  | [] => .ok walked
  | name :: rest => do
    tree.checkDirectory walked
    if name = "" ∨ name = "." then tree.locate walked rest
    else if name = ".." then tree.locate walked.dropLast rest
    else tree.locate (walked ++ [name]) rest

/-- The components that a path given as text leads to in a working directory. -/
def locateText (tree : FileTree) (workingDirectory : List String) (text : String) :
    Except FileError (List String) :=
  if text = "" then .error .notFound
  else tree.locate (if Path.isAbsolute text then [] else workingDirectory) (Path.split text)

/-- Whether a path given as text leads to a file or directory. -/
def reaches (tree : FileTree) (workingDirectory : List String) (text : String) : Bool :=
  match tree.locateText workingDirectory text with
  | .ok path => (tree.get? path).isSome
  | .error _ => false

/-- The bytes of the file that a path given as text leads to. -/
def readText (tree : FileTree) (workingDirectory : List String) (text : String) :
    Except FileError (List UInt8) := do
  tree.read (← tree.locateText workingDirectory text)

end FileTree

end Dispatch
