import Dispatch.Text.Split

/-!
# Paths

A path is a text of names between slashes.  Resolving one against a working
directory gives an absolute path without empty names, `.` or `..`: its
components.  The empty list of components is the root.

`Path.isInside` says whether one path leads into another.  It looks at the text
of the relative path between them, which must not begin with two dots.
-/

namespace Dispatch.Path

/-- The names between the slashes of a text, empty ones included. -/
def split (text : String) : List String :=
  splitText (· == '/') text

/-- Whether a path begins at the root. -/
def isAbsolute (text : String) : Bool :=
  text.toList.head? == some '/'

/-- Whether a path has a slash at its end. -/
def endsWithSlash (text : String) : Bool :=
  text.toList.getLast? == some '/'

/-- One name followed from a directory; above the root there is only the root. -/
def follow (directory : List String) (name : String) : List String :=
  if name = "" ∨ name = "." then directory
  else if name = ".." then directory.dropLast
  else directory ++ [name]

/-- The components reached from a directory. -/
def resolveFrom (directory : List String) (text : String) : List String :=
  if isAbsolute text then (split text).foldl follow [] else (split text).foldl follow directory

/-- The absolute path with given components. -/
def ofComponents (components : List String) : String :=
  "/" ++ "/".intercalate components

/-- The absolute path that a text means in a working directory. -/
def resolve (workingDirectory text : String) : String :=
  ofComponents (resolveFrom (resolveFrom [] workingDirectory) text)

/-- What both lists have in front taken away from each. -/
def dropCommon : List String → List String → List String × List String
  | a :: as, b :: bs => if a = b then dropCommon as bs else (a :: as, b :: bs)
  | as, bs => (as, bs)

/-- The path that leads from one list of components to another. -/
def relative (base target : List String) : String :=
  let (up, down) := dropCommon base target
  "/".intercalate (up.map (fun _ => "..") ++ down)

/-- Whether a relative path stays below where it starts. -/
def staysBelow (relative : String) : Bool :=
  relative == "" || (!(['.', '.'].isPrefixOf relative.toList) && !isAbsolute relative)

/-- Whether a path is another one or inside it, both taken in a working directory. -/
def isInside (workingDirectory base candidate : String) : Bool :=
  let directory := resolveFrom [] workingDirectory
  staysBelow (relative (resolveFrom directory base) (resolveFrom directory candidate))

/-- One name followed on a relative path, which may leave its start. -/
def followRelative (names : List String) (name : String) : List String :=
  if name = "" ∨ name = "." then names
  else if name = ".." then
    match names.getLast? with
    | none | some ".." => names ++ [".."]
    | some _ => names.dropLast
  else names ++ [name]

/-- The shortest text for a path, with a slash at the end if it had one. -/
def normalize (text : String) : String :=
  let names := split text
  let body :=
    if isAbsolute text then "/" ++ "/".intercalate (names.foldl follow [])
    else "/".intercalate (names.foldl followRelative [])
  let body := if body = "" then "." else body
  if endsWithSlash text && !endsWithSlash body then body ++ "/" else body

/-- A path continued by another text. -/
def join (path text : String) : String :=
  if path = "" then (if text = "" then "." else normalize text)
  else if text = "" then normalize path
  else normalize (path ++ "/" ++ text)

end Dispatch.Path
