import Dispatch.Failure
import Dispatch.Number.Text

/-!
# Commands

A command is an executable with its arguments.  Flags come first, each followed by
its value, then the positional arguments; texts, booleans and finite numbers can
be arguments.

`Command.line` writes a command so that a POSIX shell reads the same words back.
-/

namespace Dispatch

/-- An executable and its arguments. -/
abbrev Command := List String

namespace Command

/-- The text of an argument. -/
def argument : Value → Except Failure String
  | .text value => .ok value
  | .bool value => .ok (if value then "true" else "false")
  | .number value => if value.isFinite then .ok value.text else .error (.notFinite value.text)
  | value => .error (.unsupportedArgument value.typeName)

/-- A flag followed by its value. -/
def flag (entry : String × Value) : Except Failure (List String) := do
  return [entry.1, ← argument entry.2]

/-- The command of an executable with flags and positional arguments. -/
def build (executable : String) (positional : List Value) (flags : Dict Value) :
    Except Failure Command := do
  let flags ← flags.mapM flag
  let positional ← positional.mapM argument
  return executable :: flags.flatten ++ positional

/-- The characters that mean themselves to a shell. -/
def isSafe (c : Char) : Bool :=
  c.isAlphanum || "_@%+=:,./-".toList.contains c

/-- A word between single quotes; a single quote inside is put between double quotes. -/
def quotedWord (cs : List Char) : List Char :=
  '\x27' :: cs.flatMap (fun c =>
    if c = '\x27' then ['\x27', '\x22', '\x27', '\x22', '\x27'] else [c]) ++ ['\x27']

/-- A word as a shell reads it: as it is if that is safe, or quoted. -/
def wordChars (cs : List Char) : List Char :=
  if cs ≠ [] ∧ cs.all isSafe = true then cs else quotedWord cs

/-- A word as a shell reads it. -/
def quote (word : String) : String :=
  .ofList (wordChars word.toList)

/-- A command as one line. -/
def line (command : Command) : String :=
  " ".intercalate (command.map quote)

end Command

end Dispatch
