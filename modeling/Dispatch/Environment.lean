import Dispatch.Failure

/-!
# Environments

The environment of a job binds variables to texts.  It may be given as any plain
table of texts, on top of a base environment such as that of the calling process,
in which variables may be left undefined.
-/

namespace Dispatch

/-- Variables in order.  An environment from outside is validated before it becomes one. -/
abbrev Environment := Dict Value

namespace Environment

/-- Checks that a variable is bound to a text. -/
def checkVariable (field : String) (entry : String × Value) : Except Failure Unit :=
  match entry.2 with
  | .text _ => .ok ()
  | value => .error (.badVariable field entry.1 value.typeName)

/-- The environment in a value; an absent one is empty. -/
def validate (value : Value) (field : String) : Except Failure Environment :=
  match value with
  | .missing | .null => .ok []
  | .list _ => .error (.badEnvironment "array" field)
  | .object kind members =>
    if kind = .plain ∨ kind = .bare then do
      members.forM (checkVariable field)
      return Dict.assignAll [] members
    else .error (.badEnvironment kind.tag field)
  | value => .error (.badEnvironment value.typeName field)

/-- The variables of a base environment that are defined. -/
def defined (base : Dict Value) : Dict Value :=
  base.filter fun entry => match entry.2 with
    | .missing => false
    | _ => true

/-- An environment on top of a base environment, if there is one. -/
def onTopOf (environment : Environment) (base : Option (Dict Value)) : Environment :=
  match base with
  | none => environment
  | some base => (Dict.assignAll [] (defined base)).merge environment

end Environment

end Dispatch
