import Dispatch.Failure

/-!
# Checking values before use

A value that a schema accepts is used as it is, members that the schema does not
know included.  One that it refuses is reported with a label for what it should
have been, on behalf of the part of the system that wanted it.
-/

namespace Dispatch.Schema

/-- The value, if the schema accepts it. -/
def checkValue (schema : Schema) (value : Value) (label : String)
    (realm : Realm) : Except Failure Value :=
  match schema.check? value with
  | none => .ok value
  | some violation => .error (.refused realm label violation)

end Dispatch.Schema
