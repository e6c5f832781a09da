import Dispatch.Failure
import Dispatch.Json.Printer

/-!
# Values as documents

`Json.write` is the whole way from a value to the text of a document.  It fails
only on large integers, and answers nothing for a value that a document cannot
hold at all.
-/

namespace Dispatch.Json

/-- The document of a value in a style. -/
def write (style : Style) (value : Value) : Except Failure (Option String) :=
  if value.isWritable then .ok (value.serial?.map (print style)) else .error .badOperand

/-- The document of a table in a style. -/
def writeTable (style : Style) (members : Dict Value) : Except Failure String := do
  return (← write style (.table members)).getD ""

end Dispatch.Json
