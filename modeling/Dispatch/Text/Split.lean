/-!
# Splitting texts

A text is split at every separator, so that one more part than separators comes
out, some of them possibly empty.
-/

namespace Dispatch

/-- The parts between separators, after the characters of the first part already read. -/
def splitCharsFrom (isSeparator : Char → Bool) (current : List Char) :
    List Char → List (List Char)
  | [] => [current.reverse]
  | c :: rest =>
    if isSeparator c then current.reverse :: splitCharsFrom isSeparator [] rest
    else splitCharsFrom isSeparator (c :: current) rest

/-- The parts of a text between separators. -/
def splitText (isSeparator : Char → Bool) (text : String) : List String :=
  (splitCharsFrom isSeparator [] text.toList).map String.ofList

end Dispatch
