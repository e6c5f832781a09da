/-!
# Texts as sequences of sixteen-bit units

A text is a sequence of sixteen-bit units.  Most are the encoding of some characters, with
two surrogates for a character beyond the first plane, and such a text is the string of its
characters.  But any sequence is a text, also one in which a surrogate stands alone, and that
one encodes no characters.

`Text.ofUnits` gives every sequence a string of its own.  A sequence with a surrogate that
stands alone gets a mark, and behind it one character of the second plane for each unit.
A sequence whose characters look like that already gets one more mark in front.  So
no two sequences have the same string, and every string is that of one sequence, `textUnits`.
-/

namespace Dispatch

/-- The sixteen-bit units that encode a character. -/
def charUnits (c : Char) : List UInt16 :=
  let n := c.toNat
  if n < 0x10000 then [.ofNat n]
  else [.ofNat (0xD800 + (n - 0x10000) / 0x400), .ofNat (0xDC00 + (n - 0x10000) % 0x400)]

namespace Text

/-- A part of a text: a character, or a surrogate that stands alone. -/
inductive Point
  | char (c : Char)
  | lone (unit : UInt16)
deriving DecidableEq

/-- The units of a part. -/
def Point.units : Point → List UInt16
  | .char c => charUnits c
  | .lone unit => [unit]

/-- The character that a part is, unless it is a surrogate that stands alone. -/
def Point.char? : Point → Option Char
  | .char c => some c
  | .lone _ => none

/-- Whether a unit is the first of two surrogates. -/
def isFirst (unit : UInt16) : Bool :=
  0xD800 ≤ unit.toNat && unit.toNat < 0xDC00

/-- Whether a unit is the second of two surrogates. -/
def isSecond (unit : UInt16) : Bool :=
  0xDC00 ≤ unit.toNat && unit.toNat < 0xE000

/-- The character that two surrogates encode. -/
def pairChar (first second : UInt16) : Char :=
  .ofNat (0x10000 + (first.toNat - 0xD800) * 0x400 + (second.toNat - 0xDC00))

/-- What a unit is that is no half of a pair. -/
def single (unit : UInt16) : Point :=
  if isFirst unit || isSecond unit then .lone unit else .char (.ofNat unit.toNat)

/-- The parts of a sequence of units. -/
def points : List UInt16 → List Point
  | [] => []
  | [unit] => [single unit]
  | unit :: next :: rest =>
    if isFirst unit && isSecond next then .char (pairChar unit next) :: points rest
    else single unit :: points (next :: rest)

/-- The characters that units encode, unless a surrogate stands alone among them. -/
def chars? (units : List UInt16) : Option (List Char) :=
  (points units).mapM Point.char?

/-- What the string of a sequence that encodes no characters begins with. -/
def mark : Char :=
  .ofNat 0x10FFFF

/-- The character of the second plane that stands for a unit. -/
def unitChar (unit : UInt16) : Char :=
  .ofNat (0x10000 + unit.toNat)

/-- The unit that a character of the second plane stands for. -/
def charUnit (c : Char) : UInt16 :=
  .ofNat (c.toNat - 0x10000)

/-- Whether a character stands for a unit behind a mark. -/
def isUnitChar (c : Char) : Bool :=
  0x10000 ≤ c.toNat && c.toNat < 0x20000

/-- Whether characters have marks in front of what stands for a sequence that encodes none. -/
def isMarked (cs : List Char) : Bool :=
  let body := cs.dropWhile (· == mark)
  cs.head? == some mark && body.all isUnitChar && (chars? (body.map charUnit)).isNone

/-- The string of a sequence of units. -/
def ofUnits (units : List UInt16) : String :=
  match chars? units with
  | some cs => .ofList (if isMarked cs then mark :: cs else cs)
  | none => .ofList (mark :: units.map unitChar)

end Text

open Text in
/-- The sequence of units that a string is the text of. -/
def textUnits (s : String) : List UInt16 :=
  let cs := s.toList
  if isMarked cs then
    if isMarked cs.tail then cs.tail.flatMap charUnits else cs.tail.map charUnit
  else cs.flatMap charUnits

end Dispatch
