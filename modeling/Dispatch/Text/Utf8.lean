/-!
# Text in bytes

Files hold bytes.  A text is stored as its UTF-8 encoding.  Reading never fails:
every longest part of the bytes that starts an encoding but is not continued to
its end, and every byte that starts none, is read as the replacement character.

The reader is a machine that takes one byte at a time.  Its state is what an
encoding that has begun still asks for.
-/

namespace Dispatch.Utf8

/-- What stands for bytes that encode nothing. -/
def replacement : Char :=
  '\uFFFD'

/-- The bytes of a text. -/
def encode (s : String) : List UInt8 :=
  s.toList.flatMap String.utf8EncodeChar

/-- An encoding that has begun. -/
structure Pending where
  /-- The continuation bytes still to come. -/
  remaining : Nat
  /-- The smallest byte that may come next. -/
  lowest : UInt8
  /-- The largest byte that may come next. -/
  highest : UInt8
  /-- The bits of the character so far. -/
  bits : Nat
deriving DecidableEq

/-- A first byte either is a character, begins an encoding, or is neither. -/
def start (byte : UInt8) : Option Pending × List Char :=
  let n := byte.toNat
  if n < 0x80 then (none, [Char.ofNat n])
  else if n < 0xC2 then (none, [replacement])
  else if n < 0xE0 then (some ⟨1, 0x80, 0xBF, n - 0xC0⟩, [])
  else if n < 0xF0 then
    let lowest : UInt8 := if n = 0xE0 then 0xA0 else 0x80
    let highest : UInt8 := if n = 0xED then 0x9F else 0xBF
    (some ⟨2, lowest, highest, n - 0xE0⟩, [])
  else if n < 0xF5 then
    let lowest : UInt8 := if n = 0xF0 then 0x90 else 0x80
    let highest : UInt8 := if n = 0xF4 then 0x8F else 0xBF
    (some ⟨3, lowest, highest, n - 0xF0⟩, [])
  else (none, [replacement])

/-- One byte: the next state, and the characters that are now known. -/
def step (state : Option Pending) (byte : UInt8) : Option Pending × List Char :=
  match state with
  | none => start byte
  | some pending =>
    if pending.lowest ≤ byte ∧ byte ≤ pending.highest then
      let bits := pending.bits * 64 + (byte.toNat - 0x80)
      if pending.remaining ≤ 1 then (none, [Char.ofNat bits])
      else (some ⟨pending.remaining - 1, 0x80, 0xBF, bits⟩, [])
    else
      let (next, known) := start byte
      (next, replacement :: known)

/-- The characters of the bytes that follow in a state. -/
def decodeFrom (state : Option Pending) : List UInt8 → List Char
  | [] => if state.isSome then [replacement] else []
  | byte :: rest =>
    let (next, known) := step state byte
    known ++ decodeFrom next rest

/-- The text that bytes are read as. -/
def decode (bytes : List UInt8) : String :=
  String.ofList (decodeFrom none bytes)

end Dispatch.Utf8
