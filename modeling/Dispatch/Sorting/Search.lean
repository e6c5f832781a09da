/-!
# Searching sorted positions

A search finds the first position from which on a condition holds.  `bisect` halves
the positions between two bounds.  `gallop` begins at a hint and looks at distances
that double, so that a place near the hint is found with few looks.

The condition need not be monotone.  Then there is no first position in that sense,
and the answer is a position where the condition begins to hold.
-/

namespace Dispatch.Sorting

/-- A position between bounds where a condition begins to hold. -/
def bisect (holds : Nat → Bool) (lower upper : Nat) : Nat :=
  if lower < upper then
    let middle := lower + (upper - lower) / 2
    if holds middle then bisect holds lower middle else bisect holds (middle + 1) upper
  else upper
termination_by upper - lower

/--
Doubles a distance as long as a condition holds there.  The answer is the last
distance where it did and the next one, which is at most the limit.
-/
def stride (holds : Nat → Bool) (limit last next : Nat) : Nat × Nat :=
  if next < limit ∧ holds next = true then stride holds limit next (2 * next + 1)
  else (last, min next limit)
termination_by limit - next

/-- A position among so many where a condition begins to hold, sought from a hint. -/
def gallop (holds : Nat → Bool) (count hint : Nat) : Nat :=
  if holds hint then
    let (near, far) := stride (fun distance => holds (hint - distance)) (hint + 1) 0 1
    bisect holds (hint + 1 - far) (hint - near)
  else
    let (near, far) := stride (fun distance => !holds (hint + distance)) (count - hint) 0 1
    bisect holds (hint + near + 1) (hint + far)

variable {α : Type}

/-- Whether a key goes before the element at a position. -/
def goesBefore (less : α → α → Bool) (key : α) (run : List α) (position : Nat) : Bool :=
  match run[position]? with
  | some other => less key other
  | none => true

/-- Whether the element at a position does not go before a key. -/
def staysBehind (less : α → α → Bool) (key : α) (run : List α) (position : Nat) : Bool :=
  match run[position]? with
  | some other => !less other key
  | none => true

/-- The place of a key in a run, behind the elements equal to it. -/
def placeBehind (less : α → α → Bool) (key : α) (run : List α) (hint : Nat) : Nat :=
  gallop (goesBefore less key run) run.length hint

/-- The place of a key in a run, in front of the elements equal to it. -/
def placeInFront (less : α → α → Bool) (key : α) (run : List α) (hint : Nat) : Nat :=
  gallop (staysBehind less key run) run.length hint

/-- A run with an element inserted behind those equal to it. -/
def insertInto (less : α → α → Bool) (run : List α) (element : α) : List α :=
  let place := bisect (goesBefore less element run) 0 run.length
  run.take place ++ element :: run.drop place

end Dispatch.Sorting
