import Dispatch.Sorting.Search

/-!
# Merging two runs

Two runs are merged from the front or from the back, whichever leaves the shorter
run to be moved out of the way.  `Direction` holds what differs between the two; in
both, the runs are lists with the element that is placed next in front.

Merging goes element by element until one run has won often in a row.  Then it
gallops: it looks up how many elements of a run come next and places them together.
How many wins that takes is the patience, which grows when galloping does not pay
and shrinks while it does.
-/

namespace Dispatch.Sorting

variable {α : Type}

/-- How two runs are merged from one of their ends. -/
structure Direction (α : Type) where
  /-- Whether the second run's next element comes before the first run's. -/
  takesSecond : α → α → Bool
  /-- The rest of the merge, once it needs no more comparisons. -/
  settled? : List α → List α → Option (List α)
  /-- How many elements of the first run come before an element of the second. -/
  firstWins : α → List α → Nat
  /-- How many elements of the second run come before an element of the first. -/
  secondWins : α → List α → Nat

/--
The rest of a merge in which the last element of the shorter run is known to come
after all of the longer one.
-/
def settle? : List α → List α → Option (List α)
  | shorter, [] => some shorter
  | [], longer => some longer
  | [final], longer => some (longer ++ [final])
  | _, _ => none

namespace Direction

/-- Merging from the front, where the first run is the shorter one. -/
def front (less : α → α → Bool) : Direction α where
  takesSecond first second := less second first
  settled? first second := settle? first second
  firstWins key first := placeBehind less key first 0
  secondWins key second := placeInFront less key second 0

/-- Merging from the back, where the second run is the shorter one. -/
def back (less : α → α → Bool) : Direction α where
  takesSecond first second := !less second first
  settled? first second := settle? second first
  firstWins key first :=
    first.length - placeBehind less key first.reverse (first.length - 1)
  secondWins key second :=
    second.length - placeInFront less key second.reverse (second.length - 1)

end Direction

/-- What comes next in a merge. -/
inductive Pace
  /-- One element, after so many wins in a row of either run. -/
  | steady (first second : Nat)
  /-- The first gallop after steady steps. -/
  | start
  /-- A gallop after one that paid. -/
  | again
  /-- A steady step after a gallop that did not pay. -/
  | stop

namespace Pace

/-- How many wins in a row one gallop must find for another to follow. -/
def worthwhile : Nat :=
  7

/-- The patience at a pace, from that before it. -/
def patience (before : Nat) : Pace → Nat
  | .steady _ _ | .start => before
  | .again => max 1 (before - 1)
  | .stop => before + 1

end Pace

/-- How far a merge has come. -/
structure Progress (α : Type) where
  placed : List α
  first : List α
  second : List α
  pace : Pace

namespace Direction

/-- Places one element. -/
def step (direction : Direction α) (patience firstRow secondRow : Nat)
    (first second : List α) : Progress α :=
  match first, second with
  | x :: first', y :: second' =>
    if direction.takesSecond x y then
      ⟨[y], first, second',
        if patience ≤ secondRow + 1 then .start else .steady 0 (secondRow + 1)⟩
    else
      ⟨[x], first', second,
        if patience ≤ firstRow + 1 then .start else .steady (firstRow + 1) 0⟩
  | _, _ => ⟨[], first, second, .stop⟩

/--
Places what comes next of the first run, one element of the second, what comes next
of the second, and one element of the first, and ends early where that settles the
merge.
-/
def leap (direction : Direction α) (first second : List α) : Progress α :=
  match second with
  | [] => ⟨[], first, second, .stop⟩
  | y :: second' =>
    let wins := direction.firstWins y first
    let placed := first.take wins
    let first := first.drop wins
    if (direction.settled? first second).isSome then ⟨placed, first, second, .stop⟩
    else match first with
    | [] => ⟨placed, first, second, .stop⟩
    | x :: first' =>
      let placed := placed ++ [y]
      if (direction.settled? first second').isSome then ⟨placed, first, second', .stop⟩
      else
        let wins' := direction.secondWins x second'
        let placed := placed ++ second'.take wins'
        let second := second'.drop wins'
        if (direction.settled? first second).isSome then ⟨placed, first, second, .stop⟩
        else
          ⟨placed ++ [x], first', second,
            if Pace.worthwhile ≤ wins ∨ Pace.worthwhile ≤ wins' then .again else .stop⟩

/--
Merges two runs at a pace and answers the patience at the end.  Every step places an
element, so the first argument need not exceed their number.
-/
def merge (direction : Direction α) : Nat → Pace → Nat → List α → List α → List α × Nat
  | 0, _, patience, first, second => (first ++ second, patience)
  | fuel + 1, pace, patience, first, second =>
    match direction.settled? first second with
    | some rest => (rest, patience)
    | none =>
      let patience := pace.patience patience
      let progress := match pace with
        | .steady firstRow secondRow =>
          direction.step patience firstRow secondRow first second
        | .stop => direction.step patience 0 0 first second
        | .start | .again => direction.leap first second
      let (rest, patience) :=
        direction.merge fuel progress.pace patience progress.first progress.second
      (progress.placed ++ rest, patience)

end Direction

/-- Merges two runs of which the second begins with the smallest element. -/
def mergeFromFront (less : α → α → Bool) (patience : Nat) (first second : List α) :
    List α × Nat :=
  let fuel := first.length + second.length
  let (rest, patience) :=
    (Direction.front less).merge fuel (.steady 0 0) patience first second.tail
  (second.take 1 ++ rest, patience)

/-- Merges two runs of which the first ends with the largest element. -/
def mergeFromBack (less : α → α → Bool) (patience : Nat) (first second : List α) :
    List α × Nat :=
  let fuel := first.length + second.length
  let (rest, patience) := (Direction.back less).merge fuel (.steady 0 0) patience
    first.reverse.tail second.reverse
  ((first.reverse.take 1 ++ rest).reverse, patience)

/--
Merges two runs.  What is in place already, at the front of the first and at the back
of the second, is left there.
-/
def mergeRuns (less : α → α → Bool) (patience : Nat) (first second : List α) :
    List α × Nat :=
  match second with
  | [] => (first, patience)
  | smallest :: _ =>
    let ahead := placeBehind less smallest first 0
    let moved := first.drop ahead
    match moved.getLast? with
    | none => (first ++ second, patience)
    | some largest =>
      let behind := placeInFront less largest second (second.length - 1)
      if behind = 0 then (first ++ second, patience)
      else
        let passed := second.take behind
        let (merged, patience) :=
          if moved.length ≤ passed.length then mergeFromFront less patience moved passed
          else mergeFromBack less patience moved passed
        (first.take ahead ++ merged ++ second.drop behind, patience)

end Dispatch.Sorting
