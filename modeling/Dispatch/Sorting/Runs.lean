import Dispatch.Sorting.Merging

/-!
# Sorting by runs

`sortByRuns` cuts a list into runs that are in order already, lengthens short runs by
insertion, and merges neighbours so that the lengths of the runs that wait stay
balanced.

For a comparison that is an order the outcome is the list in ascending order, with
equal elements in the order they had.  A comparison that is none has no such outcome;
then the result depends on which elements are compared, and it is the one that this
sequence of comparisons gives.
-/

namespace Dispatch.Sorting

variable {α : Type}

/-- The length of a list from which on it is sorted in several runs. -/
def runLimit : Nat :=
  64

/--
The least length of runs for a list.  It is halved until it is below the limit, and
rounded up once if anything was lost.
-/
def leastRun (length lost : Nat) : Nat :=
  if length < runLimit then length + lost else leastRun (length / 2) (max lost (length % 2))
termination_by length
decreasing_by unfold runLimit at *; omega

/-- The elements in front that continue a run, and the rest. -/
def continueRun (less : α → α → Bool) (descending : Bool) (last : α) :
    List α → List α × List α
  | [] => ([], [])
  | element :: rest =>
    if less element last == descending then
      let (run, rest) := continueRun less descending element rest
      (element :: run, rest)
    else ([], element :: rest)

/-- The run that a list begins with, in ascending order, and the rest of the list. -/
def naturalRun (less : α → α → Bool) : List α → List α × List α
  | a :: b :: rest =>
    let descending := less b a
    let (run, rest) := continueRun less descending b rest
    (if descending then (a :: b :: run).reverse else a :: b :: run, rest)
  | elements => (elements, [])

/-- A run of at least some length, if the list has as many elements, and the rest. -/
def nextRun (less : α → α → Bool) (least : Nat) (elements : List α) : List α × List α :=
  let (run, rest) := naturalRun less elements
  let missing := least - run.length
  ((rest.take missing).foldl (insertInto less) run, rest.drop missing)

/-- The runs that wait to be merged, the latest first, and the patience. -/
structure Pending (α : Type) where
  runs : List (List α)
  patience : Nat

namespace Pending

/-- Whether the latest runs are not longer than those before them together. -/
def isBalanced : List (List α) → Bool
  | z :: y :: x :: w :: _ =>
    decide (y.length + z.length < x.length) && decide (x.length + y.length < w.length)
  | [z, y, x] => decide (y.length + z.length < x.length)
  | _ => true

/-- The two latest runs merged. -/
def mergeLatest (less : α → α → Bool) (pending : Pending α) : Pending α :=
  match pending.runs with
  | z :: y :: rest =>
    let (run, patience) := mergeRuns less pending.patience y z
    ⟨run :: rest, patience⟩
  | _ => pending

/-- The two runs before the latest merged. -/
def mergeEarlier (less : α → α → Bool) (pending : Pending α) : Pending α :=
  match pending.runs with
  | z :: y :: x :: rest =>
    let (run, patience) := mergeRuns less pending.patience x y
    ⟨z :: run :: rest, patience⟩
  | _ => pending

/--
The middle one of the three latest runs merged with the shorter of its neighbours; of
equally long ones with the latest.
-/
def mergeShorter (less : α → α → Bool) (pending : Pending α) : Pending α :=
  match pending.runs with
  | z :: _ :: x :: _ =>
    if x.length < z.length then pending.mergeEarlier less else pending.mergeLatest less
  | _ => pending.mergeLatest less

/-- Merges runs until their lengths are balanced; every merge leaves one run less. -/
def balance (less : α → α → Bool) : Nat → Pending α → Pending α
  | 0, pending => pending
  | fuel + 1, pending =>
    match pending.runs with
    | z :: y :: _ =>
      if !isBalanced pending.runs then balance less fuel (pending.mergeShorter less)
      else if y.length ≤ z.length then balance less fuel (pending.mergeLatest less)
      else pending
    | _ => pending

/-- Merges all runs into one; every merge leaves one run less. -/
def mergeAll (less : α → α → Bool) : Nat → Pending α → List α
  | 0, pending => pending.runs.reverse.flatten
  | fuel + 1, pending =>
    match pending.runs with
    | _ :: _ :: _ => mergeAll less fuel (pending.mergeShorter less)
    | runs => runs.flatten

/-- A run added to those that wait. -/
def push (less : α → α → Bool) (pending : Pending α) (run : List α) : Pending α :=
  balance less (pending.runs.length + 1) { pending with runs := run :: pending.runs }

/-- All runs of a list added in turn; every run takes an element. -/
def pushAll (less : α → α → Bool) (least : Nat) : Nat → Pending α → List α → Pending α
  | 0, pending, _ => pending
  | _, pending, [] => pending
  | fuel + 1, pending, elements =>
    let (run, rest) := nextRun less least elements
    pushAll less least fuel (pending.push less run) rest

end Pending

/-- A list sorted by merging runs. -/
def sortByRuns (less : α → α → Bool) (elements : List α) : List α :=
  let pending := Pending.pushAll less (leastRun elements.length 0) elements.length
    ⟨[], Pace.worthwhile⟩ elements
  pending.mergeAll less pending.runs.length

end Dispatch.Sorting
