import Dispatch.Sorting.Runs
import Mathlib.Data.List.Perm.Basic
import Mathlib.Tactic.Common

/-!
# Sorting by runs keeps the elements

Whatever the comparison answers, `sortByRuns` gives a permutation of its input.  The
places that searches find decide only where a run is cut, and both parts are kept
wherever that is.

The lemmas count an arbitrary element, so that cut and moved parts add up.
-/

namespace Dispatch.Sorting

open List

variable {α : Type} [BEq α] (a : α) (less : α → α → Bool)

theorem count_take_add_count_drop (n : Nat) (l : List α) :
    count a (l.take n) + count a (l.drop n) = count a l := by
  rw [← count_append, take_append_drop]

theorem count_insertInto (run : List α) (element : α) :
    count a (insertInto less run element) = count a run + count a [element] := by
  have hcut := count_take_add_count_drop a
    (bisect (goesBefore less element run) 0 run.length) run
  simp only [insertInto, count_append, count_cons, count_nil] at hcut ⊢
  omega

/-! ## Merging -/

theorem count_of_settle? {shorter longer rest : List α} (h : settle? shorter longer = some rest) :
    count a rest = count a shorter + count a longer := by
  unfold settle? at h
  split at h
  next =>
    cases h
    simp
  next =>
    cases h
    simp
  next =>
    cases h
    simp [Nat.add_comm]
  next => cases h

namespace Direction

/-- A settled merge has all elements of both runs. -/
def Settles (direction : Direction α) : Prop :=
  ∀ first second rest, direction.settled? first second = some rest →
    ∀ a : α, count a rest = count a first + count a second

theorem settles_front : (front less).Settles :=
  fun _ _ _ h a => count_of_settle? a h

theorem settles_back : (back less).Settles := by
  intro first second rest h a
  rw [count_of_settle? a h, Nat.add_comm]

/-- The elements placed and left over. -/
def total (progress : Progress α) : Nat :=
  count a progress.placed + count a progress.first + count a progress.second

variable (direction : Direction α)

theorem total_step (patience firstRow secondRow : Nat) (first second : List α) :
    total a (direction.step patience firstRow secondRow first second) =
      count a first + count a second := by
  unfold step
  split
  next =>
    split
    next =>
      simp only [total, count_cons, count_nil]
      omega
    next =>
      simp only [total, count_cons, count_nil]
      omega
  next => simp [total]

theorem total_leap (first second : List α) :
    total a (direction.leap first second) = count a first + count a second := by
  cases second with
  | nil => simp [leap, total]
  | cons y second' =>
      simp only [leap]
      have hfirst := count_take_add_count_drop a (direction.firstWins y first) first
      generalize first.take (direction.firstWins y first) = placed at *
      generalize hrest : first.drop (direction.firstWins y first) = rest at *
      split
      next =>
        simp only [total]
        omega
      next =>
        cases rest with
        | nil =>
          simp only [total, count_nil] at hfirst ⊢
          omega
        | cons x rest' =>
          have hsecond := count_take_add_count_drop a (direction.secondWins x second') second'
          simp only [count_cons] at hfirst ⊢
          split
          next =>
            simp only [total, count_append, count_cons, count_nil]
            omega
          next =>
            split
            next =>
              simp only [total, count_append, count_cons, count_nil]
              omega
            next =>
              simp only [total, count_append, count_cons, count_nil]
              omega

/-- A merge keeps all elements of both runs. -/
theorem count_merge (hsettles : direction.Settles) (fuel : Nat) (pace : Pace) (patience : Nat)
    (first second : List α) :
    count a (direction.merge fuel pace patience first second).1 =
      count a first + count a second := by
  induction fuel generalizing pace patience first second with
  | zero => simp [merge]
  | succ fuel ih =>
      rw [merge]
      split
      next hrest => exact hsettles _ _ _ hrest a
      next =>
        simp only [count_append, ih]
        cases pace with
        | steady firstRow secondRow =>
            have h := total_step a direction (Pace.patience patience (.steady firstRow secondRow))
              firstRow secondRow first second
            simp only [total] at h ⊢
            omega
        | stop =>
            have h := total_step a direction (Pace.patience patience .stop) 0 0 first second
            simp only [total] at h ⊢
            omega
        | start =>
            have h := total_leap a direction first second
            simp only [total] at h ⊢
            omega
        | again =>
            have h := total_leap a direction first second
            simp only [total] at h ⊢
            omega

end Direction

theorem count_take_one_add_count_tail (l : List α) :
    count a (l.take 1) + count a l.tail = count a l := by
  rw [← drop_one, count_take_add_count_drop]

theorem count_mergeFromFront (patience : Nat) (first second : List α) :
    count a (mergeFromFront less patience first second).1 = count a first + count a second := by
  have hsecond := count_take_one_add_count_tail a second
  simp only [mergeFromFront, count_append,
    Direction.count_merge a _ (Direction.settles_front less)]
  omega

theorem count_mergeFromBack (patience : Nat) (first second : List α) :
    count a (mergeFromBack less patience first second).1 = count a first + count a second := by
  have hfirst := count_take_one_add_count_tail a first.reverse
  simp only [mergeFromBack, count_reverse, count_append,
    Direction.count_merge a _ (Direction.settles_back less)] at hfirst ⊢
  omega

theorem count_mergeRuns (patience : Nat) (first second : List α) :
    count a (mergeRuns less patience first second).1 = count a first + count a second := by
  unfold mergeRuns
  split
  next => simp
  next smallest rest =>
    simp only
    split
    next => simp
    next largest _ =>
      split
      next => simp
      next =>
        have hfirst := count_take_add_count_drop a (placeBehind less smallest first 0) first
        have hsecond := count_take_add_count_drop a (placeInFront less largest
          (smallest :: rest) ((smallest :: rest).length - 1)) (smallest :: rest)
        split
        next =>
          simp only [count_append, count_mergeFromFront]
          omega
        next =>
          simp only [count_append, count_mergeFromBack]
          omega

/-! ## Runs -/

theorem count_continueRun (descending : Bool) (last : α) (l : List α) :
    count a (continueRun less descending last l).1 +
        count a (continueRun less descending last l).2 =
      count a l := by
  induction l generalizing last with
  | nil => simp [continueRun]
  | cons element rest ih =>
      rw [continueRun]
      split
      next =>
        have h := ih element
        simp only [count_cons]
        omega
      next => simp

theorem count_naturalRun (l : List α) :
    count a (naturalRun less l).1 + count a (naturalRun less l).2 = count a l := by
  unfold naturalRun
  split
  next first second rest =>
    have h := count_continueRun a less (less second first) second rest
    simp only [count_cons]
    split
    next =>
      simp only [count_reverse, count_cons]
      omega
    next =>
      simp only [count_cons]
      omega
  next => simp

theorem count_foldl_insertInto (elements run : List α) :
    count a (elements.foldl (insertInto less) run) = count a run + count a elements := by
  induction elements generalizing run with
  | nil => simp
  | cons element rest ih =>
      rw [foldl_cons, ih, count_insertInto]
      simp only [count_cons, count_nil]
      omega

theorem count_nextRun (least : Nat) (l : List α) :
    count a (nextRun less least l).1 + count a (nextRun less least l).2 = count a l := by
  have hnatural := count_naturalRun a less l
  have hcut := count_take_add_count_drop a (least - (naturalRun less l).1.length)
    (naturalRun less l).2
  simp only [nextRun, count_foldl_insertInto]
  omega

omit [BEq α] in
theorem length_continueRun_le (descending : Bool) (last : α) (l : List α) :
    (continueRun less descending last l).2.length ≤ l.length := by
  induction l generalizing last with
  | nil => simp [continueRun]
  | cons element rest ih =>
      rw [continueRun]
      split
      next => exact Nat.le_succ_of_le (ih element)
      next => exact Nat.le_refl _

omit [BEq α] in
/-- Every run takes an element. -/
theorem length_nextRun_lt (least : Nat) {l : List α} (hl : l ≠ []) :
    (nextRun less least l).2.length < l.length := by
  have hnatural : (naturalRun less l).2.length < l.length := by
    unfold naturalRun
    split
    next first second rest =>
      have h := length_continueRun_le less (less second first) second rest
      simp only [length_cons]
      omega
    next => simpa using length_pos_iff.mpr hl
  simp only [nextRun, length_drop]
  omega

namespace Pending

theorem count_mergeLatest (pending : Pending α) :
    count a (pending.mergeLatest less).runs.flatten = count a pending.runs.flatten := by
  unfold mergeLatest
  split
  next h =>
    simp only [h, flatten_cons, count_append, count_mergeRuns]
    omega
  next => rfl

theorem count_mergeEarlier (pending : Pending α) :
    count a (pending.mergeEarlier less).runs.flatten = count a pending.runs.flatten := by
  unfold mergeEarlier
  split
  next h =>
    simp only [h, flatten_cons, count_append, count_mergeRuns]
    omega
  next => rfl

theorem count_mergeShorter (pending : Pending α) :
    count a (pending.mergeShorter less).runs.flatten = count a pending.runs.flatten := by
  unfold mergeShorter
  split
  next =>
    split
    next => exact count_mergeEarlier a less pending
    next => exact count_mergeLatest a less pending
  next => exact count_mergeLatest a less pending

theorem count_balance (fuel : Nat) (pending : Pending α) :
    count a (balance less fuel pending).runs.flatten = count a pending.runs.flatten := by
  induction fuel generalizing pending with
  | zero => rfl
  | succ fuel ih =>
      rw [balance]
      split
      next =>
        split
        next => rw [ih, count_mergeShorter]
        next =>
          split
          next => rw [ih, count_mergeLatest]
          next => rfl
      next => rfl

theorem count_mergeAll (fuel : Nat) (pending : Pending α) :
    count a (mergeAll less fuel pending) = count a pending.runs.flatten := by
  induction fuel generalizing pending with
  | zero =>
      rw [mergeAll]
      exact ((reverse_perm pending.runs).flatten).count_eq a
  | succ fuel ih =>
      rw [mergeAll.eq_def]
      simp only
      split
      next => rw [ih, count_mergeShorter]
      next => rfl

theorem count_pushAll (least : Nat) {fuel : Nat} (pending : Pending α) {l : List α}
    (hfuel : l.length ≤ fuel) :
    count a (pushAll less least fuel pending l).runs.flatten =
      count a pending.runs.flatten + count a l := by
  induction fuel generalizing pending l with
  | zero =>
      rw [length_eq_zero_iff.mp (Nat.le_zero.mp hfuel)]
      simp [pushAll]
  | succ fuel ih =>
      cases l with
      | nil => simp [pushAll]
      | cons element rest =>
          have hlength := length_nextRun_lt less least (cons_ne_nil element rest)
          have hcount := count_nextRun a less least (element :: rest)
          rw [pushAll, ih _ (by omega), push, count_balance]
          · simp only [flatten_cons, count_append]
            omega
          · simp

end Pending

omit [BEq α] in
/-- Sorting by runs neither loses nor repeats an element. -/
theorem sortByRuns_perm (l : List α) : (sortByRuns less l).Perm l := by
  classical
  rw [perm_iff_count]
  intro a
  rw [sortByRuns, Pending.count_mergeAll, Pending.count_pushAll a less _ _ (Nat.le_refl _)]
  simp

end Dispatch.Sorting
