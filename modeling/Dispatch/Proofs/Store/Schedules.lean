import Mathlib.Data.List.Basic
import Mathlib.Data.List.Induction
import Mathlib.Logic.Function.Basic

/-!
# Schedules of loading and saving

Calls that share one file each load it, and later save what they found there with a record
of their own.  A schedule says whose turn it is, one turn after the other.

What the file holds in the end depends on the schedule alone.  `Trace` follows whose records
the file holds and whose each call has found.  If every call has two turns, then all records
are held in the end exactly if the schedule is serial: no turn of another call lies between
the two turns of any call.
-/

namespace Dispatch

/-- Whose records the file holds, and whose records each call found when it loaded. -/
structure Trace (ι : Type) where
  held : List ι
  found : ι → Option (List ι)

/-- One call after the other has both of its turns. -/
def IsSerial {ι : Type} (schedule : List ι) : Prop :=
  ∃ order : List ι, schedule = order.flatMap fun i => [i, i]

namespace Trace

variable {ι : Type} [DecidableEq ι]

/-- The next turn of a call: it loads, or saves what it found and its own record. -/
def turn (trace : Trace ι) (i : ι) : Trace ι :=
  match trace.found i with
  | none => { trace with found := Function.update trace.found i (some trace.held) }
  | some found => { trace with held := found ++ [i] }

/-- The trace of a schedule, from a file that holds none of the records. -/
def after (schedule : List ι) : Trace ι :=
  schedule.foldl turn ⟨[], fun _ => none⟩

variable {trace : Trace ι} {schedule : List ι} {i j : ι}

theorem turn_of_none (h : trace.found i = none) :
    trace.turn i = { trace with found := Function.update trace.found i (some trace.held) } := by
  rw [turn, h]

theorem turn_of_some {found : List ι} (h : trace.found i = some found) :
    trace.turn i = { trace with held := found ++ [i] } := by
  rw [turn, h]

theorem after_concat (schedule : List ι) (i : ι) :
    after (schedule ++ [i]) = (after schedule).turn i := by
  rw [after, List.foldl_append]
  rfl

/-- A turn says nothing about what another call has found. -/
theorem found_turn_of_ne (h : j ≠ i) : (trace.turn i).found j = trace.found j := by
  cases hi : trace.found i with
  | none =>
      rw [turn_of_none hi]
      exact Function.update_of_ne h _ _
  | some found => rw [turn_of_some hi]

theorem found_turn_self_ne_none (trace : Trace ι) (i : ι) : (trace.turn i).found i ≠ none := by
  cases hi : trace.found i with
  | none =>
      rw [turn_of_none hi]
      simp
  | some found =>
      rw [turn_of_some hi]
      simp [hi]

/-- What a call has found it keeps. -/
theorem found_turn_of_some {found : List ι} (h : trace.found j = some found) (i : ι) :
    (trace.turn i).found j = some found := by
  by_cases hsame : j = i
  · subst hsame
    rwa [turn_of_some h]
  · rwa [found_turn_of_ne hsame]

/-- What a call has found after a turn it had found before, or it has loaded by this turn. -/
theorem eq_of_found_turn {found : List ι} (h : (trace.turn i).found j = some found) :
    trace.found j = some found ∨ j = i ∧ trace.found i = none ∧ found = trace.held := by
  by_cases hsame : j = i
  · subst hsame
    cases hj : trace.found j with
    | none =>
        rw [turn_of_none hj] at h
        exact Or.inr ⟨rfl, rfl, Option.some.inj (h.symm.trans (Function.update_self _ _ _))⟩
    | some other =>
        rw [turn_of_some hj] at h
        exact Or.inl (hj.symm.trans h)
  · rw [found_turn_of_ne hsame] at h
    exact Or.inl h

/-- The file holds what it held before a turn, or what was found by the call and its record. -/
theorem held_turn (trace : Trace ι) (i : ι) :
    (trace.turn i).held = trace.held ∨
      ∃ found, trace.found i = some found ∧ (trace.turn i).held = found ++ [i] := by
  cases hi : trace.found i with
  | none =>
      rw [turn_of_none hi]
      exact Or.inl rfl
  | some found =>
      rw [turn_of_some hi]
      exact Or.inr ⟨found, rfl, rfl⟩

/-- A call has found something as soon as it has had a turn. -/
theorem found_eq_none_iff : (after schedule).found i = none ↔ i ∉ schedule := by
  induction schedule using List.reverseRecOn with
  | nil => simp [after]
  | append_singleton front j ih =>
      rw [after_concat, List.mem_append, List.mem_singleton, not_or]
      by_cases hsame : i = j
      · subst hsame
        simp [found_turn_self_ne_none]
      · rw [found_turn_of_ne hsame, ih]
        simp [hsame]

/-! ## What is held -/

/-- A record that is held was saved by the second turn of its call. -/
theorem two_le_count {k : ι} :
    (k ∈ (after schedule).held → 2 ≤ schedule.count k) ∧
      ∀ i found, (after schedule).found i = some found → k ∈ found → 2 ≤ schedule.count k := by
  induction schedule using List.reverseRecOn with
  | nil => simp [after]
  | append_singleton front j ih =>
      obtain ⟨hheld, hfound⟩ := ih
      have hmore : front.count k ≤ (front ++ [j]).count k := by
        rw [List.count_append]
        exact Nat.le_add_right _ _
      rw [after_concat]
      constructor
      · intro hk
        rcases held_turn (after front) j with hsame | ⟨found, hj, hsaved⟩
        · rw [hsame] at hk
          exact Nat.le_trans (hheld hk) hmore
        · rw [hsaved, List.mem_append, List.mem_singleton] at hk
          rcases hk with hk | rfl
          · exact Nat.le_trans (hfound j found hj hk) hmore
          · -- The call has loaded before, so this is at least its second turn.
            have hloaded : k ∈ front := by
              by_contra hnone
              cases (found_eq_none_iff.mpr hnone).symm.trans hj
            have hpos := List.count_pos_iff.mpr hloaded
            rw [List.count_append, List.count_singleton_self]
            exact Nat.add_le_add_right hpos 1
      · intro i found hi hk
        rcases eq_of_found_turn hi with hbefore | ⟨_, _, rfl⟩
        · exact Nat.le_trans (hfound i found hbefore hk) hmore
        · exact Nat.le_trans (hheld hk) hmore

/-- Each call on a list has found those that stand before it there. -/
def FoundBefore (found : ι → Option (List ι)) (calls : List ι) : Prop :=
  ∀ front i back, calls = front ++ i :: back → found i = some front

omit [DecidableEq ι] in
theorem foundBefore_nil (found : ι → Option (List ι)) : FoundBefore found [] := by
  intro front i back h
  simp at h

section

variable {found : ι → Option (List ι)} {calls : List ι}

omit [DecidableEq ι]

theorem FoundBefore.of_append {more : List ι} (h : FoundBefore found (calls ++ more)) :
    FoundBefore found calls := by
  intro front i back hcalls
  exact h front i (back ++ more) (by rw [hcalls, List.append_assoc, List.cons_append])

theorem FoundBefore.concat (h : FoundBefore found calls) (hi : found i = some calls) :
    FoundBefore found (calls ++ [i]) := by
  intro front j back hcalls
  rcases List.eq_nil_or_concat' back with rfl | ⟨rest, last, rfl⟩
  · obtain ⟨rfl, hlast⟩ := List.append_inj' hcalls rfl
    cases hlast
    exact hi
  · have hsplit : calls ++ [i] = (front ++ j :: rest) ++ [last] := by
      rw [hcalls, List.append_assoc, List.cons_append]
    exact h front j rest (List.append_inj' hsplit rfl).1

/-- No call stands twice on such a list. -/
theorem FoundBefore.nodup (h : FoundBefore found calls) : calls.Nodup := by
  induction calls using List.reverseRecOn with
  | nil => exact List.nodup_nil
  | append_singleton front i ih =>
      refine List.nodup_append.mpr ⟨ih h.of_append, by simp, ?_⟩
      intro k hk last hlast hsame
      rw [List.mem_singleton] at hlast
      subst hsame hlast
      obtain ⟨early, late, hfront⟩ := List.append_of_mem hk
      have hfirst := h.of_append early k late hfront
      have hsecond := h front k [] rfl
      rw [hfirst, Option.some.injEq] at hsecond
      have hlength := congrArg List.length (hsecond.trans hfront)
      simp at hlength

end

/-- The calls whose records are held, or were found, have each found those before them. -/
structure IsSound (trace : Trace ι) : Prop where
  held : FoundBefore trace.found trace.held
  found : ∀ i before, trace.found i = some before → FoundBefore trace.found before

theorem IsSound.turn (h : trace.IsSound) (j : ι) : (trace.turn j).IsSound := by
  have hlift {calls : List ι} (hcalls : FoundBefore trace.found calls) :
      FoundBefore (trace.turn j).found calls :=
    fun front i back hsplit => found_turn_of_some (hcalls front i back hsplit) j
  constructor
  · rcases held_turn trace j with hsame | ⟨before, hj, hsaved⟩
    · rw [hsame]
      exact hlift h.held
    · rw [hsaved]
      exact (hlift (h.found j before hj)).concat (found_turn_of_some hj j)
  · intro i before hi
    rcases eq_of_found_turn hi with hearlier | ⟨_, _, rfl⟩
    · exact hlift (h.found i before hearlier)
    · exact hlift h.held

theorem isSound_after (schedule : List ι) : (after schedule).IsSound := by
  induction schedule using List.reverseRecOn with
  | nil => exact ⟨foundBefore_nil _, fun i before h => by cases h⟩
  | append_singleton front i ih =>
      rw [after_concat]
      exact ih.turn i

/-! ## Serial schedules -/

/-- A call that has both of its turns at the end adds its record to what is held. -/
theorem held_concat_concat {front : List ι} (hi : i ∉ front) :
    (after (front ++ [i] ++ [i])).held = (after front).held ++ [i] := by
  have hloaded : ((after front).turn i).found i = some (after front).held := by
    rw [turn_of_none (found_eq_none_iff.mpr hi)]
    exact Function.update_self _ _ _
  rw [after_concat, after_concat, turn_of_some hloaded]

omit [DecidableEq ι] in
theorem flatMap_concat (order : List ι) (i : ι) :
    (order ++ [i]).flatMap (fun k => [k, k]) = (order.flatMap fun k => [k, k]) ++ [i] ++ [i] := by
  simp

/-- A serial schedule leaves the records of all calls, in the order of the calls. -/
theorem held_serial {order : List ι} (h : order.Nodup) :
    (after (order.flatMap fun i => [i, i])).held = order := by
  induction order using List.reverseRecOn with
  | nil => rfl
  | append_singleton front i ih =>
      obtain ⟨hfront, _, hnew⟩ := List.nodup_append.mp h
      have hi : i ∉ front.flatMap fun k => [k, k] := by
        intro hmem
        obtain ⟨k, hk, hsame⟩ := List.mem_flatMap.mp hmem
        exact hnew k hk i (List.mem_singleton_self i) (by simpa [eq_comm] using hsame)
      rw [flatMap_concat, held_concat_concat hi, ih hfront]

theorem count_serial (order : List ι) (i : ι) :
    (order.flatMap fun k => [k, k]).count i = 2 * order.count i := by
  induction order with
  | nil => rfl
  | cons k rest ih =>
      rw [List.flatMap_cons, List.count_append, ih]
      by_cases hk : k = i
      · subst hk
        simp
        omega
      · simp [hk]

/-- If all records are held in the end, then the last two turns are those of one call. -/
theorem exists_eq_concat_of_held {schedule : List ι} {i : ι}
    (hcount : ∀ k ∈ schedule ++ [i], (schedule ++ [i]).count k = 2)
    (hheld : ∀ k ∈ schedule ++ [i], k ∈ (after (schedule ++ [i])).held) :
    ∃ front, schedule = front ++ [i] := by
  have hi : schedule.count i = 1 := by
    simpa using hcount i (by simp)
  rcases List.eq_nil_or_concat' schedule with rfl | ⟨front, j, rfl⟩
  · simp at hi
  by_cases hsame : j = i
  · exact ⟨front, by rw [hsame]⟩
  -- The call `i` has loaded when `j` saves, so it does not find the record of `j`.
  have hloaded : i ∈ front := by
    have hone : front.count i = 1 := by simpa [hsame] using hi
    exact List.count_pos_iff.mp (by omega)
  obtain ⟨found, hfound⟩ := Option.ne_none_iff_exists'.mp
    (fun hnone => found_eq_none_iff.mp hnone hloaded)
  have hlater := found_turn_of_some hfound j
  have hj := hheld j (by simp)
  rw [after_concat, after_concat, turn_of_some hlater] at hj
  have hmem : j ∈ found := by simpa [hsame] using hj
  have hearly := two_le_count.2 i found hfound hmem
  have hone : front.count j = 1 := by simpa [Ne.symm hsame] using hcount j (by simp)
  omega

theorem isSerial_of_held (schedule : List ι) (hcount : ∀ k ∈ schedule, schedule.count k = 2)
    (hheld : ∀ k ∈ schedule, k ∈ (after schedule).held) : IsSerial schedule := by
  rcases List.eq_nil_or_concat' schedule with rfl | ⟨rest, i, rfl⟩
  · exact ⟨[], rfl⟩
  obtain ⟨front, rfl⟩ := exists_eq_concat_of_held hcount hheld
  have hi : i ∉ front := by
    have hnone : front.count i = 0 := by simpa using hcount i (by simp)
    exact List.count_eq_zero.mp hnone
  have hne {k : ι} (hk : k ∈ front) : k ≠ i := by
    rintro rfl
    exact hi hk
  rw [held_concat_concat hi] at hheld
  obtain ⟨order, horder⟩ := isSerial_of_held front
    (fun k hk => by simpa [(hne hk).symm] using hcount k (by simp [hk]))
    (fun k hk => by simpa [hne hk] using hheld k (by simp [hk]))
  exact ⟨order ++ [i], by rw [flatMap_concat, horder]⟩
termination_by schedule.length

/--
With two turns for every call, the records of all calls are held in the end exactly if the
schedule is serial.
-/
theorem forall_mem_held_iff (hcount : ∀ i ∈ schedule, schedule.count i = 2) :
    (∀ i ∈ schedule, i ∈ (after schedule).held) ↔ IsSerial schedule := by
  refine ⟨isSerial_of_held schedule hcount, ?_⟩
  rintro ⟨order, rfl⟩
  have hmem {i : ι} (hi : i ∈ order.flatMap fun k => [k, k]) : i ∈ order := by
    obtain ⟨k, hk, hsame⟩ := List.mem_flatMap.mp hi
    have heq : i = k := by simpa using hsame
    rwa [heq]
  have hnodup : order.Nodup := by
    rw [List.nodup_iff_count]
    intro i
    by_cases hi : i ∈ order
    · have htwo := hcount i (List.mem_flatMap.mpr ⟨i, hi, by simp⟩)
      rw [count_serial] at htwo
      omega
    · rw [List.count_eq_zero.mpr hi]
      exact Nat.zero_le _
  rw [held_serial hnodup]
  exact fun i hi => hmem hi

end Trace

end Dispatch
