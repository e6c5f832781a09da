import Dispatch.Dict
import Mathlib.Tactic.Common

/-!
# The order of dictionaries

The object order is a property of the keys alone: no key is repeated, and no key
belongs before an earlier one.  Everything that builds dictionaries keeps it, and
inserting the entries of an ordered dictionary in turn gives that dictionary back.
The latter is why a table survives being written and read.

A merge answers with the merged entries first.  Its keys are those that were there, in
their places, and behind them the names that are new.
-/

namespace Dispatch.Dict

variable {α β : Type}

/-- No key is repeated, and none belongs before an earlier one. -/
def IsOrdered (d : Dict α) : Prop :=
  d.keys.Pairwise fun a b => a ≠ b ∧ goesBefore b a = false

instance (d : Dict α) : Decidable d.IsOrdered :=
  inferInstanceAs (Decidable (List.Pairwise _ _))

/-! ## Array indices -/

/-- The array indices are the decimal forms of numbers up to the largest one. -/
theorem arrayIndex?_eq_some_iff {key : String} {n : Nat} :
    arrayIndex? key = some n ↔ key = toString n ∧ n ≤ largestIndex := by
  have htext : key = toString n ↔ Nat.toDigits 10 n = key.toList := by
    rw [Nat.toString_eq_ofList_toDigits, ← String.toList_inj, String.toList_ofList, eq_comm]
  simp only [htext, arrayIndex?]
  constructor
  · intro h
    split at h
    next =>
      split at h
      next hindex =>
        cases h
        exact ⟨hindex.2, hindex.1⟩
      next => cases h
    next => cases h
  · rintro ⟨hdigits, hn⟩
    have hlength : (Nat.toDigits 10 n).length ≤ 10 := by
      rw [Nat.length_toDigits_le_iff (by omega) (by omega)]
      exact Nat.lt_of_le_of_lt hn (by decide)
    have hall : (Nat.toDigits 10 n).all Char.isDigit = true :=
      List.all_eq_true.mpr fun c hc => Nat.isDigit_of_mem_toDigits (by omega) (by omega) hc
    have hvalue : Nat.ofDigitChars 10 (Nat.toDigits 10 n) 0 = n := Nat.ofDigitChars_ten_toDigits
    rw [← hdigits, if_pos ⟨hlength, hall⟩]
    simp only [hvalue, hn, and_self, if_true]

/-! ## The order of keys -/

theorem goesBefore_trans {a b c : String} (hab : goesBefore a b = true)
    (hbc : goesBefore b c = true) : goesBefore a c = true := by
  simp only [goesBefore] at *
  cases ha : arrayIndex? a with
  | none => simp [ha] at hab
  | some i =>
      cases hb : arrayIndex? b with
      | none => simp [hb] at hbc
      | some j =>
          cases hc : arrayIndex? c with
          | none => rfl
          | some k =>
              simp only [ha, hb, hc, decide_eq_true_eq] at *
              exact Nat.lt_trans hab hbc

theorem goesBefore_asymm {a b : String} (hab : goesBefore a b = true) :
    goesBefore b a = false := by
  simp only [goesBefore] at *
  cases ha : arrayIndex? a with
  | none => simp [ha] at hab
  | some i =>
      cases hb : arrayIndex? b with
      | none => rfl
      | some j =>
          simp only [ha, hb, decide_eq_true_eq, decide_eq_false_iff_not] at *
          omega

/-! ## Keys and entries after an insertion -/

@[simp] theorem keys_nil : keys ([] : Dict α) = [] := rfl

@[simp] theorem keys_cons (entry : String × α) (d : Dict α) :
    keys (entry :: d) = entry.1 :: keys d := rfl

@[simp] theorem keys_append (d e : Dict α) : keys (d ++ e) = keys d ++ keys e :=
  List.map_append

theorem mem_keys_of_mem {d : Dict α} {entry : String × α} (h : entry ∈ d) :
    entry.1 ∈ d.keys :=
  List.mem_map_of_mem h

theorem keys_update (d : Dict α) (key : String) (value : α) :
    (d.update key value).keys = d.keys := by
  induction d with
  | nil => rfl
  | cons entry rest ih =>
      obtain ⟨k, v⟩ := entry
      by_cases h : k = key
      · simp [update, h]
      · simp [update, h, ih]

theorem mem_keys_place (d : Dict α) (key : String) (value : α) (name : String) :
    name ∈ (d.place key value).keys ↔ name = key ∨ name ∈ d.keys := by
  induction d with
  | nil => simp [place]
  | cons entry rest ih =>
      obtain ⟨k, v⟩ := entry
      by_cases h : goesBefore key k = true
      · simp [place, h]
      · simp only [place, h, if_false, keys_cons, List.mem_cons, ih, Bool.false_eq_true]
        tauto

theorem mem_keys_insert (d : Dict α) (key : String) (value : α) (name : String) :
    name ∈ (d.insert key value).keys ↔ name = key ∨ name ∈ d.keys := by
  by_cases hkey : key ∈ d.keys
  · rw [insert, if_pos hkey, keys_update]
    exact (or_iff_right_of_imp fun h => h ▸ hkey).symm
  · rw [insert, if_neg hkey, mem_keys_place]

theorem get?_map (f : α → β) (d : Dict α) (key : String) :
    get? (d.map fun entry => (entry.1, f entry.2)) key = (d.get? key).map f := by
  induction d with
  | nil => rfl
  | cons entry rest ih =>
      obtain ⟨k, v⟩ := entry
      rw [List.map_cons, get?_cons, get?_cons, ih]
      split
      · rfl
      · rfl

/-- Values are changed alike before and after an insertion. -/
theorem insert_map (f : α → β) (d : Dict α) (key : String) (value : α) :
    insert (d.map fun entry => (entry.1, f entry.2)) key (f value) =
      (d.insert key value).map fun entry => (entry.1, f entry.2) := by
  have hkeys : keys (d.map fun entry => (entry.1, f entry.2)) = d.keys := by
    simp only [keys, List.map_map, Function.comp_def]
  have hupdate : update key (f value) (d.map fun entry => (entry.1, f entry.2)) =
      (d.update key value).map fun entry => (entry.1, f entry.2) := by
    clear hkeys
    induction d with
    | nil => rfl
    | cons entry rest ih =>
        by_cases hkey : entry.1 = key
        · simp [update, hkey]
        · simp [update, hkey, ih]
  have hplace : place key (f value) (d.map fun entry => (entry.1, f entry.2)) =
      (d.place key value).map fun entry => (entry.1, f entry.2) := by
    clear hkeys hupdate
    induction d with
    | nil => rfl
    | cons entry rest ih =>
        by_cases hbefore : goesBefore key entry.1 = true
        · simp [place, hbefore]
        · simp [place, hbefore, ih]
  rw [insert, insert, hkeys, hupdate, hplace]
  split
  · rfl
  · rfl

theorem mem_of_mem_insert {d : Dict α} {key : String} {value : α} {entry : String × α}
    (h : entry ∈ d.insert key value) : entry = (key, value) ∨ entry ∈ d := by
  have hupdate : ∀ d : Dict α, entry ∈ d.update key value → entry = (key, value) ∨ entry ∈ d := by
    intro d
    induction d with
    | nil => simp [update]
    | cons first rest ih =>
        obtain ⟨k, v⟩ := first
        by_cases hk : k = key
        · subst hk
          simp only [update, if_true, List.mem_cons]
          tauto
        · simp only [update, hk, if_false, List.mem_cons]
          tauto
  have hplace : ∀ d : Dict α, entry ∈ d.place key value → entry = (key, value) ∨ entry ∈ d := by
    intro d
    induction d with
    | nil => simp [place]
    | cons first rest ih =>
        obtain ⟨k, v⟩ := first
        by_cases hk : goesBefore key k = true
        · simp [place, hk]
        · simp only [place, hk, if_false, List.mem_cons, Bool.false_eq_true]
          tauto
  by_cases hkey : key ∈ d.keys
  · rw [insert, if_pos hkey] at h
    exact hupdate d h
  · rw [insert, if_neg hkey] at h
    exact hplace d h

/-! ## What keeps the order -/

theorem isOrdered_nil : IsOrdered ([] : Dict α) :=
  List.Pairwise.nil

theorem isOrdered_cons {entry : String × α} {d : Dict α} :
    IsOrdered (entry :: d) ↔
      (∀ name ∈ d.keys, entry.1 ≠ name ∧ goesBefore name entry.1 = false) ∧ IsOrdered d :=
  List.pairwise_cons

/-- The order depends on the keys only. -/
theorem isOrdered_of_keys_eq {d : Dict α} {e : Dict β} (hkeys : e.keys = d.keys)
    (hd : IsOrdered d) : IsOrdered e := by
  rw [IsOrdered, hkeys]
  exact hd

/-- Leaving entries out keeps the order. -/
theorem IsOrdered.of_sublist {d : Dict α} {e : Dict β} (hd : IsOrdered d)
    (hsub : e.keys.Sublist d.keys) : IsOrdered e :=
  List.Pairwise.sublist hsub hd

theorem IsOrdered.nodup {d : Dict α} (hd : IsOrdered d) : d.keys.Nodup :=
  hd.imp And.left

theorem IsOrdered.place {d : Dict α} (hd : IsOrdered d) {key : String} (value : α)
    (hnew : key ∉ d.keys) : IsOrdered (d.place key value) := by
  induction d with
  | nil => simp [Dict.place, IsOrdered]
  | cons entry rest ih =>
      obtain ⟨k, v⟩ := entry
      rw [isOrdered_cons] at hd
      obtain ⟨hfirst, hrest⟩ := hd
      have hk : key ≠ k := fun h => hnew (by simp [h])
      have hnewRest : key ∉ keys rest := fun h => hnew (by simp [h])
      by_cases hbefore : goesBefore key k = true
      · rw [Dict.place, if_pos hbefore, isOrdered_cons]
        refine ⟨?_, isOrdered_cons.mpr ⟨hfirst, hrest⟩⟩
        intro name hname
        constructor
        · rintro rfl
          exact hnew hname
        rw [keys_cons, List.mem_cons] at hname
        rcases hname with rfl | hname
        · exact goesBefore_asymm hbefore
        · -- A later name before `key` would be before `k` as well.
          by_contra hback
          have hname' : goesBefore name k = true :=
            goesBefore_trans (by simpa using hback) hbefore
          simp [(hfirst name hname).2] at hname'
      · rw [Dict.place, if_neg hbefore, isOrdered_cons]
        refine ⟨?_, ih hrest hnewRest⟩
        intro name hname
        rcases (mem_keys_place rest key value name).mp hname with rfl | hname
        · exact ⟨hk.symm, by simpa using hbefore⟩
        · exact hfirst name hname

theorem IsOrdered.insert {d : Dict α} (hd : IsOrdered d) (key : String) (value : α) :
    IsOrdered (d.insert key value) := by
  by_cases h : key ∈ d.keys
  · rw [Dict.insert, if_pos h]
    exact isOrdered_of_keys_eq (keys_update d key value) hd
  · rw [Dict.insert, if_neg h]
    exact hd.place value h

theorem IsOrdered.merge {d : Dict α} (hd : IsOrdered d) (entries : Dict α) :
    IsOrdered (d.merge entries) := by
  unfold Dict.merge
  induction entries generalizing d with
  | nil => exact hd
  | cons entry rest ih => exact ih (hd.insert entry.1 entry.2)

/-- Assignments insert all entries but those under the reserved key. -/
theorem assignAll_eq_merge (d entries : Dict α) :
    d.assignAll entries = d.merge (entries.filter fun entry => entry.1 ≠ reservedKey) := by
  induction entries generalizing d with
  | nil => rfl
  | cons entry rest ih =>
      change (d.assign entry.1 entry.2).assignAll rest = _
      rw [ih, assign]
      by_cases hkey : entry.1 = reservedKey
      · rw [if_pos hkey, List.filter_cons_of_neg (by simpa using hkey)]
      · rw [if_neg hkey, List.filter_cons_of_pos (by simpa using hkey)]
        rfl

theorem IsOrdered.assignAll {d : Dict α} (hd : IsOrdered d) (entries : Dict α) :
    IsOrdered (d.assignAll entries) := by
  rw [assignAll_eq_merge]
  exact hd.merge _

theorem isOrdered_ofList (entries : List (String × α)) : IsOrdered (ofList entries) :=
  isOrdered_nil.merge entries

/-! ## Entries after many insertions -/

theorem mem_of_mem_merge {d entries : Dict α} {entry : String × α}
    (h : entry ∈ d.merge entries) : entry ∈ d ∨ entry ∈ entries := by
  unfold merge at h
  induction entries generalizing d with
  | nil => exact Or.inl h
  | cons first rest ih =>
      rcases ih h with hd | hrest
      · rcases mem_of_mem_insert hd with rfl | hd
        · exact Or.inr (by simp)
        · exact Or.inl hd
      · exact Or.inr (List.mem_cons_of_mem _ hrest)

theorem mem_keys_merge (d entries : Dict α) (name : String) :
    name ∈ (d.merge entries).keys ↔ name ∈ d.keys ∨ name ∈ entries.keys := by
  induction entries generalizing d with
  | nil => simp [merge]
  | cons entry rest ih =>
      change name ∈ ((d.insert entry.1 entry.2).merge rest).keys ↔ _
      rw [ih, mem_keys_insert, keys_cons, List.mem_cons]
      tauto

theorem mem_of_mem_ofList {entries : List (String × α)} {entry : String × α}
    (h : entry ∈ ofList entries) : entry ∈ entries := by
  simpa using mem_of_mem_merge h

theorem mem_of_mem_assignAll {d entries : Dict α} {entry : String × α}
    (h : entry ∈ d.assignAll entries) : entry ∈ d ∨ entry ∈ entries := by
  rw [assignAll_eq_merge] at h
  exact (mem_of_mem_merge h).imp_right fun h => (List.mem_filter.mp h).1

/-! ## Assignments -/

theorem get?_assign (d : Dict α) (key : String) (value : α) (name : String) :
    (d.assign key value).get? name =
      if name = key ∧ key ≠ reservedKey then some value else d.get? name := by
  rw [assign]
  split
  next hkey => rw [if_neg fun h => h.2 hkey]
  next hkey =>
    rw [get?_insert]
    exact if_congr (iff_self_and.mpr fun _ => hkey) rfl rfl

theorem assignAll_append (d entries more : Dict α) :
    d.assignAll (entries ++ more) = (d.assignAll entries).assignAll more :=
  List.foldl_append

theorem get?_assignAll_of_not_mem {d entries : Dict α} {key : String} (h : key ∉ entries.keys) :
    (d.assignAll entries).get? key = d.get? key := by
  induction entries generalizing d with
  | nil => rfl
  | cons entry rest ih =>
      rw [keys_cons, List.mem_cons, not_or] at h
      have hrest := ih (d := d.assign entry.1 entry.2) h.2
      rw [get?_assign, if_neg fun hkey => h.1 hkey.1] at hrest
      exact hrest

/-- The reserved key is never bound by assignments. -/
theorem get?_assignAll_reservedKey (d entries : Dict α) :
    (d.assignAll entries).get? reservedKey = d.get? reservedKey := by
  induction entries generalizing d with
  | nil => rfl
  | cons entry rest ih =>
      have hrest := ih (d.assign entry.1 entry.2)
      rw [get?_assign, if_neg fun hkey => hkey.2 hkey.1.symm] at hrest
      exact hrest

/-- The last of the values assigned to a key counts. -/
theorem get?_assignAll_of_last (d front : Dict α) {back : Dict α} {key : String} (value : α)
    (hkey : key ≠ reservedKey) (hback : key ∉ back.keys) :
    (d.assignAll (front ++ (key, value) :: back)).get? key = some value := by
  have hlast := get?_assign (d.assignAll front) key value key
  rw [if_pos ⟨rfl, hkey⟩] at hlast
  rw [assignAll_append]
  exact (get?_assignAll_of_not_mem hback).trans hlast

/-! ## Entries in order -/

/-- A key that nothing in a dictionary yields to is placed at its end. -/
theorem place_eq_append {d : Dict α} {key : String} {value : α}
    (h : ∀ name ∈ d.keys, goesBefore key name = false) :
    d.place key value = d ++ [(key, value)] := by
  induction d with
  | nil => rfl
  | cons entry rest ih =>
      obtain ⟨k, v⟩ := entry
      have hk : goesBefore key k = false := h k (by simp)
      have hrest : ∀ name ∈ keys rest, goesBefore key name = false :=
        fun name hname => h name (by simp [hname])
      simp [place, hk, ih hrest]

/-- Entries that continue a dictionary in order are appended by a merge. -/
theorem merge_eq_append {d entries : Dict α} (h : IsOrdered (d ++ entries)) :
    d.merge entries = d ++ entries := by
  induction entries generalizing d with
  | nil => simp [merge]
  | cons entry rest ih =>
      obtain ⟨key, value⟩ := entry
      have hpair := h
      rw [IsOrdered, keys_append, List.pairwise_append] at hpair
      have hlast : ∀ name ∈ d.keys, name ≠ key ∧ goesBefore key name = false :=
        fun name hname => hpair.2.2 name hname key (by simp)
      have hnew : key ∉ d.keys := fun hmem => (hlast key hmem).1 rfl
      have hinsert : d.insert key value = d ++ [(key, value)] := by
        rw [insert, if_neg hnew]
        exact place_eq_append fun name hname => (hlast name hname).2
      have hstep : d.merge ((key, value) :: rest) = (d ++ [(key, value)]).merge rest := by
        rw [← hinsert]
        rfl
      rw [hstep, ih (by simpa using h)]
      simp

/-- Inserting the entries of an ordered dictionary in turn gives it back. -/
theorem ofList_eq_self {d : Dict α} (h : IsOrdered d) : ofList d = d := by
  simpa [ofList] using merge_eq_append (d := []) h

/-! ## Answers of ordered dictionaries -/

theorem mem_of_get? {d : Dict α} {key : String} {value : α} (h : d.get? key = some value) :
    (key, value) ∈ d := by
  induction d with
  | nil => simp [get?] at h
  | cons entry rest ih =>
      obtain ⟨k, v⟩ := entry
      rw [get?_cons] at h
      split at h
      next hk =>
        cases h
        simp [hk]
      next => exact List.mem_cons_of_mem _ (ih h)

theorem get?_eq_none {d : Dict α} {key : String} (h : key ∉ d.keys) : d.get? key = none := by
  cases hget : d.get? key with
  | none => rfl
  | some value => exact absurd (mem_keys_of_mem (mem_of_get? hget)) h

theorem get?_of_mem {d : Dict α} (hd : d.keys.Nodup) {key : String} {value : α}
    (h : (key, value) ∈ d) : d.get? key = some value := by
  induction d with
  | nil => simp at h
  | cons entry rest ih =>
      obtain ⟨k, v⟩ := entry
      rw [keys_cons, List.nodup_cons] at hd
      rw [get?_cons]
      rcases List.mem_cons.mp h with heq | hrest
      · cases heq
        simp
      · have hk : key ≠ k := by
          rintro rfl
          have hmem := mem_keys_of_mem hrest
          exact hd.1 hmem
        rw [if_neg hk]
        exact ih hd.2 hrest

theorem isSome_get?_iff {d : Dict α} {key : String} : (d.get? key).isSome ↔ key ∈ d.keys := by
  constructor
  · intro h
    obtain ⟨value, hvalue⟩ := Option.isSome_iff_exists.mp h
    exact mem_keys_of_mem (mem_of_get? hvalue)
  · intro h
    induction d with
    | nil => simp at h
    | cons first rest ih =>
        obtain ⟨k, v⟩ := first
        rw [get?_cons]
        by_cases hk : key = k
        · simp [hk]
        · rw [if_neg hk]
          exact ih (by simpa [hk] using h)

theorem nodup_keys_filter {d : Dict α} (hd : d.keys.Nodup) (p : String × α → Bool) :
    (keys (d.filter p)).Nodup :=
  hd.sublist (List.filter_sublist.map Prod.fst)

theorem keys_filter (d : Dict α) (p : String → Bool) :
    keys (d.filter fun entry => p entry.1) = d.keys.filter p :=
  (List.filter_map ..).symm

/-- A dictionary without some of its entries answers the keys of the others. -/
theorem get?_filter {d : Dict α} (hd : d.keys.Nodup) (p : String × α → Bool) (key : String) :
    get? (d.filter p) key = (d.get? key).filter fun value => p (key, value) := by
  induction d with
  | nil => rfl
  | cons entry rest ih =>
      obtain ⟨k, v⟩ := entry
      rw [keys_cons, List.nodup_cons] at hd
      rw [get?_cons]
      cases hp : p (k, v) with
      | true =>
          rw [List.filter_cons_of_pos hp, get?_cons, ih hd.2]
          by_cases hkey : key = k
          · subst hkey
            rw [if_pos rfl, if_pos rfl, Option.filter_some, if_pos hp]
          · rw [if_neg hkey, if_neg hkey]
      | false =>
          rw [List.filter_cons_of_neg (by simp [hp]), ih hd.2]
          by_cases hkey : key = k
          · subst hkey
            rw [get?_eq_none hd.1, if_pos rfl, Option.filter_some, if_neg (by simp [hp])]
            rfl
          · rw [if_neg hkey]

/-! ## Answers and keys of merged dictionaries -/

/-- An entry of the merged entries answers its key, and the dictionary below every other one. -/
theorem get?_merge (d : Dict α) {entries : Dict α} (hnodup : entries.keys.Nodup) (key : String) :
    (d.merge entries).get? key = (entries.get? key).or (d.get? key) := by
  induction entries generalizing d with
  | nil => rfl
  | cons entry rest ih =>
      obtain ⟨k, v⟩ := entry
      rw [keys_cons, List.nodup_cons] at hnodup
      change ((d.insert k v).merge rest).get? key = _
      rw [ih _ hnodup.2, get?_insert, get?_cons]
      by_cases hkey : key = k
      · subst hkey
        rw [get?_eq_none hnodup.1, if_pos rfl, if_pos rfl, Option.none_or, Option.some_or]
      · rw [if_neg hkey, if_neg hkey]

/-- A name keeps its place where it was present, and comes last where it was not. -/
theorem keys_insert (d : Dict α) {key : String} (hname : arrayIndex? key = none) (value : α) :
    (d.insert key value).keys = if key ∈ d.keys then d.keys else d.keys ++ [key] := by
  by_cases hkey : key ∈ d.keys
  · rw [insert, if_pos hkey, if_pos hkey, keys_update]
  · have hlast : ∀ name ∈ d.keys, goesBefore key name = false := by
      intro name _
      rw [goesBefore, hname]
    rw [insert, if_neg hkey, if_neg hkey, place_eq_append hlast, keys_append]
    rfl

/-- Merged names keep the places that they have, and those that are new follow in their order. -/
theorem keys_merge (d : Dict α) {entries : Dict α} (hnodup : entries.keys.Nodup)
    (hnames : ∀ key ∈ entries.keys, arrayIndex? key = none) :
    (d.merge entries).keys = d.keys ++ entries.keys.filter (· ∉ d.keys) := by
  induction entries generalizing d with
  | nil => exact (List.append_nil _).symm
  | cons entry rest ih =>
      obtain ⟨k, v⟩ := entry
      rw [keys_cons, List.nodup_cons] at hnodup
      rw [keys_cons, List.forall_mem_cons] at hnames
      change ((d.insert k v).merge rest).keys = _
      rw [ih _ hnodup.2 hnames.2, keys_insert d hnames.1, keys_cons]
      by_cases hkey : k ∈ d.keys
      · rw [if_pos hkey, List.filter_cons_of_neg (by simpa using hkey)]
      · have hrest : (keys rest).filter (· ∉ d.keys ++ [k]) = (keys rest).filter (· ∉ d.keys) := by
          apply List.filter_congr
          intro name hname
          have hne : name ≠ k := by
            rintro rfl
            exact hnodup.1 hname
          simp [hne]
        rw [if_neg hkey, List.filter_cons_of_pos (by simpa using hkey), hrest, List.append_assoc]
        rfl

/-- A merge of names repeats no key. -/
theorem nodup_keys_merge {d entries : Dict α} (hd : d.keys.Nodup) (hnodup : entries.keys.Nodup)
    (hnames : ∀ key ∈ entries.keys, arrayIndex? key = none) : (d.merge entries).keys.Nodup := by
  rw [keys_merge d hnodup hnames, List.nodup_append]
  refine ⟨hd, hnodup.filter _, fun key hkey other hother => ?_⟩
  rintro rfl
  simp [hkey] at hother

/-! ## Indices and names -/

/-- The keys that are no array indices. -/
def names (d : Dict α) : List String :=
  d.keys.filter fun key => arrayIndex? key = none

/-- The keys of an ordered dictionary are array indices in ascending order, and then its names. -/
theorem IsOrdered.keys_eq {d : Dict α} (hd : IsOrdered d) :
    ∃ numbers : List Nat, numbers.Pairwise (· < ·) ∧ (∀ n ∈ numbers, n ≤ largestIndex) ∧
      d.keys = numbers.map toString ++ d.names := by
  induction d with
  | nil => exact ⟨[], by simp [names]⟩
  | cons entry rest ih =>
      obtain ⟨k, v⟩ := entry
      obtain ⟨hfirst, hrest⟩ := isOrdered_cons.mp hd
      obtain ⟨numbers, hascending, hbound, hkeys⟩ := ih hrest
      have hindex : ∀ n ∈ numbers, toString n ∈ keys rest ∧ arrayIndex? (toString n) = some n := by
        intro n hn
        refine ⟨?_, arrayIndex?_eq_some_iff.mpr ⟨rfl, hbound n hn⟩⟩
        rw [hkeys]
        exact List.mem_append_left _ (List.mem_map_of_mem hn)
      cases hk : arrayIndex? k with
      | some m =>
          obtain ⟨hname, hm⟩ := arrayIndex?_eq_some_iff.mp hk
          have hleast : ∀ n ∈ numbers, m < n := by
            intro n hn
            obtain ⟨hmem, hn⟩ := hindex n hn
            obtain ⟨hne, hbefore⟩ := hfirst _ hmem
            simp only [goesBefore, hn, hk, decide_eq_false_iff_not] at hbefore
            have hdistinct : n ≠ m := by
              rintro rfl
              exact hne hname
            omega
          have hnames : names ((k, v) :: rest) = names rest := by simp [names, hk]
          refine ⟨m :: numbers, List.pairwise_cons.mpr ⟨hleast, hascending⟩,
            List.forall_mem_cons.mpr ⟨hm, hbound⟩, ?_⟩
          rw [keys_cons, hkeys, hnames, List.map_cons, List.cons_append, ← hname]
      | none =>
          -- An index behind a name would go before it.
          have hnone : numbers = [] := by
            rw [List.eq_nil_iff_forall_not_mem]
            intro n hn
            obtain ⟨hmem, hn⟩ := hindex n hn
            have hbefore := (hfirst _ hmem).2
            rw [goesBefore, hn, hk] at hbefore
            cases hbefore
          subst hnone
          refine ⟨[], by simp, by simp, ?_⟩
          simpa [names, hk] using hkeys

theorem names_filter (d : Dict α) (p : String → Bool) :
    names (d.filter fun entry => p entry.1) = d.names.filter p := by
  rw [names, keys_filter, List.filter_filter, names, List.filter_filter]
  simp only [Bool.and_comm]

/-- A new index leaves the names as they are. -/
theorem names_place {d : Dict α} {key : String} (hindex : arrayIndex? key ≠ none) (value : α) :
    (d.place key value).names = d.names := by
  induction d with
  | nil => simp [place, names, hindex]
  | cons entry rest ih =>
      rw [names, names] at ih
      by_cases hbefore : goesBefore key entry.1 = true
      · simp [place, names, hbefore, hindex]
      · simp [place, names, hbefore, List.filter_cons, ih]

theorem names_insert (d : Dict α) (key : String) (value : α) :
    (d.insert key value).names =
      if key ∈ d.keys ∨ arrayIndex? key ≠ none then d.names else d.names ++ [key] := by
  by_cases hkey : key ∈ d.keys
  · rw [if_pos (Or.inl hkey), insert, if_pos hkey, names, keys_update, names]
  by_cases hindex : arrayIndex? key = none
  · rw [if_neg (by simp [hkey, hindex]), names, keys_insert d hindex, if_neg hkey,
      List.filter_append, names]
    simp [hindex]
  · rw [if_pos (Or.inr hindex), insert, if_neg hkey, names_place hindex]

/-- Merged names keep the places that they have, and those that are new follow in their order. -/
theorem names_merge (d : Dict α) {entries : Dict α} (hnodup : entries.keys.Nodup) :
    (d.merge entries).names = d.names ++ entries.names.filter (· ∉ d.keys) := by
  induction entries generalizing d with
  | nil => exact (List.append_nil _).symm
  | cons entry rest ih =>
      obtain ⟨k, v⟩ := entry
      rw [keys_cons, List.nodup_cons] at hnodup
      have hrest : (names rest).filter (· ∉ (d.insert k v).keys) =
          (names rest).filter (· ∉ d.keys) := by
        apply List.filter_congr
        intro name hname
        have hne : name ≠ k := by
          rintro rfl
          exact hnodup.1 (List.mem_filter.mp hname).1
        simp [mem_keys_insert, hne]
      change ((d.insert k v).merge rest).names = _
      rw [ih _ hnodup.2, names_insert, hrest]
      by_cases hindex : arrayIndex? k = none
      · have hnames : names ((k, v) :: rest) = k :: names rest := by simp [names, hindex]
        by_cases hkey : k ∈ d.keys
        · rw [if_pos (Or.inl hkey), hnames, List.filter_cons_of_neg (by simpa using hkey)]
        · rw [if_neg (by simp [hkey, hindex]), hnames,
            List.filter_cons_of_pos (by simpa using hkey), List.append_assoc]
          rfl
      · have hnames : names ((k, v) :: rest) = names rest := by simp [names, hindex]
        rw [if_pos (Or.inr hindex), hnames]

/-! ## Dictionaries of assignments -/

section

variable {entries : Dict α} {name : String}

/-- An ordered dictionary is assigned as it is, but for the reserved key. -/
theorem assignAll_nil_eq_filter (h : IsOrdered entries) :
    assignAll [] entries = entries.filter fun entry => entry.1 ≠ reservedKey := by
  rw [assignAll_eq_merge]
  exact ofList_eq_self (h.of_sublist (List.filter_sublist.map Prod.fst))

theorem assignAll_nil_eq_self (h : IsOrdered entries) (hreserved : reservedKey ∉ entries.keys) :
    assignAll [] entries = entries := by
  rw [assignAll_nil_eq_filter h, List.filter_eq_self]
  intro entry hentry
  rw [decide_eq_true_eq]
  intro hkey
  exact hreserved (hkey ▸ mem_keys_of_mem hentry)

theorem mem_keys_assignAll_nil :
    name ∈ (assignAll [] entries).keys ↔ name ∈ entries.keys ∧ name ≠ reservedKey := by
  rw [assignAll_eq_merge, mem_keys_merge, keys_filter entries (· ≠ reservedKey), List.mem_filter]
  simp

theorem get?_assignAll_nil (hnodup : entries.keys.Nodup) (hname : name ≠ reservedKey) :
    (assignAll [] entries).get? name = entries.get? name := by
  have hnone : get? ([] : Dict α) name = none := rfl
  rw [assignAll_eq_merge, get?_merge [] (nodup_keys_filter hnodup _), get?_filter hnodup, hnone,
    Option.or_none]
  cases entries.get? name <;> simp [hname]

theorem names_assignAll_nil (hnodup : entries.keys.Nodup) :
    (assignAll [] entries).names = entries.names.filter (· ≠ reservedKey) := by
  rw [assignAll_eq_merge, names_merge [] (nodup_keys_filter hnodup _),
    names_filter entries (· ≠ reservedKey)]
  simp [names]

theorem names_merge_assignAll_nil {d : Dict α} (hd : d.keys.Nodup)
    (hnodup : entries.keys.Nodup) :
    ((assignAll [] d).merge (assignAll [] entries)).names =
      (d.names ++ entries.names.filter (· ∉ d.keys)).filter (· ≠ reservedKey) := by
  rw [names_merge _ (isOrdered_nil.assignAll entries).nodup, names_assignAll_nil hd,
    names_assignAll_nil hnodup, List.filter_append, List.filter_filter, List.filter_filter]
  congr 1
  apply List.filter_congr
  intro name _
  by_cases hname : name = reservedKey <;> simp [mem_keys_assignAll_nil, hname]

end

end Dispatch.Dict
