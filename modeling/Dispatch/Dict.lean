/-!
# Ordered dictionaries

A dictionary keeps its entries in a fixed order: first the keys that are array
indices, in ascending order, then all other keys in the order in which they were
first inserted.  Inserting under a key that is present keeps the entry's place
and replaces its value.

Dictionaries are built from `[]` by `Dict.insert`; `Dict.ofList` and `Dict.merge`
insert many entries in turn.  `Dict.get?_insert` says what a dictionary answers after
an insertion.
-/

namespace Dispatch

/-- A dictionary with text keys, as the list of its entries in order. -/
abbrev Dict (α : Type) := List (String × α)

/-- The largest key that is ordered as an array index. -/
def largestIndex : Nat :=
  4294967294

/--
The array index that a key denotes, if it is one: the plain decimal form of a
number up to `largestIndex`, without sign and without leading zeros.
-/
def arrayIndex? (key : String) : Option Nat :=
  let digits := key.toList
  if digits.length ≤ 10 ∧ digits.all Char.isDigit = true then
    let index := Nat.ofDigitChars 10 digits 0
    if index ≤ largestIndex ∧ Nat.toDigits 10 index = digits then some index else none
  else none

namespace Dict

variable {α : Type}

/-- A new key goes before a present one only as the smaller index, or as an index before a name. -/
def goesBefore (key other : String) : Bool :=
  match arrayIndex? key, arrayIndex? other with
  | some i, some j => decide (i < j)
  | some _, none => true
  | none, _ => false

/-- The value under a key. -/
def get? (d : Dict α) (key : String) : Option α :=
  List.lookup key d

/-- The keys in order. -/
def keys (d : Dict α) : List String :=
  d.map Prod.fst

/-- Replaces the value under a key that is present. -/
def update (key : String) (value : α) : Dict α → Dict α
  | [] => []
  | (k, v) :: rest => if k = key then (k, value) :: rest else (k, v) :: update key value rest

/-- Puts a new key at its place in the order. -/
def place (key : String) (value : α) : Dict α → Dict α
  | [] => [(key, value)]
  | (k, v) :: rest =>
    if goesBefore key k then (key, value) :: (k, v) :: rest else (k, v) :: place key value rest

/-- Binds a key to a value; a key that is present keeps its place. -/
def insert (d : Dict α) (key : String) (value : α) : Dict α :=
  if key ∈ d.keys then d.update key value else d.place key value

/-- The first entry answers its key, and the rest every other key. -/
theorem get?_cons (k : String) (v : α) (d : Dict α) (key : String) :
    get? ((k, v) :: d) key = if key = k then some v else get? d key := by
  by_cases h : key = k
  · simp [get?, h]
  · simp [get?, List.lookup_cons, h, beq_eq_false_iff_ne.mpr h]

/-- A replaced value is answered only where its key was present. -/
theorem get?_update (d : Dict α) (key : String) (value : α) (name : String) :
    (d.update key value).get? name =
      if name = key ∧ key ∈ d.keys then some value else d.get? name := by
  induction d with
  | nil => simp [update, keys]
  | cons entry rest ih =>
    obtain ⟨k, v⟩ := entry
    by_cases hk : k = key
    · subst hk
      by_cases hn : name = k <;> simp [update, get?_cons, keys, hn]
    · have hk' : key ≠ k := fun h => hk h.symm
      by_cases hn : name = k
      · subst hn
        simp [update, get?_cons, hk]
      · have hmem : key ∈ keys ((k, v) :: rest) ↔ key ∈ keys rest := by simp [keys, hk']
        simp only [update, hk, if_false, get?_cons, hn, ih, hmem]

/-- A new key answers its value wherever it was placed. -/
theorem get?_place (d : Dict α) (key : String) (value : α) (name : String)
    (hnew : key ∉ d.keys) :
    (d.place key value).get? name = if name = key then some value else d.get? name := by
  induction d with
  | nil => simp [place, get?_cons]
  | cons entry rest ih =>
    obtain ⟨k, v⟩ := entry
    have hk : key ≠ k := fun h => hnew (by simp [keys, h])
    have hrest : key ∉ keys rest := fun h => hnew (by simpa [keys] using Or.inr h)
    by_cases hbefore : goesBefore key k = true
    · simp [place, hbefore, get?_cons]
    · by_cases hn : name = k
      · subst hn
        simp [place, hbefore, get?_cons, hk.symm]
      · simp [place, hbefore, get?_cons, hn, ih hrest]

/-- An inserted key answers its new value, and every other key what it did before. -/
theorem get?_insert (d : Dict α) (key : String) (value : α) (name : String) :
    (d.insert key value).get? name = if name = key then some value else d.get? name := by
  by_cases h : key ∈ d.keys
  · simp [insert, h, get?_update]
  · simp [insert, h, get?_place]

/-- All entries of the second dictionary inserted into the first. -/
def merge (d entries : Dict α) : Dict α :=
  entries.foldl (fun acc entry => acc.insert entry.1 entry.2) d

/-- The dictionary of a list of entries; of a repeated key the last value counts. -/
def ofList (entries : List (String × α)) : Dict α :=
  merge [] entries

/-- The key that every table reserves for itself. -/
def reservedKey : String :=
  "__proto__"

/-- Like `insert`, but a binding of the reserved key is ignored. -/
def assign (d : Dict α) (key : String) (value : α) : Dict α :=
  if key = reservedKey then d else d.insert key value

/-- All entries assigned in turn, so that the reserved key is left out. -/
def assignAll (d entries : Dict α) : Dict α :=
  entries.foldl (fun acc entry => acc.assign entry.1 entry.2) d

/--
The names that every table answers to although no entry is stored under them.
What stands behind such a name is never a list.
-/
def builtinNames : List String :=
  ["constructor", "__defineGetter__", "__defineSetter__", "hasOwnProperty", "__lookupGetter__",
    "__lookupSetter__", "isPrototypeOf", "propertyIsEnumerable", "toString", "valueOf",
    reservedKey, "toLocaleString"]

end Dict

end Dispatch
