import Dispatch.Proofs.Path
import Dispatch.Store.LedgerStore

/-!
# Names of new files

The names that a store gives to new files are made of digits, dashes and a few letters.
So they contain no slash, and with any ending of its own such a name is not the name of
the ledger.
-/

namespace Dispatch

/-- The characters of dates, of hexadecimal digits, and of what stands for an unknown time. -/
def IsStampChar (c : Char) : Prop :=
  c.isDigit = true ∨ c ∈ "-Nabcdef".toList

instance (c : Char) : Decidable (IsStampChar c) :=
  inferInstanceAs (Decidable (_ ∨ _))

theorem isStampChar_of_mem_toDigits {c : Char} {n : Nat} (h : c ∈ Nat.toDigits 10 n) :
    IsStampChar c :=
  Or.inl (Nat.isDigit_of_mem_toDigits (by omega) (by omega) h)

theorem isStampChar_of_mem_padDigits {c : Char} {width n : Nat} (h : c ∈ padDigits width n) :
    IsStampChar c := by
  rcases List.mem_append.mp h with h | h
  · rw [List.eq_of_mem_replicate h]
    exact Or.inl rfl
  · exact isStampChar_of_mem_toDigits h

theorem isStampChar_of_mem_stampChars {c : Char} {t : DateTime} (h : c ∈ t.stampChars) :
    IsStampChar c := by
  have hdash : IsStampChar '-' := Or.inr (by decide)
  have hyear : ∀ c ∈ DateTime.yearChars t.year, IsStampChar c := by
    intro c hc
    rw [DateTime.yearChars] at hc
    split at hc
    next =>
      rcases List.mem_cons.mp hc with rfl | hc
      · exact hdash
      · exact isStampChar_of_mem_toDigits hc
    next => exact isStampChar_of_mem_toDigits hc
  simp only [DateTime.stampChars, List.mem_append, List.mem_cons] at h
  rcases h with ((((h | h) | h) | (h | h)) | h) | h
  · exact hyear c h
  · exact isStampChar_of_mem_padDigits h
  · exact isStampChar_of_mem_padDigits h
  · rw [h]
    exact hdash
  · exact isStampChar_of_mem_padDigits h
  · exact isStampChar_of_mem_padDigits h
  · exact isStampChar_of_mem_padDigits h

theorem isStampChar_of_mem_timestamp {c : Char} {reading : Option Instant}
    (h : c ∈ (timestamp reading).toList) : IsStampChar c := by
  cases reading with
  | some instant =>
      rw [timestamp, String.toList_ofList] at h
      exact isStampChar_of_mem_stampChars h
  | none =>
      have hall : "NaNNaNNaN-NaNNaNNaN".toList.all (fun c => decide (IsStampChar c)) = true := by
        decide
      exact of_decide_eq_true (List.all_eq_true.mp hall c h)

theorem isStampChar_of_mem_hexDigits {c : Char} {bits : BitVec 64}
    (h : c ∈ (hexDigits bits).toList) : IsStampChar c := by
  have hdigit : ∀ n < 16, IsStampChar (Nat.digitChar n) := by decide
  rw [hexDigits, String.toList_ofList] at h
  obtain ⟨place, _, rfl⟩ := List.mem_map.mp h
  exact hdigit _ (Nat.mod_lt _ (by omega))

/-- A name of a time and random digits holds no other characters. -/
theorem isStampChar_of_mem_stampedName {c : Char} {reading : Option Instant}
    {bits : BitVec 64} (h : c ∈ (stampedName reading bits).toList) : IsStampChar c := by
  rw [stampedName, String.toList_append, String.toList_append, List.mem_append,
    List.mem_append] at h
  rcases h with (h | h) | h
  · exact isStampChar_of_mem_timestamp h
  · rw [List.mem_singleton.mp h]
    exact Or.inr (by decide)
  · exact isStampChar_of_mem_hexDigits h

section

variable (reading : Option Instant) (bits : BitVec 64)

theorem slash_not_mem_objectsName : '/' ∉ (stampedName reading bits ++ ".json").toList := by
  rw [String.toList_append, List.mem_append]
  rintro (h | h)
  · exact absurd (isStampChar_of_mem_stampedName h) (by decide)
  · exact absurd h (by decide)

theorem isName_objectsName : FileTree.IsName (stampedName reading bits ++ ".json") := by
  have hlength : 5 ≤ (stampedName reading bits ++ ".json").toList.length := by
    rw [String.toList_append, List.length_append]
    exact Nat.le_add_left 5 _
  have hshort (name : String) (hname : name.toList.length < 5) :
      stampedName reading bits ++ ".json" ≠ name := by
    rintro rfl
    omega
  exact ⟨hshort "" (by decide), hshort "." (by decide), hshort ".." (by decide)⟩

/-- The file of a deployment is not named like the ledger. -/
theorem objectsName_ne_ledgerName :
    stampedName reading bits ++ ".json" ≠ "ams_store.json" := by
  intro h
  have hlist := congrArg String.toList h
  have hledger : "ams_store.json".toList = "ams_store".toList ++ ".json".toList := by decide
  rw [String.toList_append, hledger] at hlist
  have hstem := List.append_cancel_right hlist
  have hmem : 's' ∈ (stampedName reading bits).toList := by
    rw [hstem]
    decide
  exact absurd (isStampChar_of_mem_stampedName hmem) (by decide)

end

end Dispatch
