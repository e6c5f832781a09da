import Dispatch.Proofs.Store.Records

/-!
# The order of records by version

Sorting records never loses or repeats one.  When the version of the next record is
finite, all records of the domain have versions that are numbers, and they keep
having versions when they are written and read; so they can be sorted again.
-/

namespace Dispatch

namespace Value

/-! ## Values inside messages after a reduction -/

theorem itemTexts?_isSome_iff {items : List Value} :
    (itemTexts? items).isSome = true ↔
      ∀ item ∈ items, item.isPresent = true → item.text?.isSome = true := by
  induction items with
  | nil => simp [itemTexts?]
  | cons item rest ih =>
      rw [itemTexts?, List.forall_mem_cons, ← ih]
      cases item.isPresent <;> cases item.text? <;> cases itemTexts? rest <;> simp

theorem isPresent_serial {v w : Value} (hw : v.serial? = some w) (h : w.isPresent = true) :
    v.isPresent = true := by
  cases v with
  | missing => simp [serial?] at hw
  | null =>
      cases hw
      exact h
  | _ => rfl

/-- A plain table can be written in a message unless it has a member for that. -/
theorem text?_table_isSome_iff {members : Dict Value} (h : ∀ entry ∈ members, entry.2.IsPlain) :
    (Value.table members).text?.isSome = true ↔ members.get? "toString" = none := by
  have hfunction : ∀ name, members.get? name ≠ some (.atom .function) := by
    intro name hget
    nomatch h _ (Dict.mem_of_get? hget)
  rw [text?, ObjectClass.text?]
  split
  next heq => exact absurd heq (hfunction _)
  next heq => exact absurd heq (hfunction _)
  next value heq _ => simp [heq]
  next heq => exact absurd heq (hfunction _)
  next heq _ => simp [heq, ObjectClass.ownText?]

/-- What can be written in a message still can after it was reduced. -/
theorem IsPlain.text?_isSome_serial {v w : Value} (h : v.IsPlain) (hw : v.serial? = some w)
    (hv : v.text?.isSome = true) : w.text?.isSome = true := by
  induction h generalizing w with
  | missing => simp [serial?] at hw
  | null =>
      cases hw
      rfl
  | bool =>
      cases hw
      rfl
  | text =>
      cases hw
      rfl
  | number x =>
      cases hw
      cases x.serial? <;> rfl
  | @list items hitems ih =>
      rw [serial?, serialItems_eq_map] at hw
      cases hw
      simp only [text?, Option.isSome_map] at hv ⊢
      rw [itemTexts?_isSome_iff] at hv ⊢
      intro reduced hreduced hpresent
      obtain ⟨item, hitem, rfl⟩ := List.mem_map.mp hreduced
      cases hserial : item.serial? with
      | none => rfl
      | some w =>
          rw [hserial, Option.getD_some] at hpresent
          exact ih item hitem hserial (hv item hitem (isPresent_serial hserial hpresent))
  | @table members hordered hmembers =>
      rw [serial?_table hmembers] at hw
      cases hw
      have hreduced : ∀ entry ∈ serialMembers members, entry.2.IsPlain := by
        intro entry hentry
        obtain ⟨whole, hwhole, hserial⟩ := mem_serialMembers.mp hentry
        exact ((hmembers _ hwhole).isDocument hserial).isPlain
      rw [text?_table_isSome_iff hmembers] at hv
      rw [text?_table_isSome_iff hreduced, get?_serialMembers hordered.nodup, hv]
      rfl

/-- What counts as a number still does after it was reduced. -/
theorem IsPlain.toNumber?_isSome_serial {v w : Value} (h : v.IsPlain) (hw : v.serial? = some w)
    (hv : v.toNumber?.isSome = true) : w.toNumber?.isSome = true := by
  cases h with
  | missing => simp [serial?] at hw
  | null =>
      cases hw
      rfl
  | bool =>
      cases hw
      rfl
  | text =>
      cases hw
      rfl
  | number x =>
      cases hw
      cases x.serial? <;> rfl
  | list hitems =>
      have htext := (IsPlain.list hitems).text?_isSome_serial hw (by simpa [toNumber?] using hv)
      cases hw
      simpa [toNumber?] using htext
  | table hordered hmembers =>
      have htext := (IsPlain.table hordered hmembers).text?_isSome_serial hw
        (by simpa [toNumber?] using hv)
      rw [serial?_table hmembers] at hw
      cases hw
      simpa [toNumber?] using htext

end Value

namespace Ledger

/-! ## The version of the next record -/

/-- The version of a record is the number under its name. -/
theorem version?_of_member {record : Value} {x : Number}
    (h : record.member "version" = .number x) : version? record = some x := by
  cases record with
  | missing => cases h
  | null => cases h
  | _ =>
      simp only [version?, h]
      rfl

theorem largerVersion_eq_ok {largest next : Number} {record : Value}
    (h : largerVersion largest record = .ok next) :
    ∃ x, version? record = some x ∧ next = largest.max x := by
  rw [largerVersion] at h
  split at h
  next x hx =>
    cases h
    exact ⟨x, hx, rfl⟩
  next => cases h

theorem max_nan_right (x : Number) : x.max .nan = .nan := by
  cases x <;> rfl

/-- Every record has a version, and one that is no number would be the largest. -/
theorem version?_of_foldlM {records : List Value} {start largest : Number}
    (h : records.foldlM largerVersion start = .ok largest) (hlargest : largest ≠ .nan) :
    start ≠ .nan ∧ ∀ record ∈ records, ∃ x, version? record = some x ∧ x ≠ .nan := by
  induction records generalizing start with
  | nil =>
      cases h
      exact ⟨hlargest, by simp⟩
  | cons record rest ih =>
      rw [List.foldlM_cons] at h
      cases hstep : largerVersion start record with
      | error failure => simp [hstep, bind, Except.bind] at h
      | ok next =>
          rw [hstep] at h
          obtain ⟨hnext, hrest⟩ := ih h
          obtain ⟨x, hx, rfl⟩ := largerVersion_eq_ok hstep
          refine ⟨?_, List.forall_mem_cons.mpr ⟨⟨x, hx, ?_⟩, hrest⟩⟩
          · rintro rfl
            exact hnext rfl
          · rintro rfl
            exact hnext (max_nan_right start)

/-- When the next version is finite, the versions of all records are numbers. -/
theorem version?_of_nextVersion {records : List Value} {version : Number}
    (h : nextVersion records = .ok version) (hfinite : version.isFinite = true) :
    ∀ record ∈ records, ∃ x, version? record = some x ∧ x ≠ .nan := by
  rw [nextVersion] at h
  cases hlargest : records.foldlM largerVersion 0 with
  | error failure => simp [hlargest, bind, Except.bind] at h
  | ok largest =>
      rw [hlargest] at h
      refine (version?_of_foldlM hlargest ?_).2
      rintro rfl
      cases h
      exact absurd hfinite (by decide)

theorem foldlM_largerVersion_of_isCount {records : List Value} {start : Number}
    (hstart : start.IsCount 0)
    (h : ∀ record ∈ records, ∃ x, version? record = some x ∧ x.IsCount 0) :
    ∃ largest, records.foldlM largerVersion start = .ok largest ∧ largest.IsCount 0 := by
  induction records generalizing start with
  | nil => exact ⟨start, rfl, hstart⟩
  | cons record rest ih =>
      obtain ⟨⟨x, hx, hcount⟩, hrest⟩ := List.forall_mem_cons.mp h
      obtain ⟨largest, hlargest, hcount'⟩ := ih (hstart.max hcount) hrest
      refine ⟨largest, ?_, hcount'⟩
      rw [List.foldlM_cons, largerVersion, hx]
      exact hlargest

/-- The next version after versions that count is one that counts, and at least one. -/
theorem nextVersion_of_isCount {records : List Value}
    (h : ∀ record ∈ records, ∃ x, version? record = some x ∧ x.IsCount 0) :
    ∃ version, nextVersion records = .ok version ∧ version.IsCount 1 := by
  obtain ⟨largest, hlargest, hcount⟩ := foldlM_largerVersion_of_isCount Number.isCount_zero h
  refine ⟨largest + 1, ?_, hcount.add_one⟩
  rw [nextVersion, hlargest]
  rfl

/-! ## Sorting -/

/-- Sorting by version neither loses nor repeats a record. -/
theorem perm_of_sortByVersion {records sorted : List Value}
    (h : sortByVersion records = .ok sorted) : sorted.Perm records := by
  rw [sortByVersion] at h
  split at h
  next => cases h
  next =>
    split at h
    next =>
      cases h
      exact List.mergeSort_perm _ _
    next =>
      cases h
      exact Sorting.sortByRuns_perm _ _

theorem exists_sortByVersion {records : List Value}
    (h : ∀ record ∈ records, (version? record).isSome = true) :
    ∃ sorted, sortByVersion records = .ok sorted := by
  have hany : records.any (fun record => (version? record).isNone) = false := by
    rw [List.any_eq_false]
    intro record hrecord
    simp [Option.isSome_iff_ne_none.mp (h record hrecord)]
  rw [sortByVersion, hany, if_neg (by simp)]
  split
  · exact ⟨_, rfl⟩
  · exact ⟨_, rfl⟩

/-- Records with versions that are numbers are merged. -/
theorem sortByVersion_of_numbers {records : List Value}
    (h : ∀ record ∈ records, ∃ x, version? record = some x ∧ x ≠ .nan) :
    sortByVersion records = .ok (records.mergeSort versionLe) := by
  have hsome : records.any (fun record => (version? record).isNone) = false := by
    rw [List.any_eq_false]
    intro record hrecord
    obtain ⟨x, hx, _⟩ := h record hrecord
    simp [hx]
  have hordered : records.all isOrdered = true := by
    rw [List.all_eq_true]
    intro record hrecord
    obtain ⟨x, hx, hnumber⟩ := h record hrecord
    simpa [isOrdered, hx] using hnumber
  rw [sortByVersion, hsome, hordered, if_neg (by simp), if_pos rfl]

/-- Records in ascending order of versions are sorted already. -/
theorem sortByVersion_of_pairwise {records : List Value}
    (hversions : ∀ record ∈ records, ∃ x, version? record = some x ∧ x ≠ .nan)
    (hascending : records.Pairwise fun a b => versionLe a b = true) :
    sortByVersion records = .ok records := by
  rw [sortByVersion_of_numbers hversions, List.mergeSort_of_pairwise hascending]

/-! ## Records with a version after a reduction -/

/-- A plain record with a version that is a number keeps a version when it is reduced. -/
theorem version?_isSome_serial {record reduced : Value} (h : record.IsPlain)
    (hreduced : record.serial? = some reduced) {x : Number} (hx : version? record = some x)
    (hnumber : x ≠ .nan) :
    (∃ members : Dict Value, reduced = .table members) ∧ (version? reduced).isSome = true := by
  have hmissing : record.member "version" ≠ .missing := by
    intro hmember
    have hversion : version? record = none ∨ version? record = some .nan := by
      cases record <;> simp [version?, hmember, Value.toNumber?]
    rcases hversion with hnone | hnan
    · simp [hnone] at hx
    · exact hnumber (by simpa [hnan, eq_comm] using hx)
  obtain ⟨members, rfl⟩ := h.eq_table "version" hmissing
  have hplain := Value.isPlain_table_iff.mp h
  have hmember := h.member "version"
  obtain ⟨version, hversion⟩ := hmember.serial?_isSome hmissing
  rw [Value.serial?_table hplain.2] at hreduced
  cases hreduced
  refine ⟨⟨_, rfl⟩, ?_⟩
  have hsome : ((Value.table members).member "version").toNumber?.isSome = true := by
    change ((Value.table members).member "version").toNumber? = some x at hx
    rw [hx]
    rfl
  change ((Value.table (Value.serialMembers members)).member "version").toNumber?.isSome = true
  rw [Schema.member_serialMembers hplain.1, hversion, Option.getD_some]
  exact hmember.toNumber?_isSome_serial hversion hsome

/-! ## Selecting -/

section

variable {α : Type} {test : α → Except Failure Bool}

theorem filterAuxM_eq_filter {p : α → Bool} {l : List α} (h : ∀ a ∈ l, test a = .ok (p a))
    (kept : List α) : l.filterAuxM test kept = .ok ((l.filter p).reverse ++ kept) := by
  induction l generalizing kept with
  | nil => rfl
  | cons a rest ih =>
      have hrest := ih fun b hb => h b (List.mem_cons_of_mem _ hb)
      rw [List.filterAuxM, h a (by simp)]
      apply (hrest _).trans
      cases hp : p a <;> simp [hp]

theorem filterM_eq_filter {p : α → Bool} {l : List α} (h : ∀ a ∈ l, test a = .ok (p a)) :
    l.filterM test = .ok (l.filter p) := by
  rw [List.filterM, filterAuxM_eq_filter h]
  simp [bind, Except.bind, pure, Except.pure]

/-- A filter that succeeds had an answer for every element. -/
theorem isOk_of_filterAuxM {l kept result : List α} (h : l.filterAuxM test kept = .ok result) :
    ∀ a ∈ l, ∃ answer, test a = .ok answer := by
  induction l generalizing kept with
  | nil => simp
  | cons a rest ih =>
      rw [List.filterAuxM] at h
      cases htest : test a with
      | error failure => simp [htest, bind, Except.bind] at h
      | ok answer =>
          rw [htest] at h
          exact List.forall_mem_cons.mpr ⟨⟨answer, htest⟩, ih h⟩

theorem mem_of_filterM {l result : List α} (h : l.filterM test = .ok result) :
    ∀ a ∈ result, a ∈ l := by
  cases hkept : l.filterAuxM test [] with
  | error failure => simp [List.filterM, hkept, bind, Except.bind] at h
  | ok kept =>
      have hanswers : ∀ a ∈ l, test a = .ok ((test a).toOption.getD false) := by
        intro a ha
        obtain ⟨answer, hanswer⟩ := isOk_of_filterAuxM hkept a ha
        rw [hanswer]
        rfl
      rw [filterM_eq_filter hanswers] at h
      cases h
      exact fun a ha => List.mem_of_mem_filter ha

end

/-- Whether the version member of a record equals a number. -/
def versionIs (version : Number) (record : Value) : Bool :=
  match record.member "version" with
  | .number n => n.equal version
  | _ => false

theorem hasVersion_table (version : Number) (members : Dict Value) :
    hasVersion version (.table members) = .ok (versionIs version (.table members)) := by
  simp only [hasVersion, versionIs]
  cases (Value.table members).member "version" <;> rfl

/-- All records found were among those searched. -/
theorem mem_of_select {version : StoreVersion} {records found : List Value}
    (h : select version records = .ok found) : ∀ record ∈ found, record ∈ records := by
  cases version with
  | all =>
      cases h
      exact fun _ h => h
  | latest =>
      cases h
      intro record hrecord
      have hlast := (List.mem_filter.mp hrecord).1
      exact List.mem_of_getLast? (by simpa [eq_comm] using hlast)
  | number n =>
      rw [select] at h
      exact mem_of_filterM h

end Ledger

end Dispatch
