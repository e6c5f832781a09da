import Dispatch.Proofs.Deployment.Requests
import Dispatch.Proofs.Job.Building
import Mathlib.Data.List.Nodup

/-!
# How domains are bound to models

The objects of an application have one model for each place in the list of domains, and bind
each domain to a model.  Names can be repeated in the list of a job that was restored, and the
table of domains does not take the name that every table reserves for itself.  What is left is
`IsIndexed`: a model for each place, and each domain bound to the model at its last place, for
any list and any answers of a store.

The list of a job that was made from options has no repeats.  Without the reserved name the
domains and the models then stand for each other one to one, which is `IsOneToOne`.
-/

namespace Dispatch

/-! ## Lists without repeats -/

section

/-- A name stands at a place, and nowhere behind it. -/
def IsLastPlace (names : List String) (name : String) (place : Nat) : Prop :=
  names[place]? = some name ∧ ∀ later, place < later → names[later]? ≠ some name

/-- The names of a list without repeats, in the order in which they first occur. -/
structure KeepsFirst (given names : List String) : Prop where
  nodup : names.Nodup
  mem_iff : ∀ name, name ∈ names ↔ name ∈ given
  ordered : names.Pairwise fun earlier later => given.idxOf earlier < given.idxOf later

variable {given names : List String} {name other : String}

theorem exists_isLastPlace (h : name ∈ names) : ∃ place, IsLastPlace names name place := by
  induction names with
  | nil => cases h
  | cons first rest ih =>
      by_cases hrest : name ∈ rest
      · obtain ⟨place, hplace, hlater⟩ := ih hrest
        refine ⟨place + 1, hplace, fun later hlt => ?_⟩
        obtain ⟨previous, rfl⟩ := Nat.exists_eq_add_one_of_ne_zero (Nat.ne_zero_of_lt hlt)
        exact hlater previous (Nat.lt_of_succ_lt_succ hlt)
      · obtain rfl := (List.mem_cons.mp h).resolve_right hrest
        refine ⟨0, rfl, fun later hlt hsame => hrest ?_⟩
        obtain ⟨previous, rfl⟩ := Nat.exists_eq_add_one_of_ne_zero (Nat.ne_zero_of_lt hlt)
        exact List.mem_of_getElem? hsame

/-- A list is divided at the last place of a name. -/
theorem IsLastPlace.exists_append {place : Nat} (h : IsLastPlace names name place) :
    ∃ front back, names = front ++ name :: back ∧ front.length = place ∧ name ∉ back := by
  obtain ⟨hplace, hlater⟩ := h
  obtain ⟨hlt, hget⟩ := List.getElem?_eq_some_iff.mp hplace
  refine ⟨names.take place, names.drop (place + 1), ?_, ?_, ?_⟩
  · rw [← hget, List.getElem_cons_drop, List.take_append_drop]
  · rw [List.length_take, Nat.min_eq_left (Nat.le_of_lt hlt)]
  · intro hmem
    obtain ⟨i, hi⟩ := List.mem_iff_getElem?.mp hmem
    rw [List.getElem?_drop] at hi
    exact hlater _ (by omega) hi

/-- A name that a filter keeps stays behind those that are before it. -/
theorem idxOf_lt_of_filter {kept : String → Bool} (hother : kept other = true)
    (h : (given.filter kept).idxOf name < (given.filter kept).idxOf other) :
    given.idxOf name < given.idxOf other := by
  induction given with
  | nil => exact h
  | cons first rest ih =>
      have hcons (x : String) (hx : x ≠ first) :
          (first :: rest).idxOf x = rest.idxOf x + 1 := List.idxOf_cons_ne rest hx.symm
      have hne : other ≠ first := by
        rintro rfl
        rw [List.filter_cons_of_pos hother, List.idxOf_cons_self] at h
        exact Nat.not_lt_zero _ h
      by_cases hsame : name = first
      · rw [hcons other hne, hsame, List.idxOf_cons_self]
        exact Nat.succ_pos _
      have hrest : (rest.filter kept).idxOf name < (rest.filter kept).idxOf other := by
        by_cases hkept : kept first = true
        · rw [List.filter_cons_of_pos hkept, List.idxOf_cons_ne _ (Ne.symm hsame),
            List.idxOf_cons_ne _ hne.symm] at h
          exact Nat.lt_of_succ_lt_succ h
        · rwa [List.filter_cons_of_neg hkept] at h
      rw [hcons other hne, hcons name hsame]
      exact Nat.succ_lt_succ (ih hrest)

theorem keepsFirst_eraseDups : ∀ given : List String, KeepsFirst given given.eraseDups
  | [] => ⟨.nil, by simp, .nil⟩
  | first :: rest => by
      have ih := keepsFirst_eraseDups (rest.filter fun name => !name == first)
      have hmem (name : String) : name ∈ (rest.filter fun name => !name == first) ↔
          name ∈ rest ∧ name ≠ first := by
        simp [List.mem_filter]
      have hkept (name : String)
          (hname : name ∈ (rest.filter fun name => !name == first).eraseDups) :
          name ∈ rest ∧ name ≠ first := (hmem name).mp ((ih.mem_iff name).mp hname)
      have hcons (name : String) (hname : name ≠ first) :
          (first :: rest).idxOf name = rest.idxOf name + 1 := List.idxOf_cons_ne rest hname.symm
      rw [List.eraseDups_cons]
      refine ⟨List.nodup_cons.mpr ⟨fun hfirst => (hkept first hfirst).2 rfl, ih.nodup⟩,
        fun name => ?_, List.pairwise_cons.mpr ⟨fun name hname => ?_, ?_⟩⟩
      · rw [List.mem_cons, List.mem_cons, ih.mem_iff, hmem]
        tauto
      · rw [List.idxOf_cons_self, hcons name (hkept name hname).2]
        exact Nat.succ_pos _
      · apply ih.ordered.imp_of_mem
        intro earlier later hearlier hlater hlt
        have hearlier := (hkept earlier hearlier).2
        have hlater := (hkept later hlater).2
        rw [hcons earlier hearlier, hcons later hlater]
        exact Nat.succ_lt_succ (idxOf_lt_of_filter (by simp [hlater]) hlt)
  termination_by given => given.length
  decreasing_by
    exact Nat.lt_succ_of_le (List.length_filter_le _ _)

end

namespace DataStore

variable {σ : Type}

/-- The answers to searches for the newest models of domains, one after the other. -/
def newestModels (store : DataStore σ) :
    List String → World σ → List (String × Except Failure (List Value))
  | [], _ => []
  | name :: rest, world =>
    let (answer, world') := store.search name .models .latest world
    (name, answer) :: newestModels store rest world'

end DataStore

namespace ModelEntry

/-- The entry of a domain by what was found for it. -/
inductive IsFor (name : String) : List Value → ModelEntry → Prop
  | gathering : IsFor name [] (dataGathering name)
  | model {record : Value} {rest : List Value} (h : IsCompleteModel record) :
      IsFor name (record :: rest)
        ⟨record.member "uq_type", record.member "file", record.member "threshold", name⟩

/-- Why the answer for a domain makes no entry. -/
inductive Faults : String × Except Failure (List Value) → Failure → Prop
  | search (name : String) (failure : Failure) : Faults (name, .error failure) failure
  | incomplete {record : Value} {file : String} (name : String) (rest : List Value)
      (h : ¬IsCompleteModel record) (hfile : record.member "file" = .text file) :
      Faults (name, .ok (record :: rest)) (.incompleteModel file name)

/-- The failure is the fault of the first answer that has one. -/
def IsFirstFault (answers : List (String × Except Failure (List Value))) (failure : Failure) :
    Prop :=
  ∃ before answer after, answers = before ++ answer :: after ∧
    (∀ earlier ∈ before, ∀ fault, ¬Faults earlier fault) ∧ Faults answer failure

/-- The table of a model as it is to be for a domain and what was found for it. -/
structure Shows (name : String) (records : List Value) (model : Dict Value) : Prop where
  label : model.get? "db_label" = some (.text name)
  aggregate : model.get? "uq_aggregate" = some (.text "mean")
  gathering : records = [] → model.get? "uq_type" = some (.text "random") ∧
    model.get? "model_path" = some (.text "") ∧ model.get? "threshold" = some (.number 1)
  first : ∀ record ∈ records.head?, IsCompleteModel record ∧
    (Value.table model).member "uq_type" = record.member "uq_type" ∧
    (Value.table model).member "model_path" = record.member "file" ∧
    (Value.table model).member "threshold" = record.member "threshold"

theorem IsFor.shows {name : String} {records : List Value} {entry : ModelEntry}
    (h : IsFor name records entry) : Shows name records entry.toTable := by
  rcases h with _ | hcomplete
  · exact ⟨rfl, rfl, fun _ => ⟨rfl, rfl, rfl⟩, by simp⟩
  · refine ⟨rfl, rfl, by simp, ?_⟩
    rintro record ⟨⟩
    exact ⟨hcomplete, rfl, rfl, rfl⟩

theorem IsFor.domain_eq {name : String} {records : List Value} {entry : ModelEntry}
    (h : IsFor name records entry) : entry.domain = name := by
  rcases h with _ | _
  · rfl
  · rfl

theorem IsFor.not_faults {name : String} {records : List Value} {entry : ModelEntry}
    (h : IsFor name records entry) (failure : Failure) : ¬Faults (name, .ok records) failure := by
  intro hfaults
  rcases h with _ | hcomplete
  · cases hfaults
  · rcases hfaults with _ | ⟨_, _, hincomplete, _⟩
    exact hincomplete hcomplete

theorem isFirstFault_cons {answer : String × Except Failure (List Value)} {failure : Failure}
    (h : Faults answer failure) (after : List (String × Except Failure (List Value))) :
    IsFirstFault (answer :: after) failure :=
  ⟨[], answer, after, rfl, by simp, h⟩

theorem IsFirstFault.cons {answers : List (String × Except Failure (List Value))}
    {failure : Failure} (h : IsFirstFault answers failure)
    {answer : String × Except Failure (List Value)} (hanswer : ∀ fault, ¬Faults answer fault) :
    IsFirstFault (answer :: answers) failure := by
  obtain ⟨before, faulty, after, rfl, hbefore, hfaults⟩ := h
  exact ⟨answer :: before, faulty, after, rfl, List.forall_mem_cons.mpr ⟨hanswer, hbefore⟩, hfaults⟩

theorem IsFirstFault.exists_faults {answers : List (String × Except Failure (List Value))}
    {failure : Failure} (h : IsFirstFault answers failure) :
    ∃ answer ∈ answers, Faults answer failure := by
  obtain ⟨before, answer, after, rfl, _, hfaults⟩ := h
  exact ⟨answer, by simp, hfaults⟩

/-- Answers that made entries have no fault. -/
theorem not_faults_of_forall₂ {found : List (String × List Value)} {entries : List ModelEntry}
    (h : List.Forall₂ (fun answer entry => IsFor answer.1 answer.2 entry) found entries)
    {answer : String × List Value} (hanswer : answer ∈ found) (failure : Failure) :
    ¬Faults (answer.1, .ok answer.2) failure := by
  induction h with
  | nil => cases hanswer
  | cons hfirst _ ih =>
    rcases List.mem_cons.mp hanswer with rfl | hanswer
    · exact hfirst.not_faults failure
    · exact ih hanswer

/-- Records make the entry for their domain, or a fault. -/
theorem ofRecords_eq (name : String) {records : List Value}
    (hrecords : ∀ record ∈ records, IsStoreRecord record) :
    (∃ entry, ofRecords name records = .ok entry ∧ IsFor name records entry) ∨
      ∃ failure, ofRecords name records = .error failure ∧
        Faults (name, .ok records) failure := by
  rcases ofRecords_cases name hrecords with ⟨rfl, hgathering⟩ | ⟨record, rest, rfl, hrecord, hfirst⟩
  · exact Or.inl ⟨_, hgathering, .gathering⟩
  rw [hfirst]
  rcases hmade : ofRecord name record with failure | entry
  · obtain ⟨hincomplete, file, hfile, rfl⟩ := ofRecord_eq_error hrecord hmade
    exact Or.inr ⟨_, rfl, .incomplete name rest hincomplete hfile⟩
  · obtain ⟨hcomplete, rfl⟩ := ofRecord_eq_ok hmade
    exact Or.inl ⟨_, rfl, .model hcomplete⟩

end ModelEntry

namespace ModelObjects

/-! ## The tables of objects -/

theorem entryName_injective : Function.Injective entryName := by
  intro i j h
  have hdigits := (String.append_right_inj "model_").mp h
  rw [Nat.toString_eq_ofList_toDigits, Nat.toString_eq_ofList_toDigits, String.ofList_inj]
    at hdigits
  have hi : Nat.ofDigitChars 10 (Nat.toDigits 10 i) 0 = i := Nat.ofDigitChars_ten_toDigits
  rw [← hi, hdigits, Nat.ofDigitChars_ten_toDigits]

section

variable {entries : List ModelEntry} {name : String} {place : Nat}

/-- Models are named by their places, whatever is shown of them. -/
theorem keys_models (shown : ModelEntry → Dict Value) (entries : List ModelEntry) :
    Dict.keys (entries.mapIdx fun place entry => (entryName place, Value.table (shown entry))) =
      (List.range entries.length).map entryName := by
  apply List.ext_getElem
  · simp [Dict.keys]
  · intro i _ _
    simp [Dict.keys]

theorem nodup_entryNames (count : Nat) : ((List.range count).map entryName).Nodup :=
  List.Nodup.map entryName_injective List.nodup_range

theorem get?_models (shown : ModelEntry → Dict Value) {entry : ModelEntry}
    (h : entries[place]? = some entry) :
    Dict.get? (entries.mapIdx fun place entry => (entryName place, Value.table (shown entry)))
      (entryName place) = some (.table (shown entry)) := by
  apply Dict.get?_of_mem
  · rw [keys_models]
    exact nodup_entryNames _
  · obtain ⟨hlt, rfl⟩ := List.getElem?_eq_some_iff.mp h
    exact List.mem_mapIdx.mpr ⟨place, hlt, rfl⟩

theorem nodup_keys_domainNames (entries : List ModelEntry) : (domainNames entries).keys.Nodup :=
  (Dict.isOrdered_nil.assignAll _).nodup

/-- A domain is bound to the model at its last place. -/
theorem get?_domainNames (hname : name ≠ Dict.reservedKey)
    (h : IsLastPlace (entries.map ModelEntry.domain) name place) :
    (domainNames entries).get? name = some (.text (entryName place)) := by
  obtain ⟨front, back, hnames, rfl, hback⟩ := h.exists_append
  obtain ⟨before, rest, rfl, rfl, hrest⟩ := List.map_eq_append_iff.mp hnames
  obtain ⟨entry, after, rfl, rfl, rfl⟩ := List.map_eq_cons_iff.mp hrest
  rw [domainNames, List.mapIdx_append, List.mapIdx_cons, Nat.zero_add, List.length_map]
  apply Dict.get?_assignAll_of_last [] _ _ hname
  intro hmem
  obtain ⟨binding, hbinding, hsame⟩ := List.mem_map.mp hmem
  obtain ⟨i, hi, rfl⟩ := List.mem_mapIdx.mp hbinding
  apply hback
  rw [← hsame]
  exact List.mem_map_of_mem (List.getElem_mem hi)

theorem mem_keys_domainNames : name ∈ (domainNames entries).keys ↔
    name ∈ entries.map ModelEntry.domain ∧ name ≠ Dict.reservedKey := by
  constructor
  · intro h
    refine ⟨?_, ?_⟩
    · obtain ⟨binding, hbinding, rfl⟩ := List.mem_map.mp h
      rcases Dict.mem_of_mem_assignAll hbinding with hnone | hbinding
      · cases hnone
      · obtain ⟨i, hi, rfl⟩ := List.mem_mapIdx.mp hbinding
        exact List.mem_map_of_mem (List.getElem_mem hi)
    · rintro rfl
      rw [← Dict.isSome_get?_iff, domainNames, Dict.get?_assignAll_reservedKey] at h
      cases h
  · rintro ⟨hmem, hname⟩
    obtain ⟨place, hplace⟩ := exists_isLastPlace hmem
    rw [← Dict.isSome_get?_iff, get?_domainNames hname hplace]
    rfl

end

/-! ## Places and domains -/

/--
Models that are named by places, one for each name in a list, and domains that are bound to
the models at their last places.
-/
structure IsIndexed (names : List String) (found : List (String × List Value))
    (models domains : Dict Value) : Prop where
  names_eq : found.map Prod.fst = names
  keys_eq : models.keys = (List.range names.length).map fun place => "model_" ++ toString place
  shows : ∀ (place : Nat) name records, found[place]? = some (name, records) →
    ∃ model : Dict Value, models.get? ("model_" ++ toString place) = some (.table model) ∧
      ModelEntry.Shows name records model
  nodup : domains.keys.Nodup
  mem_iff : ∀ name, name ∈ domains.keys ↔ name ∈ names ∧ name ≠ "__proto__"
  bound : ∀ name (place : Nat), name ≠ "__proto__" → IsLastPlace names name place →
    domains.get? name = some (.text ("model_" ++ toString place))

/-- Domains and models that stand for each other one to one. -/
structure IsOneToOne (names : List String) (models domains : Dict Value) : Prop where
  mem_iff : ∀ name, name ∈ domains.keys ↔ name ∈ names
  into : ∀ name ∈ domains.keys, ∃ key ∈ models.keys, domains.get? name = some (.text key)
  onto : ∀ key ∈ models.keys, ∃! name, domains.get? name = some (.text key)
  label : ∀ name ∈ names, ∃ key model, domains.get? name = some (.text key) ∧
    models.get? key = some (.table model) ∧ Dict.get? model "db_label" = some (.text name)

/-- Models that show what was found for their domains are indexed with these. -/
theorem isIndexed_mapIdx {found : List (String × List Value)} {entries : List ModelEntry}
    {shown : ModelEntry → Dict Value}
    (h : List.Forall₂ (fun answer entry => entry.domain = answer.1 ∧
      ModelEntry.Shows answer.1 answer.2 (shown entry)) found entries) :
    IsIndexed (found.map Prod.fst) found
      (entries.mapIdx fun place entry => (entryName place, .table (shown entry)))
      (domainNames entries) := by
  have hdomains : entries.map ModelEntry.domain = found.map Prod.fst := by
    induction h with
    | nil => rfl
    | cons hfirst _ ih => rw [List.map_cons, List.map_cons, hfirst.1, ih]
  obtain ⟨hlength, hentries⟩ := List.forall₂_iff_get.mp h
  refine ⟨rfl, ?_, fun place name records hplace => ?_, nodup_keys_domainNames entries,
    fun name => ?_, fun name place hname hplace => ?_⟩
  · rw [List.length_map, hlength]
    exact keys_models shown entries
  · obtain ⟨hlt, hanswer⟩ := List.getElem?_eq_some_iff.mp hplace
    have hentry := hentries place hlt (hlength ▸ hlt)
    rw [List.get_eq_getElem, List.get_eq_getElem, hanswer] at hentry
    exact ⟨_, get?_models shown (List.getElem?_eq_getElem (hlength ▸ hlt)), hentry.2⟩
  · rw [← hdomains]
    exact mem_keys_domainNames
  · rw [← hdomains] at hplace
    exact get?_domainNames hname hplace

/-- The models of objects and the domains that are bound to them are indexed. -/
theorem isIndexed_toTable {found : List (String × List Value)} {entries : List ModelEntry}
    (h : List.Forall₂ (fun answer entry => ModelEntry.IsFor answer.1 answer.2 entry) found entries)
    (target : SampleTarget) :
    IsIndexed (found.map Prod.fst) found
      ((Value.table (toTable ⟨target, entries⟩)).tableMember "ml_models")
      ((Value.table (toTable ⟨target, entries⟩)).tableMember "domain_models") :=
  isIndexed_mapIdx (h.imp fun _ _ hentry => ⟨hentry.domain_eq, hentry.shows⟩)

section

variable {names : List String} {found : List (String × List Value)} {models domains : Dict Value}
  (h : IsIndexed names found models domains)

include h

/-- The model at the last place of a name is that of the name. -/
theorem IsIndexed.exists_model {name : String} {place : Nat}
    (hplace : IsLastPlace names name place) :
    ∃ model, models.get? ("model_" ++ toString place) = some (.table model) ∧
      Dict.get? model "db_label" = some (.text name) := by
  have hname := hplace.1
  rw [← h.names_eq, List.getElem?_map, Option.map_eq_some_iff] at hname
  obtain ⟨⟨_, records⟩, hfound, rfl⟩ := hname
  obtain ⟨model, hmodel, hshows⟩ := h.shows place _ records hfound
  exact ⟨model, hmodel, hshows.label⟩

theorem IsIndexed.isOneToOne (hnodup : names.Nodup) (hreserved : "__proto__" ∉ names) :
    IsOneToOne names models domains := by
  have hmem (name : String) : name ∈ domains.keys ↔ name ∈ names := by
    rw [h.mem_iff]
    exact and_iff_left_of_imp fun hname => ne_of_mem_of_not_mem hname hreserved
  have hbound (name : String) (hname : name ∈ names) : ∃ place, IsLastPlace names name place ∧
      domains.get? name = some (.text (entryName place)) := by
    obtain ⟨place, hplace⟩ := exists_isLastPlace hname
    exact ⟨place, hplace, h.bound name place (ne_of_mem_of_not_mem hname hreserved) hplace⟩
  refine ⟨hmem, fun name hname => ?_, fun key hkey => ?_, fun name hname => ?_⟩
  · obtain ⟨place, hplace, hget⟩ := hbound name ((hmem name).mp hname)
    have hlt := (List.getElem?_eq_some_iff.mp hplace.1).1
    refine ⟨entryName place, ?_, hget⟩
    rw [h.keys_eq]
    exact List.mem_map_of_mem (List.mem_range.mpr hlt)
  · rw [h.keys_eq] at hkey
    obtain ⟨place, hrange, rfl⟩ := List.mem_map.mp hkey
    have hlt := List.mem_range.mp hrange
    have hat : ∀ name, domains.get? name = some (.text (entryName place)) →
        names[place]? = some name := by
      intro name hget
      have hkeys := Dict.mem_keys_of_mem (Dict.mem_of_get? hget)
      obtain ⟨other, hother, hsame⟩ := hbound name ((hmem name).mp hkeys)
      rw [hget, Option.some.injEq, Value.text.injEq] at hsame
      rw [entryName_injective hsame]
      exact hother.1
    obtain ⟨other, hother, hget⟩ := hbound names[place] (List.getElem_mem hlt)
    have hsame : other = place := by
      obtain ⟨hlt', hsame⟩ := List.getElem?_eq_some_iff.mp hother.1
      exact (List.Nodup.getElem_inj_iff hnodup).mp hsame
    rw [hsame] at hget
    refine ⟨names[place], hget, fun name hname => ?_⟩
    have hplace := hat name hname
    rw [List.getElem?_eq_getElem hlt, Option.some.injEq] at hplace
    exact hplace.symm
  · obtain ⟨place, hplace, hget⟩ := hbound name hname
    obtain ⟨model, hmodel, hlabel⟩ := h.exists_model hplace
    exact ⟨_, model, hget, hmodel, hlabel⟩

end

/-! ## Building -/

section

variable {σ : Type} {store : DataStore σ}

/-- Something holds of all records that a store answers when it is asked for a newest model. -/
def FindsOnly (store : DataStore σ) (p : List Value → Prop) : Prop :=
  ∀ name world records world',
    store.search name .models .latest world = (.ok records, world') → p records

/-- Records of which the first one counts. -/
def BeginsWithModel (records : List Value) : Prop :=
  ∀ record ∈ records.head?, record.isTruthy = true

theorem isFor_of_ofRecords {name : String} {records : List Value} {entry : ModelEntry}
    (hfirst : BeginsWithModel records) (h : ModelEntry.ofRecords name records = .ok entry) :
    ModelEntry.IsFor name records entry := by
  cases records with
  | nil =>
      cases h
      exact .gathering
  | cons record rest =>
      rw [ModelEntry.ofRecords, if_pos (hfirst record rfl)] at h
      obtain ⟨hcomplete, rfl⟩ := ModelEntry.ofRecord_eq_ok h
      exact .model hcomplete

theorem beginsWithModel_of_isStoreRecord {records : List Value}
    (h : ∀ record ∈ records, IsStoreRecord record) : BeginsWithModel records := by
  intro record hrecord
  obtain ⟨kind, members, rfl⟩ := (h record (List.mem_of_mem_head? hrecord)).object
  rfl

/-- Entries that were looked up are made from the answers to all searches. -/
theorem exists_found_of_entries {p : List Value → Prop} (hp : FindsOnly store p)
    {names : List String} {entries : List ModelEntry} {world world' : World σ}
    (h : names.mapM (lookUp store) world = (.ok entries, world')) :
    ∃ found, store.newestModels names world =
        found.map (fun answer => (answer.1, .ok answer.2)) ∧
      found.map Prod.fst = names ∧
      List.Forall₂ (fun answer entry => p answer.2 ∧
        ModelEntry.ofRecords answer.1 answer.2 = .ok entry) found entries := by
  induction names generalizing entries world with
  | nil =>
      cases h
      exact ⟨[], rfl, rfl, .nil⟩
  | cons name rest ih =>
      rw [List.mapM_cons] at h
      obtain ⟨entry, between, hfirst, h⟩ := Operation.bind_eq_ok_iff.mp h
      obtain ⟨more, last, hmore, h⟩ := Operation.bind_eq_ok_iff.mp h
      cases h
      obtain ⟨records, after, hsearch, hmade⟩ := Operation.bind_eq_ok_iff.mp hfirst
      obtain ⟨hentry, rfl⟩ := Action.ofExcept_eq_ok_iff.mp hmade
      obtain ⟨found, hanswers, hnames, hall⟩ := ih hmore
      refine ⟨(name, records) :: found, ?_, ?_, .cons ⟨hp _ _ _ _ hsearch, hentry⟩ hall⟩
      · rw [DataStore.newestModels, hsearch]
        exact congrArg _ hanswers
      · rw [List.map_cons, hnames]

/-- Looking up fails for the first fault there is in the answers. -/
theorem isFirstFault_of_entries (hstore : store.AnswersRecords) {names : List String}
    {failure : Failure} {world world' : World σ}
    (h : names.mapM (lookUp store) world = (.error failure, world')) :
    ModelEntry.IsFirstFault (store.newestModels names world) failure := by
  induction names generalizing world with
  | nil => cases h
  | cons name rest ih =>
      rcases hsearch : store.search name .models .latest world with ⟨answer, between⟩
      rw [List.mapM_cons] at h
      rw [DataStore.newestModels, hsearch]
      rcases answer with raised | records
      · have hfirst : lookUp store name world = (.error raised, between) :=
          Operation.bind_of_error hsearch
        rw [Operation.bind_of_error hfirst] at h
        cases h
        exact ModelEntry.isFirstFault_cons (.search name failure) _
      have hfirst : lookUp store name world = (ModelEntry.ofRecords name records, between) :=
        Operation.bind_of_ok hsearch
      rcases ModelEntry.ofRecords_eq name (hstore _ _ _ _ _ _ hsearch) with
        ⟨entry, hentry, hfor⟩ | ⟨fault, hfault, hfaults⟩
      · rw [hentry] at hfirst
        rw [Operation.bind_of_ok hfirst] at h
        rcases Operation.bind_eq_error_iff.mp h with hrest | ⟨more, last, _, hreturn⟩
        · exact (ih hrest).cons hfor.not_faults
        · cases hreturn
      · rw [hfault] at hfirst
        rw [Operation.bind_of_error hfirst] at h
        cases h
        exact ModelEntry.isFirstFault_cons hfaults _

variable {broker : Option Broker} {stageDir : Option String} {world world₁ : World σ}
  {target : SampleTarget}
  (htarget : SampleTarget.choose store broker stageDir world = (.ok target, world₁))

include htarget

/-- Building ends with the entries once the target is known. -/
theorem build_of_target (names : List String) : build store broker names stageDir world =
    (names.mapM (lookUp store) >>= fun entries => pure ⟨target, entries⟩) world₁ :=
  Operation.bind_of_ok htarget

/-- Objects that are built have an entry for each answer. -/
theorem exists_found_of_build {p : List Value → Prop} (hp : FindsOnly store p)
    {names : List String} {objects : ModelObjects} {world' : World σ}
    (h : build store broker names stageDir world = (.ok objects, world')) :
    ∃ found entries, objects = ⟨target, entries⟩ ∧ found.map Prod.fst = names ∧
      store.newestModels names world₁ = found.map (fun answer => (answer.1, .ok answer.2)) ∧
      List.Forall₂ (fun answer entry => p answer.2 ∧
        ModelEntry.ofRecords answer.1 answer.2 = .ok entry) found entries := by
  rw [build_of_target htarget] at h
  obtain ⟨entries, last, hentries, h⟩ := Operation.bind_eq_ok_iff.mp h
  cases h
  obtain ⟨found, hanswers, hnames, hall⟩ := exists_found_of_entries hp hentries
  exact ⟨found, entries, rfl, hnames, hanswers, hall⟩

variable (hstore : store.AnswersRecords)

include hstore

theorem isFor_of_build {names : List String} {objects : ModelObjects} {world' : World σ}
    (h : build store broker names stageDir world = (.ok objects, world')) :
    ∃ found entries, objects = ⟨target, entries⟩ ∧ found.map Prod.fst = names ∧
      store.newestModels names world₁ = found.map (fun answer => (answer.1, .ok answer.2)) ∧
      List.Forall₂ (fun answer entry => ModelEntry.IsFor answer.1 answer.2 entry)
        found entries := by
  obtain ⟨found, entries, hobjects, hnames, hanswers, hall⟩ :=
    exists_found_of_build htarget (fun _ _ _ _ => hstore _ _ _ _ _ _) h
  exact ⟨found, entries, hobjects, hnames, hanswers, hall.imp fun _ _ hentry =>
    isFor_of_ofRecords (beginsWithModel_of_isStoreRecord hentry.1) hentry.2⟩

theorem isIndexed_of_build {names : List String} {objects : ModelObjects} {world' : World σ}
    (h : build store broker names stageDir world = (.ok objects, world')) :
    objects.target = target ∧ ∃ found, store.newestModels names world₁ =
        found.map (fun answer => (answer.1, .ok answer.2)) ∧
      IsIndexed names found ((Value.table objects.toTable).tableMember "ml_models")
        ((Value.table objects.toTable).tableMember "domain_models") := by
  obtain ⟨found, entries, rfl, rfl, hanswers, hall⟩ := isFor_of_build htarget hstore h
  exact ⟨rfl, found, hanswers, isIndexed_toTable hall target⟩

theorem isFirstFault_of_build {names : List String} {failure : Failure}
    (h : (build store broker names stageDir world).1 = .error failure) :
    ModelEntry.IsFirstFault (store.newestModels names world₁) failure := by
  rcases hrun : build store broker names stageDir world with ⟨result, world'⟩
  rw [hrun] at h
  obtain rfl : result = .error failure := h
  rw [build_of_target htarget] at hrun
  rcases Operation.bind_eq_error_iff.mp hrun with hentries | ⟨entries, last, _, hreturn⟩
  · exact isFirstFault_of_entries hstore hentries
  · cases hreturn

/-- Building fails exactly if some answer has a fault. -/
theorem exists_error_of_build_iff (names : List String) :
    (∃ failure, (build store broker names stageDir world).1 = .error failure) ↔
      ∃ answer ∈ store.newestModels names world₁, ∃ fault, ModelEntry.Faults answer fault := by
  constructor
  · rintro ⟨failure, h⟩
    obtain ⟨answer, hanswer, hfaults⟩ := (isFirstFault_of_build htarget hstore h).exists_faults
    exact ⟨answer, hanswer, failure, hfaults⟩
  · rintro ⟨answer, hanswer, fault, hfaults⟩
    rcases hrun : build store broker names stageDir world with ⟨failure | objects, world'⟩
    · exact ⟨failure, rfl⟩
    · obtain ⟨found, entries, _, _, hanswers, hall⟩ := isFor_of_build htarget hstore hrun
      rw [hanswers] at hanswer
      obtain ⟨records, hfound, rfl⟩ := List.mem_map.mp hanswer
      exact absurd hfaults (ModelEntry.not_faults_of_forall₂ hall hfound fault)

/--
The objects that are built show what was found for each name, in order.  They are built
unless an answer has a fault, and the first one that has is then the failure.  The names of
a job that was made from options stand for its models one to one, if none is reserved.
-/
theorem build_indexes (names : List String) :
    (∀ objects world', build store broker names stageDir world = (.ok objects, world') →
      objects.target = target ∧ ∃ found, store.newestModels names world₁ =
          found.map (fun answer => (answer.1, .ok answer.2)) ∧
        IsIndexed names found ((Value.table objects.toTable).tableMember "ml_models")
          ((Value.table objects.toTable).tableMember "domain_models")) ∧
    ((∃ failure, (build store broker names stageDir world).1 = .error failure) ↔
      ∃ answer ∈ store.newestModels names world₁, ∃ fault, ModelEntry.Faults answer fault) ∧
    (∀ failure, (build store broker names stageDir world).1 = .error failure →
      ModelEntry.IsFirstFault (store.newestModels names world₁) failure) ∧
    ∀ options job, Job.domain options names stageDir = .ok job →
      ∃ kept, job.role = .domain kept stageDir none ∧ KeepsFirst names kept ∧
        ("__proto__" ∉ names → ∀ objects world',
          build store broker kept stageDir world = (.ok objects, world') →
          IsOneToOne kept ((Value.table objects.toTable).tableMember "ml_models")
            ((Value.table objects.toTable).tableMember "domain_models")) := by
  refine ⟨fun objects world' h => isIndexed_of_build htarget hstore h,
    exists_error_of_build_iff htarget hstore names,
    fun failure h => isFirstFault_of_build htarget hstore h, fun options job hjob => ?_⟩
  have hkept := keepsFirst_eraseDups names
  refine ⟨names.eraseDups, (Job.create_of_domain hjob).2, hkept, ?_⟩
  intro hreserved objects world' h
  obtain ⟨_, found, _, hindexed⟩ := isIndexed_of_build htarget hstore h
  exact hindexed.isOneToOne hkept.nodup fun hmem => hreserved ((hkept.mem_iff _).mp hmem)

end

end ModelObjects

/-- A store that has one model, for the domain `a`. -/
def DataStore.withOneDomain : DataStore Unit where
  rootPath := "/"
  candidatePath := pure "/candidates"
  search subject _ _ := pure (if subject = "a" then
    [.table [("domain_name", .text "a"), ("file", .text "m.pt"), ("uq_type", .text "random"),
      ("threshold", .number 1)]] else [])
  makeDirectory directory := pure directory
  uniqueFilename := pure "objects"

theorem DataStore.answersRecords_withOneDomain : withOneDomain.AnswersRecords := by
  intro subject entry version world records world' h record hrecord
  obtain rfl := Except.ok.inj (Prod.mk.inj h).1
  split at hrecord
  next =>
    obtain rfl := List.mem_singleton.mp hrecord
    exact ⟨⟨_, _, rfl⟩, ⟨"m.pt", rfl⟩, Or.inr ⟨"random", rfl⟩, Or.inr ⟨1, rfl⟩⟩
  next => cases hrecord

/-- A broker that is known by its host alone. -/
def Broker.withHost : Broker where
  descriptor _ := .ok [("host", .text "broker.example")]

theorem ModelObjects.build_indexes_repeated :
    let target := SampleTarget.broker [("host", .text "broker.example")]
    DataStore.withOneDomain.AnswersRecords ∧
      SampleTarget.choose DataStore.withOneDomain (some .withHost) none ⟨.empty, [], ()⟩ =
        (.ok target, ⟨.empty, [], ()⟩) ∧
      ∃ objects world' found, build DataStore.withOneDomain (some .withHost)
          ["a", "__proto__", "b", "a"] none ⟨.empty, [], ()⟩ = (.ok objects, world') ∧
        objects.target = target ∧
        DataStore.withOneDomain.newestModels ["a", "__proto__", "b", "a"] ⟨.empty, [], ()⟩ =
          found.map (fun answer => (answer.1, .ok answer.2)) ∧
        IsIndexed ["a", "__proto__", "b", "a"] found
          ((Value.table objects.toTable).tableMember "ml_models")
          ((Value.table objects.toTable).tableMember "domain_models") ∧
        ((Value.table objects.toTable).tableMember "ml_models").keys =
          ["model_0", "model_1", "model_2", "model_3"] ∧
        ((Value.table objects.toTable).tableMember "domain_models").get? "a" =
          some (.text "model_3") := by
  intro target
  have htarget : SampleTarget.choose DataStore.withOneDomain (some .withHost) none
      ⟨.empty, [], ()⟩ = (.ok target, ⟨.empty, [], ()⟩) := rfl
  obtain ⟨objects, world', hrun⟩ := Operation.exists_of_isOk (show ((build
    DataStore.withOneDomain (some .withHost) ["a", "__proto__", "b", "a"] none
      ⟨.empty, [], ()⟩).1).isOk = true by decide +kernel)
  obtain ⟨hsame, found, hfound, hindexed⟩ :=
    (build_indexes htarget DataStore.answersRecords_withOneDomain _).1 objects world' hrun
  refine ⟨DataStore.answersRecords_withOneDomain, htarget, objects, world', found, hrun, hsame,
    hfound, hindexed, hindexed.keys_eq.trans (by decide), ?_⟩
  refine hindexed.bound "a" 3 (by decide) ⟨rfl, fun later hlater hsome => ?_⟩
  rw [List.getElem?_eq_none (Nat.succ_le_of_lt hlater)] at hsome
  cases hsome

end Dispatch
