import Dispatch.Proofs.Deployment.Credentials
import Dispatch.Proofs.Deployment.Failures
import Dispatch.Proofs.Deployment.Indexing
import Dispatch.Proofs.Json.Settled
import Dispatch.Proofs.Store.Ascending
import Dispatch.Proofs.Store.Saving

/-!
# What an objects file shows

`ShowsObjects` says what an application reads from an objects file: where its samples go, a
model for each place in the list of its domains, and the model that each domain is bound to.
What a store has found is read as `Value.asRead` has it, with null for a number out of range.

A ledger store finds nothing but what it has read itself, so that no more of it is lost.  In
a ledger that holds a log the newest record of a domain is the last one that was added, and
an application reads that record whatever the ledger's own document left out of it.
-/

namespace Dispatch

open Ledger

/-! ## Targets -/

/-- A broker that shows applications a table of texts and numbers. -/
structure Broker.ShowsRecord (broker : Broker) : Prop where
  fields : broker.ShowsFields
  ordered : ∀ settings, broker.descriptor true = .ok settings → settings.IsOrdered

theorem Broker.ShowsRecord.isRead {broker : Broker} (h : broker.ShowsRecord)
    {settings : Dict Value} (hsettings : broker.descriptor true = .ok settings) :
    (Value.table settings).IsRead := by
  refine .table (h.ordered settings hsettings) fun setting hsetting => ?_
  rcases h.fields settings hsettings setting hsetting with ⟨text, htext⟩ | ⟨x, hx⟩
  · rw [htext]
    exact .text text
  · rw [hx]
    exact .number x

namespace RmqBroker

theorem keys_select_sublist (broker : RmqBroker) (names : List String) :
    (broker.select names).keys.Sublist names := by
  induction names with
  | nil => exact List.Sublist.refl _
  | cons name rest ih =>
      rw [select, List.filterMap_cons]
      split
      next => exact ih.cons name
      next hvalue =>
        split at hvalue
        next => cases hvalue
        next =>
          cases hvalue
          exact ih.cons_cons name

theorem text_or_integer_of_mem_members : ∀ part ∈ members, (∃ least, part.2.2 = .text least) ∨
    ∃ least greatest, part.2.2 = .integer least greatest := by
  simp [members, Schema.required, Schema.optional]

/-- Settings that were accepted are shown as texts and numbers. -/
theorem showsRecord_toBroker {value : Value} {broker : RmqBroker}
    (h : ofValue value = .ok broker) : broker.toBroker.ShowsRecord := by
  obtain ⟨haccepted, rfl⟩ := ofValue_eq_ok_iff.mp h
  constructor
  · rintro settings ⟨⟩ setting hsetting
    obtain ⟨hname, hpresent, hmember⟩ := mem_select_iff.mp hsetting
    have hall : libraryKeys ⊆ allKeys := by decide
    obtain ⟨part, hpart, hsame⟩ := List.mem_map.mp (hall hname)
    have hfield := Schema.accepts_member_of_table haccepted part hpart
    rw [hsame, hmember] at hfield
    have hfield := hfield.resolve_left fun hmissing => hpresent hmissing.2
    rcases text_or_integer_of_mem_members part hpart with ⟨least, htext⟩ | ⟨least, greatest, hport⟩
    · rw [htext] at hfield
      exact Or.inl (Schema.exists_text_of_accepts hfield)
    · rw [hport] at hfield
      exact Or.inr (Schema.exists_number_of_accepts hfield)
  · rintro settings ⟨⟩
    have hlibrary : libraryKeys.Pairwise fun a b => a ≠ b ∧ Dict.goesBefore b a = false := by
      decide
    exact hlibrary.sublist (keys_select_sublist _ _)

end RmqBroker

/-- Where samples go, as an application reads it from the objects of a job. -/
inductive ShowsTarget (store : LedgerStore) : Option Broker → Option String → Dict Value → Prop
  | broker {broker : Broker} {settings : Dict Value} (stageDir : Option String)
      (h : broker.descriptor true = .ok settings) :
      ShowsTarget store (some broker) stageDir [("rmq_config", (Value.table settings).asRead),
        ("dbType", .text "rmq"), ("update_surrogate", .bool false)]
  | directory (path : String) : ShowsTarget store none (some path)
      [("fs_path", .text path), ("dbType", .text "hdf5")]
  | candidates : ShowsTarget store none none
      [("fs_path", .text store.candidatePath), ("dbType", .text "hdf5")]

namespace SampleTarget

/-- The target of a job that is deployed with a ledger store. -/
def ofLedgerStore (store : LedgerStore) (broker : Option Broker) (stageDir : Option String) :
    Except Failure SampleTarget :=
  match broker, stageDir with
  | some broker, _ => return .broker (← broker.shown)
  | none, some directory => return .files directory
  | none, none => return .files store.candidatePath

theorem choose_toDataStore (store : LedgerStore) (broker : Option Broker)
    (stageDir : Option String) : choose store.toDataStore broker stageDir =
      Action.ofExcept (ofLedgerStore store broker stageDir) := by
  cases broker with
  | some broker =>
      rw [choose, ofLedgerStore]
      cases broker.shown with
      | error failure => rfl
      | ok settings => rfl
  | none =>
      cases stageDir with
      | some directory => rfl
      | none => rfl

/-- A target is read again as it is shown. -/
theorem showsTarget_of_choose {store : LedgerStore} {broker : Option Broker}
    {stageDir : Option String} {target : SampleTarget} {world world' : World Devices}
    (h : choose store.toDataStore broker stageDir world = (.ok target, world'))
    (hbroker : ∀ b ∈ broker, b.ShowsRecord) :
    (Value.table target.toTable).IsRead ∧
      ShowsTarget store broker stageDir (Value.asReadMembers target.toTable) := by
  have hfiles (path : String) : (Value.table (files path).toTable).IsRead :=
    .table (Dict.isOrdered_of_keys_eq (d := [("fs_path", ()), ("dbType", ())]) rfl (by decide))
      (by simp [toTable, Value.IsRead.text])
  rw [choose_toDataStore] at h
  have htarget := (Action.ofExcept_eq_ok_iff.mp h).1
  cases broker with
  | some broker =>
      obtain ⟨settings, hshown, htarget⟩ := exists_of_bind_eq_ok htarget
      cases htarget
      have hsettings := Broker.shown_eq_ok_iff.mp hshown
      have hread := (hbroker broker rfl).isRead hsettings
      refine ⟨.table (Dict.isOrdered_of_keys_eq (d := [("rmq_config", ()), ("dbType", ()),
        ("update_surrogate", ())]) rfl (by decide)) ?_, .broker stageDir hsettings⟩
      simp [toTable, hread, Value.IsRead.text, Value.IsRead.bool]
  | none =>
      cases stageDir with
      | some directory =>
          cases htarget
          exact ⟨hfiles directory, .directory directory⟩
      | none =>
          cases htarget
          exact ⟨hfiles store.candidatePath, .candidates⟩

end SampleTarget

/-! ## Models -/

namespace ModelEntry

/-- An entry with fields that were read, or that are missing. -/
structure IsReadable (entry : ModelEntry) : Prop where
  uqType : entry.uqType = .missing ∨ entry.uqType.IsRead
  modelPath : entry.modelPath = .missing ∨ entry.modelPath.IsRead
  threshold : entry.threshold = .missing ∨ entry.threshold.IsRead

theorem IsFor.isReadable {name : String} {records : List Value} {entry : ModelEntry}
    (h : IsFor name records entry) (hrecords : ∀ record ∈ records, record.IsRead) :
    entry.IsReadable := by
  rcases h with _ | _
  · exact ⟨Or.inr (.text _), Or.inr (.text _), Or.inr (.number _)⟩
  next record rest _ =>
    have hrecord := hrecords record List.mem_cons_self
    exact ⟨hrecord.member _, hrecord.member _, hrecord.member _⟩

/-- The members of a model are missing, or can be read again. -/
theorem IsReadable.toTable {entry : ModelEntry} (h : entry.IsReadable) :
    ∀ field ∈ entry.toTable, field.2 = .missing ∨ field.2.IsRead := by
  simp only [ModelEntry.toTable, List.forall_mem_cons]
  exact ⟨h.uqType, h.modelPath, Or.inr (.text _), h.threshold, Or.inr (.text _), by simp⟩

theorem isOrdered_toTable (entry : ModelEntry) : entry.toTable.IsOrdered :=
  Dict.isOrdered_of_keys_eq (d := [("uq_type", ()), ("model_path", ()), ("uq_aggregate", ()),
    ("threshold", ()), ("db_label", ())]) rfl (by decide)

theorem IsReadable.isPlain {entry : ModelEntry} (h : entry.IsReadable) :
    (Value.table entry.toTable).IsPlain := by
  refine .table entry.isOrdered_toTable fun field hfield => ?_
  rcases h.toTable field hfield with hmissing | hread
  · rw [hmissing]
    exact .missing
  · exact hread.isPlain

/-- A model is read again as it is shown, with its record as that would be read. -/
theorem Shows.asRead {name : String} {records : List Value} {model : Dict Value}
    (h : Shows name records model) (hnodup : model.keys.Nodup)
    (hmodel : ∀ field ∈ model, field.2 = .missing ∨ field.2.IsRead) :
    Shows name (records.map .asRead) (Value.serialMembers model) := by
  have hget {field : String} {value : Value} (hvalue : model.get? field = some value)
      (hserial : value.serial? = some value) :
      Dict.get? (Value.serialMembers model) field = some value := by
    rw [Value.get?_serialMembers hnodup, hvalue, Option.bind_some, hserial]
  constructor
  · exact hget h.label rfl
  · exact hget h.aggregate rfl
  · intro hnone
    obtain ⟨huqType, hpath, hthreshold⟩ := h.gathering (List.map_eq_nil_iff.mp hnone)
    exact ⟨hget huqType rfl, hget hpath rfl,
      hget hthreshold (Value.serial?_ofInt (show 1 ≤ 2 ^ 53 by omega))⟩
  · intro shown hshown
    rw [List.head?_map, Option.mem_map] at hshown
    obtain ⟨record, hrecord, rfl⟩ := hshown
    obtain ⟨⟨huqType, hthreshold⟩, hsame⟩ := h.first record hrecord
    simp only [IsCompleteModel, Value.member_asRead, Value.member_serialMembers hnodup hmodel,
      hsame, ne_eq, Value.asRead_eq_missing_iff, and_self, and_true]
    exact ⟨huqType, hthreshold⟩

/-- Records with the same members are shown alike. -/
theorem Shows.of_members {name : String} {records others : List Value} {model : Dict Value}
    (h : Shows name records model)
    (hsame : List.Forall₂ (fun record other => ∀ field, Value.member record field =
      Value.member other field) records others) : Shows name others model := by
  cases hsame with
  | nil => exact h
  | @cons record other _ _ hfirst _ =>
      obtain ⟨hcomplete, hmembers⟩ := h.first record rfl
      simp only [IsCompleteModel, hfirst] at hcomplete hmembers
      refine ⟨h.label, h.aggregate, fun hnone => absurd hnone (List.cons_ne_nil _ _), ?_⟩
      rintro first ⟨⟩
      exact ⟨hcomplete, hmembers⟩

end ModelEntry

/-! ## Objects -/

/--
A table that shows where the samples of a job go, and a model for each of its domains with
what was found for it.
-/
def ShowsObjects (store : LedgerStore) (broker : Option Broker) (stageDir : Option String)
    (names : List String) (found : List (String × List Value)) (objects : Dict Value) : Prop :=
  ∃ db models domains,
    objects = [("db", .table db), ("ml_models", .table models), ("domain_models", .table domains)] ∧
      ShowsTarget store broker stageDir db ∧
      ModelObjects.IsIndexed names (found.map fun answer => (answer.1, answer.2.map Value.asRead))
        models domains

namespace ModelObjects

theorem arrayIndex?_entryName (place : Nat) : arrayIndex? (entryName place) = none := by
  have hletter : (entryName place).toList.all Char.isDigit = false := by
    rw [entryName, String.toList_append, List.all_append, show "model_".toList.all Char.isDigit =
      false from by decide, Bool.false_and]
  simp [arrayIndex?, hletter]

/-- Names of models are no indices, and stand in the order of their places. -/
theorem isOrdered_models (shown : ModelEntry → Dict Value) (entries : List ModelEntry) :
    Dict.IsOrdered (entries.mapIdx fun place entry =>
      (entryName place, Value.table (shown entry))) := by
  rw [Dict.IsOrdered, keys_models]
  refine (nodup_entryNames entries.length).imp_of_mem fun {a b} _ hb hne => ⟨hne, ?_⟩
  obtain ⟨place, _, rfl⟩ := List.mem_map.mp hb
  rw [Dict.goesBefore, arrayIndex?_entryName]

theorem serialMembers_models {entries : List ModelEntry}
    (h : ∀ entry ∈ entries, entry.IsReadable) (name : Nat → String) :
    Value.serialMembers (entries.mapIdx fun place entry => (name place, .table entry.toTable)) =
      entries.mapIdx fun place entry =>
        (name place, .table (Value.serialMembers entry.toTable)) := by
  induction entries generalizing name with
  | nil => rfl
  | cons entry rest ih =>
      obtain ⟨hentry, hrest⟩ := List.forall_mem_cons.mp h
      have hmore := ih hrest fun place => name (place + 1)
      have hserial := Value.serial?_table (Value.isPlain_table_iff.mp hentry.isPlain).2
      rw [List.mapIdx_cons, List.mapIdx_cons, Value.serialMembers, hserial, hmore]

theorem eq_text_of_mem_domainNames {entries : List ModelEntry} {domain : String × Value}
    (h : domain ∈ domainNames entries) : ∃ name, domain.2 = .text name := by
  rcases Dict.mem_of_mem_assignAll h with hnone | hbinding
  · cases hnone
  · obtain ⟨place, _, rfl⟩ := List.mem_mapIdx.mp hbinding
    exact ⟨_, rfl⟩

section

variable {target : SampleTarget} {entries : List ModelEntry}
  (htarget : (Value.table target.toTable).IsRead) (hentries : ∀ entry ∈ entries, entry.IsReadable)

include htarget hentries

theorem isPlain_toTable : (Value.table (toTable ⟨target, entries⟩)).IsPlain := by
  refine .table (Dict.isOrdered_of_keys_eq (d := [("db", ()), ("ml_models", ()),
    ("domain_models", ())]) rfl (by decide)) ?_
  simp only [toTable, List.forall_mem_cons]
  refine ⟨htarget.isPlain, .table (isOrdered_models _ _) fun model hmodel => ?_,
    .table (Dict.isOrdered_nil.assignAll _) fun domain hdomain => ?_, by simp⟩
  · obtain ⟨place, hplace, rfl⟩ := List.mem_mapIdx.mp hmodel
    exact (hentries _ (List.getElem_mem hplace)).isPlain
  · obtain ⟨name, hname⟩ := eq_text_of_mem_domainNames hdomain
    rw [hname]
    exact .text name

theorem serialMembers_toTable : Value.serialMembers (toTable ⟨target, entries⟩) =
    [("db", .table (Value.asReadMembers target.toTable)),
      ("ml_models", .table (entries.mapIdx fun place entry =>
        (entryName place, .table (Value.serialMembers entry.toTable)))),
      ("domain_models", .table (domainNames entries))] := by
  have hplain := isPlain_toTable htarget hentries
  have hmodels := Value.serial?_table (Value.isPlain_table_iff.mp (hplain.member "ml_models")).2
  have hdomains := Value.serial?_table
    (Value.isPlain_table_iff.mp (hplain.member "domain_models")).2
  have hnames : Value.serialMembers (domainNames entries) = domainNames entries := by
    refine Value.serialMembers_eq_self fun domain hdomain => ?_
    obtain ⟨name, hname⟩ := eq_text_of_mem_domainNames hdomain
    rw [hname, Value.serial?_text]
  rw [serialMembers_models hentries] at hmodels
  rw [hnames] at hdomains
  simp only [toTable, Value.serialMembers, htarget.serial?_eq, hmodels, hdomains, Value.asRead]

end

/-- An application reads what was found for its domains. -/
theorem exists_read?_of_writeTable {store : LedgerStore} {broker : Option Broker}
    {stageDir : Option String} {target : SampleTarget} {found : List (String × List Value)}
    {entries : List ModelEntry} {text : String} (htarget : (Value.table target.toTable).IsRead)
    (hshown : ShowsTarget store broker stageDir (Value.asReadMembers target.toTable))
    (hfound : List.Forall₂ (fun answer entry => (∀ record ∈ answer.2, record.IsRead) ∧
      ModelEntry.IsFor answer.1 answer.2 entry) found entries)
    (htext : Json.writeTable .compact (toTable ⟨target, entries⟩) = .ok text) :
    ∃ objects, Json.read? text = some (.table objects) ∧
      ShowsObjects store broker stageDir (found.map Prod.fst) found objects := by
  have hentries : ∀ entry ∈ entries, entry.IsReadable := by
    clear htext
    induction hfound with
    | nil => simp
    | cons hfirst _ ih => exact List.forall_mem_cons.mpr ⟨hfirst.2.isReadable hfirst.1, ih⟩
  have hplain := isPlain_toTable htarget hentries
  have hserial := Value.serial?_table (Value.isPlain_table_iff.mp hplain).2
  rw [Json.writeTable_of_isPlain hplain] at htext
  cases htext
  refine ⟨_, Json.read?_print Json.Style.isLegible_compact (hplain.isDocument hserial), ?_⟩
  rw [serialMembers_toTable htarget hentries]
  refine ⟨_, _, _, rfl, hshown, ?_⟩
  have hread : List.Forall₂ (fun answer entry => ModelEntry.domain entry = answer.1 ∧
      ModelEntry.Shows answer.1 answer.2 (Value.serialMembers entry.toTable))
      (found.map fun answer => (answer.1, answer.2.map Value.asRead)) entries := by
    refine List.forall₂_map_left_iff.mpr (hfound.imp fun answer entry hentry => ?_)
    obtain ⟨hrecords, hfor⟩ := hentry
    exact ⟨hfor.domain_eq, hfor.shows.asRead entry.isOrdered_toTable.nodup
      (hfor.isReadable hrecords).toTable⟩
  have hindexed := isIndexed_mapIdx hread
  rwa [List.map_map] at hindexed

end ModelObjects

/-! ## What a ledger store finds -/

namespace Ledger

/-- All that is searched was read. -/
theorem isRead_of_recordsToSearch {ledger : Value} (hledger : ledger.IsRead) {entry : StoreEntry}
    {subject : String} {records : List Value}
    (h : recordsToSearch (stored (entryTable ledger entry) subject) = .ok records) :
    ∀ record ∈ records, record.IsRead := by
  have hmember {value : Value} (hvalue : value = .missing ∨ value.IsRead) (name : String) :
      value.member name = .missing ∨ (value.member name).IsRead := by
    rcases hvalue with rfl | hvalue
    · exact Or.inl rfl
    · exact hvalue.member name
  have hstored : stored (entryTable ledger entry) subject = .atom .function ∨
      stored (entryTable ledger entry) subject = .missing ∨
        (stored (entryTable ledger entry) subject).IsRead := by
    have htable := hmember (hmember (hledger.member "entries") entry.name) subject
    rw [Value.member] at htable
    rw [stored, entryTable]
    cases hget : ((ledger.member "entries").member entry.name).members.get? subject with
    | some value =>
        rw [hget] at htable
        exact Or.inr htable
    | none =>
        simp only
        split
        next => exact Or.inl rfl
        next => exact Or.inr (Or.inl rfl)
  generalize stored (entryTable ledger entry) subject = value at h hstored
  rcases hstored with rfl | rfl | hread
  · cases h
  · cases h
    exact List.forall_mem_nil _
  · cases hread with
    | null =>
        cases h
        exact List.forall_mem_nil _
    | text content =>
        cases h
        intro record hrecord
        obtain ⟨c, _, rfl⟩ := List.mem_map.mp hrecord
        exact .text _
    | list hitems =>
        cases h
        exact hitems
    | _ => cases h

/-- A ledger that was read has only records that were read, and the first one found counts. -/
theorem isRead_of_search_latest {ledger : Value} (hledger : ledger.IsRead) {entry : StoreEntry}
    {subject : String} {found : List Value} (h : search ledger entry subject .latest = .ok found) :
    (∀ record ∈ found, record.IsRead) ∧ ModelObjects.BeginsWithModel found := by
  obtain ⟨records, hrecords, h⟩ := exists_of_bind_eq_ok h
  obtain ⟨sorted, hsorted, h⟩ := exists_of_bind_eq_ok h
  constructor
  · intro record hrecord
    have hmem := (perm_of_sortByVersion hsorted).mem_iff.mp (mem_of_select h record hrecord)
    exact isRead_of_recordsToSearch hledger hrecords record hmem
  · cases h
    intro record hrecord
    exact (List.mem_filter.mp (List.mem_of_mem_head? hrecord)).2

end Ledger

/-- A ledger store finds only records that it has read, of which the first one counts. -/
theorem LedgerStore.findsOnly_toDataStore (store : LedgerStore) :
    ModelObjects.FindsOnly store.toDataStore fun records =>
      (∀ record ∈ records, record.IsRead) ∧ ModelObjects.BeginsWithModel records := by
  intro name world records world' h
  have hsearch : store.search name .models .latest world = (.ok records, world') := h
  rw [search_apply] at hsearch
  obtain ⟨ledger, hledger, hfound⟩ := exists_of_bind_eq_ok (Prod.mk.inj hsearch).1
  exact isRead_of_search_latest (isRead_of_ledgerIn hledger) hfound

/-- An application reads what a ledger store had found for its domains. -/
theorem ModelObjects.exists_read?_of_build {store : LedgerStore} {broker : Option Broker}
    (hbroker : ∀ b ∈ broker, b.ShowsRecord) {names : List String} {stageDir : Option String}
    {objects : ModelObjects} {world world' : World Devices}
    (hbuild : build store.toDataStore broker names stageDir world = (.ok objects, world'))
    {text : String} (htext : Json.writeTable .compact objects.toTable = .ok text) :
    ∃ found shown, store.toDataStore.newestModels names world =
        found.map (fun answer => (answer.1, .ok answer.2)) ∧
      Json.read? text = some (.table shown) ∧
      ShowsObjects store broker stageDir names found shown := by
  obtain ⟨target, world₁, htarget, _⟩ := Operation.bind_eq_ok_iff.mp hbuild
  obtain ⟨found, entries, rfl, rfl, hanswers, hall⟩ :=
    exists_found_of_build htarget store.findsOnly_toDataStore hbuild
  obtain ⟨hread, hshown⟩ := SampleTarget.showsTarget_of_choose htarget hbroker
  rw [SampleTarget.choose_toDataStore] at htarget
  obtain ⟨_, rfl⟩ := Action.ofExcept_eq_ok_iff.mp htarget
  obtain ⟨shown, hshows, hobjects⟩ := exists_read?_of_writeTable hread hshown
    (hall.imp fun answer entry hentry => ⟨hentry.1.1, isFor_of_ofRecords hentry.1.2 hentry.2⟩) htext
  exact ⟨found, shown, hanswers, hshows, hobjects⟩

/-! ## The newest models -/

/-- Each domain with the newest of its models, if it has any. -/
def newestOf (models : String → List (Dict Value)) (names : List String) :
    List (String × List Value) :=
  names.map fun name => (name, (models name).getLast?.toList.map .table)

section

variable {store : LedgerStore} {log : Log} {world : World Devices}
  (hheld : ∀ ledger, store.ledgerIn world.tree = .ok ledger → HoldsDocuments ledger log)
  (hlog : IsAscendingLog log)

include hheld hlog

/-- What is found in a ledger with a log are the documents of the newest models. -/
theorem eq_documents_of_newestModels {names : List String} {found : List (String × List Value)}
    (h : store.toDataStore.newestModels names world =
      found.map fun answer => (answer.1, .ok answer.2)) :
    found = names.map fun name => (name, documents (log .models name).getLast?.toList) := by
  induction names generalizing found with
  | nil =>
      rw [DataStore.newestModels, eq_comm, List.map_eq_nil_iff] at h
      exact h
  | cons name rest ih =>
      have hsearch : store.toDataStore.search name .models .latest world =
          ((store.ledgerIn world.tree).bind fun ledger => search ledger .models name .latest,
            world) := store.search_apply name .models .latest world
      rw [DataStore.newestModels, hsearch, eq_comm] at h
      obtain ⟨⟨first, records⟩, more, rfl, hfirst, hmore⟩ := List.map_eq_cons_iff.mp h
      rw [ih hmore.symm]
      obtain ⟨rfl, hrecords⟩ := Prod.mk.inj hfirst
      obtain ⟨ledger, hledger, hfound⟩ := exists_of_bind_eq_ok hrecords.symm
      rw [List.map_cons, ← (hheld ledger hledger).search_latest (hlog .models _) hfound]

end

/-- The document of a record is read as the record would be. -/
theorem member_asRead_document {subject : String} {record : Dict Value}
    (h : IsCompleted subject record) (field : String) :
    (Value.table (Value.serialMembers record)).asRead.member field =
      (Value.table record).asRead.member field := by
  have hnodup := (Value.isPlain_table_iff.mp h.isPlain).1.nodup
  have hfields : ∀ entry ∈ record, entry.2 = .missing ∨ entry.2.IsRead := by
    obtain ⟨given, version, createdAt, hgiven, _, rfl⟩ := h
    intro entry hentry
    rcases hgiven.isFieldValue subject version createdAt hentry with
      hmissing | ⟨text, htext⟩ | ⟨x, hx⟩
    · exact Or.inl hmissing
    · exact Or.inr (htext ▸ .text text)
    · exact Or.inr (hx ▸ .number x)
  rw [Value.member_asRead, Value.member_asRead, Value.member_serialMembers hnodup hfields,
    Value.member_table]
  cases hget : record.get? field with
  | none => rfl
  | some value =>
      rcases hfields _ (Dict.mem_of_get? hget) with hmissing | hread
      · have hmissing : value = .missing := hmissing
        rw [hmissing]
        rfl
      · exact hread.asRead_asRead

/-- Whoever reads the documents of the newest models reads the models. -/
theorem ModelObjects.IsIndexed.of_documents {log : Log} (hlog : IsAscendingLog log)
    {names : List String} {models domains : Dict Value}
    (h : IsIndexed names (names.map fun name =>
        (name, (documents (log .models name).getLast?.toList).map Value.asRead)) models domains) :
    IsIndexed names ((newestOf (log .models) names).map fun answer =>
      (answer.1, answer.2.map Value.asRead)) models domains := by
  have hnames : ((newestOf (log .models) names).map fun answer =>
      (answer.1, answer.2.map Value.asRead)).map Prod.fst = names := by
    rw [newestOf, List.map_map, List.map_map]
    exact List.map_id names
  refine { h with names_eq := hnames, shows := ?_ }
  intro place name records hplace
  simp only [newestOf, List.map_map, List.getElem?_map, Option.map_eq_some_iff,
    Function.comp_apply, Prod.mk.injEq] at hplace
  obtain ⟨_, hname, rfl, rfl⟩ := hplace
  obtain ⟨model, hmodel, hshows⟩ := h.shows place _ _ (by
    rw [List.getElem?_map, hname]
    rfl)
  refine ⟨model, hmodel, hshows.of_members ?_⟩
  rw [documents, List.forall₂_map_left_iff, List.forall₂_map_left_iff, List.forall₂_map_right_iff,
    List.forall₂_same]
  intro record hrecord field
  have hmem := List.mem_of_getLast? (Option.mem_toList.mp hrecord)
  exact member_asRead_document ((hlog .models _).completed record hmem) field

/--
An application reads the newest models that were added, if the ledger holds them where it can
be loaded.
-/
theorem ShowsObjects.newestOf {store : LedgerStore} {log : Log} {world : World Devices}
    (hheld : ∀ ledger, store.ledgerIn world.tree = .ok ledger → HoldsDocuments ledger log)
    (hlog : IsAscendingLog log) {broker : Option Broker} {names : List String}
    {stageDir : Option String} {found : List (String × List Value)} {shown : Dict Value}
    (hfound : store.toDataStore.newestModels names world =
      found.map fun answer => (answer.1, .ok answer.2))
    (h : ShowsObjects store broker stageDir names found shown) :
    ShowsObjects store broker stageDir names (newestOf (log .models) names) shown := by
  obtain ⟨db, models, domains, hobjects, htarget, hindexed⟩ := h
  rw [eq_documents_of_newestModels hheld hlog hfound, List.map_map] at hindexed
  exact ⟨db, models, domains, hobjects, htarget, hindexed.of_documents hlog⟩

end Dispatch
