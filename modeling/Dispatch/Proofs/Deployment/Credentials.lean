import Dispatch.Proofs.Job.Preparation
import Dispatch.Proofs.Schema
import Mathlib.Data.List.Basic

/-!
# Credentials that an application is shown

The settings of a broker have members that only its services need, and any others that
nobody knows.  An application is shown the library settings and nothing else: what else a
broker has makes no difference to its descriptor, nor to a job that is deployed with it.

Descriptors are settings themselves.  What is selected under some names is accepted again
as long as all other members are optional.
-/

namespace Dispatch

namespace RmqBroker

/-! ## Selected settings -/

section

variable {broker : RmqBroker} {names : List String}

/-- What is selected are the settings that are there under the names. -/
theorem mem_select_iff {setting : String × Value} :
    setting ∈ broker.select names ↔
      setting.1 ∈ names ∧ setting.2 ≠ .missing ∧
        broker.settings.member setting.1 = setting.2 := by
  rw [select, List.mem_filterMap]
  constructor
  · rintro ⟨name, hname, h⟩
    split at h
    next => cases h
    next hpresent =>
      cases h
      exact ⟨hname, hpresent, rfl⟩
  · rintro ⟨hname, hpresent, hmember⟩
    refine ⟨setting.1, hname, ?_⟩
    split
    next hmissing => exact absurd (hmember.symm.trans hmissing) hpresent
    next => rw [hmember]

/-- A selection answers as the settings do under its names, and nothing under any other. -/
theorem member_select (broker : RmqBroker) (names : List String) (key : String) :
    (Value.table (broker.select names)).member key =
      if key ∈ names then broker.settings.member key else .missing := by
  rw [Value.member_table]
  cases hget : (broker.select names).get? key with
  | some value =>
      obtain ⟨hkey, _, hmember⟩ := mem_select_iff.mp (Dict.mem_of_get? hget)
      rw [if_pos hkey, hmember, Option.getD_some]
  | none =>
      split
      next hkey =>
        by_contra habsent
        have hmem : (key, broker.settings.member key) ∈ broker.select names :=
          mem_select_iff.mpr ⟨hkey, Ne.symm habsent, rfl⟩
        have hsome := Dict.isSome_get?_iff.mpr (Dict.mem_keys_of_mem hmem)
        rw [hget] at hsome
        cases hsome
      next => rfl

/-- What is selected depends on the members under the names alone. -/
theorem select_congr {b c : RmqBroker}
    (h : ∀ name ∈ names, b.settings.member name = c.settings.member name) :
    b.select names = c.select names :=
  List.filterMap_congr fun name hname => by rw [h name hname]

/-- Selecting under the same names again changes nothing. -/
theorem select_select (broker : RmqBroker) (names : List String) :
    select ⟨.table (broker.select names)⟩ names = broker.select names := by
  refine select_congr fun name hname => ?_
  rw [member_select, if_pos hname]

theorem filter_select (broker : RmqBroker) (names kept : List String) :
    (broker.select names).filter (fun setting => setting.1 ∈ kept) =
      broker.select (names.filter (· ∈ kept)) := by
  rw [select, select, List.filter_filterMap, List.filterMap_filter]
  congr 1
  funext name
  split
  next => split <;> rfl
  next => rw [Option.filter_some]

end

/-! ## Settings that are accepted -/

theorem ofValue_eq_ok_iff {value : Value} {broker : RmqBroker} :
    ofValue value = .ok broker ↔ schema.accepts value = true ∧ broker = ⟨value⟩ := by
  constructor
  · intro h
    obtain ⟨haccepted, hbroker⟩ := Schema.accepts_of_checkValue_bind h
    cases hbroker
    exact ⟨haccepted, rfl⟩
  · rintro ⟨haccepted, rfl⟩
    rw [ofValue, Schema.checkValue_of_accepts _ _ haccepted]
    rfl

/-- A selection is accepted if it leaves out nothing but optional members. -/
theorem accepts_select {broker : RmqBroker} (h : schema.accepts broker.settings = true)
    {names : List String} (hneeded : ∀ part ∈ members, part.2.1 = true → part.1 ∈ names) :
    schema.accepts (.table (broker.select names)) = true := by
  refine Schema.accepts_open_iff.mpr fun part hpart => ?_
  rw [member_select]
  split
  next => exact Schema.accepts_member_of_table h part hpart
  next hname =>
    refine Or.inl ⟨?_, rfl⟩
    by_contra hrequired
    exact hname (hneeded part hpart (by simpa using hrequired))

/-! ## Descriptors -/

/-- The names that a descriptor selects under. -/
def descriptorNames (forLibrary : Bool) : List String :=
  if forLibrary then libraryKeys else allKeys

/-- Every descriptor has all the members that are required. -/
theorem mem_descriptorNames (forLibrary : Bool) : ∀ part ∈ members, part.2.1 = true →
    part.1 ∈ descriptorNames forLibrary := by
  cases forLibrary with
  | true => simp [descriptorNames, members, libraryKeys, Schema.required, Schema.optional]
  | false => exact fun _ hpart _ => List.mem_map_of_mem hpart

/-- The descriptor for an application is the library part of the other one. -/
theorem descriptor_true_eq_filter (broker : RmqBroker) :
    broker.descriptor true =
      (broker.descriptor false).filter fun setting => setting.1 ∈ libraryKeys := by
  have hkept : allKeys.filter (· ∈ libraryKeys) = libraryKeys := by decide
  exact ((broker.filter_select allKeys libraryKeys).trans (congrArg broker.select hkept)).symm

/-- A descriptor is accepted as settings, and they have the same descriptor. -/
theorem exists_ofValue_descriptor {value : Value} {broker : RmqBroker}
    (h : ofValue value = .ok broker) (forLibrary : Bool) :
    ∃ again, ofValue (.table (broker.descriptor forLibrary)) = .ok again ∧
      again.descriptor forLibrary = broker.descriptor forLibrary := by
  obtain ⟨haccepted, rfl⟩ := ofValue_eq_ok_iff.mp h
  have hagain : schema.accepts (.table (descriptor ⟨value⟩ forLibrary)) = true :=
    accepts_select haccepted (mem_descriptorNames forLibrary)
  exact ⟨_, ofValue_eq_ok_iff.mpr ⟨hagain, rfl⟩, select_select _ _⟩

end RmqBroker

/-! ## Deployments with a broker -/

/-- A deployment uses nothing of a broker but its descriptor for the application. -/
theorem Job.deploy_of_descriptor_eq {σ : Type} {b c : Broker}
    (h : b.descriptor true = c.descriptor true) (store : DataStore σ) (config : Config) :
    Job.deploy store (some b) config = Job.deploy store (some c) config := by
  have hchoose (stageDir : Option String) : SampleTarget.choose store (some b) stageDir =
      SampleTarget.choose store (some c) stageDir := by
    rw [SampleTarget.choose, SampleTarget.choose, Broker.shown, Broker.shown, h]
  have hdomains (names : List String) (stageDir : Option String) :
      Job.deployDomains names stageDir store (some b) config =
        Job.deployDomains names stageDir store (some c) config := by
    rw [deployDomains, deployDomains, ModelObjects.build, ModelObjects.build, hchoose]
  simp only [Job.deploy, hdomains]

namespace RmqBroker

/--
An application is shown its library settings and nothing else.  Brokers that agree on these
have the same descriptor for it, and a deployment with either writes the same text and
leaves the same job.  That descriptor is the library part of the full one, which has those
of the services besides.  A descriptor has just those of its names that are there, and it is
accepted again as settings with itself as descriptor.
-/
theorem descriptor_shows_library {v w : Value} {b c : RmqBroker} (hb : ofValue v = .ok b)
    (hc : ofValue w = .ok c) :
    let library := ["service-host", "service-port", "rabbitmq-user", "rabbitmq-password",
      "rabbitmq-vhost", "rabbitmq-cert", "rabbitmq-outbound-queue", "rabbitmq-exchange",
      "rabbitmq-routing-key"]
    let services := ["rabbitmq-inbound-queue", "rabbitmq-name", "rabbitmq-erlang-cookie"]
    ((∀ key ∈ library, v.member key = w.member key) → b.descriptor true = c.descriptor true ∧
      ∀ (σ : Type) (store : DataStore σ) (config : Config) (world : World σ) (job : Job),
        Job.deploy store (some b.toBroker) config (world, job) =
          Job.deploy store (some c.toBroker) config (world, job)) ∧
      b.descriptor true =
        (b.descriptor false).filter (fun setting => setting.1 ∈ library) ∧
      (∀ setting, setting ∈ b.descriptor true ↔ setting.1 ∈ library ∧
        setting.2 ≠ .missing ∧ v.member setting.1 = setting.2) ∧
      (∀ setting, setting ∈ b.descriptor false ↔ setting.1 ∈ library ++ services ∧
        setting.2 ≠ .missing ∧ v.member setting.1 = setting.2) ∧
      ∀ forLibrary, ∃ again, ofValue (.table (b.descriptor forLibrary)) = .ok again ∧
        again.descriptor forLibrary = b.descriptor forLibrary := by
  intro library services
  obtain ⟨_, rfl⟩ := ofValue_eq_ok_iff.mp hb
  obtain ⟨_, rfl⟩ := ofValue_eq_ok_iff.mp hc
  have hall : allKeys = library ++ services := rfl
  refine ⟨fun hagree => ?_, descriptor_true_eq_filter _, fun setting => mem_select_iff,
    fun setting => hall ▸ mem_select_iff, exists_ofValue_descriptor hb⟩
  have hsame : descriptor ⟨v⟩ true = descriptor ⟨w⟩ true := select_congr hagree
  have hshown : (toBroker ⟨v⟩).descriptor true = (toBroker ⟨w⟩).descriptor true :=
    congrArg Except.ok hsame
  refine ⟨hsame, fun σ store config world job => ?_⟩
  rw [Job.deploy_of_descriptor_eq hshown store config]

/-- Settings of a broker with some more members. -/
def settingsWith (more : Dict Value) : Value :=
  .table ([("service-host", .text "broker.example"), ("service-port", .number 5671),
    ("rabbitmq-user", .text "ams"), ("rabbitmq-password", .text "pass"),
    ("rabbitmq-vhost", .text "/ams"), ("rabbitmq-outbound-queue", .text "out"),
    ("rabbitmq-exchange", .text "exchange"), ("rabbitmq-routing-key", .text "training")] ++ more)

theorem descriptor_shows_library_cookie :
    let v := settingsWith [("rabbitmq-erlang-cookie", .text "cookie"), ("note", .null)]
    let w := settingsWith [("rabbitmq-name", .text "broker")]
    ∃ b c, ofValue v = .ok b ∧ ofValue w = .ok c ∧
      (∀ key ∈ ["service-host", "service-port", "rabbitmq-user", "rabbitmq-password",
        "rabbitmq-vhost", "rabbitmq-cert", "rabbitmq-outbound-queue", "rabbitmq-exchange",
        "rabbitmq-routing-key"], v.member key = w.member key) ∧
      ("rabbitmq-erlang-cookie", .text "cookie") ∈ b.descriptor false ∧
      ("rabbitmq-name", .text "broker") ∈ c.descriptor false ∧
      (∀ setting ∈ b.descriptor true, setting.1 ∉
        ["rabbitmq-inbound-queue", "rabbitmq-name", "rabbitmq-erlang-cookie", "note"]) ∧
      b.descriptor true = c.descriptor true ∧
      (∀ (store : LedgerStore) (world : World Devices),
        Job.deploy store.toDataStore (some b.toBroker) {} (world, Job.withNumber 1) =
          Job.deploy store.toDataStore (some c.toBroker) {} (world, Job.withNumber 1)) ∧
      ∃ again, ofValue (.table (b.descriptor true)) = .ok again ∧
        again.descriptor true = b.descriptor true := by
  intro v w
  have hb : ofValue v = .ok ⟨v⟩ := ofValue_eq_ok_iff.mpr ⟨by decide +kernel, rfl⟩
  have hc : ofValue w = .ok ⟨w⟩ := ofValue_eq_ok_iff.mpr ⟨by decide +kernel, rfl⟩
  have hagree : ∀ key ∈ ["service-host", "service-port", "rabbitmq-user", "rabbitmq-password",
      "rabbitmq-vhost", "rabbitmq-cert", "rabbitmq-outbound-queue", "rabbitmq-exchange",
      "rabbitmq-routing-key"], v.member key = w.member key := by
    simp [v, w, settingsWith, Value.member_table, Dict.get?_cons]
  obtain ⟨hsame, _, hshown, hall, hown⟩ := descriptor_shows_library hb hc
  obtain ⟨_, _, _, hallServices, _⟩ := descriptor_shows_library hc hb
  obtain ⟨hlibrary, hdeploy⟩ := hsame hagree
  refine ⟨_, _, hb, hc, hagree, ?_, ?_, ?_, hlibrary,
    fun store world => hdeploy _ store.toDataStore {} world _, hown true⟩
  · exact (hall _).mpr ⟨by decide, by simp, rfl⟩
  · exact (hallServices _).mpr ⟨by decide, by simp, rfl⟩
  · intro setting hsetting
    have hname := ((hshown setting).mp hsetting).1
    revert hname
    generalize setting.1 = name
    simp only [List.mem_cons, List.not_mem_nil, or_false]
    rintro (rfl | rfl | rfl | rfl | rfl | rfl | rfl | rfl | rfl) <;> decide

end RmqBroker

end Dispatch
