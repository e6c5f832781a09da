import Dispatch.Proofs.Job.NormalForm

/-!
# Two checks of resources

The bounds on resources stand in two places, in the schema for their tables and in the counts
that a request is read with.  `ResourceSpec.checks_agree` says that neither is stricter than
the other where both apply.  A table states counts if it has no members but theirs, with
numbers in them; it is then taken exactly if the request for these counts is created, as the
same resources.  Every other document is refused, and always by the schema, so that no count
of an accepted table is refused any more.

Resources that were created are whole numbers within their bounds.  They are taken back from
their table, and a staging job can be given a share of them.
-/

namespace Dispatch

/-! ## Counts -/

/-- A whole number that is not below a bound; both zeros are the number 0. -/
def Number.IsWholeFrom (least : Nat) (x : Number) : Prop :=
  ∃ n : Nat, least ≤ n ∧ x.units? = some (n * one : Int)

theorem Number.IsCount.isWholeFrom {least : Nat} (hleast : least ≤ 2 ^ 53) {x : Number}
    (h : x.IsCount least) : x.IsWholeFrom least := by
  cases x with
  | finite negative m =>
      have hsigned := (h.mono (Nat.zero_le least) hleast).signed_eq
      obtain ⟨hwhole, hle⟩ := (isCount_finite_iff hleast).mp h
      rw [hsigned] at hwhole hle
      obtain ⟨n, hn⟩ := Int.natCast_dvd_natCast.mp (Int.dvd_of_emod_eq_zero hwhole)
      have hunits : (m.units : Int) = (n * one : Int) := by
        rw [hn, Nat.cast_mul, Int.mul_comm]
      refine ⟨n, ?_, by rw [units?, hsigned, hunits]⟩
      rw [hunits] at hle
      exact_mod_cast Int.le_of_mul_le_mul_right hle (by exact_mod_cast one_pos)
  | _ => simp [IsCount, isInteger, units?] at h

/-- Resources in whole numbers within their bounds. -/
structure ResourceSpec.IsWhole (spec : ResourceSpec) : Prop where
  nodes : spec.nodes.IsWholeFrom 1
  tasksPerNode : spec.tasksPerNode.IsWholeFrom 1
  coresPerTask : spec.coresPerTask.IsWholeFrom 1
  gpusPerTask : spec.gpusPerTask.IsWholeFrom 0

theorem ResourceSpec.IsCounted.isWhole {spec : ResourceSpec} (h : spec.IsCounted) :
    spec.IsWhole :=
  ⟨h.nodes.isWholeFrom (by omega), h.tasksPerNode.isWholeFrom (by omega),
    h.coresPerTask.isWholeFrom (by omega), h.gpusPerTask.isWholeFrom (by omega)⟩

/-- A count that may be missing is right where it is present. -/
theorem Value.IsCount.of_missing_or {least : Nat} {value : Value}
    (h : value = .missing ∨ value.IsCount least) (hpresent : value.isPresent = true) :
    value.IsCount least := by
  rcases h with rfl | h
  · cases hpresent
  · exact h

theorem Schema.accepts_integer_iff {least : Nat} {value : Value} :
    (integer (some least) none).accepts value = true ↔ value.IsCount least := by
  constructor
  · intro h
    obtain ⟨x, rfl⟩ := exists_number_of_accepts h
    exact ⟨x, rfl, accepts_count_iff.mp h⟩
  · rintro ⟨x, rfl, hx⟩
    exact accepts_count_iff.mpr hx

theorem Schema.accepts_boolean_iff {value : Value} :
    boolean.accepts value = true ↔ ∃ b, value = .bool b := by
  cases value <;> simp [accepts, check?]

theorem Dict.mem_keys_of_member {members : Dict Value} {name : String}
    (h : (Value.table members).member name ≠ .missing) : name ∈ members.keys := by
  by_contra hkey
  rw [Value.member_table, Dict.get?_eq_none hkey] at h
  exact h rfl

namespace ResourceSpec

/-- The names in tables of resources. -/
def memberNames : List String :=
  ["nodes", "tasks_per_node", "cores_per_task", "exclusive", "gpus_per_task"]

/-- Proper counts among the members of a value, where optional ones may be missing. -/
structure AreMembersOf (value : Value) : Prop where
  nodes : (value.member "nodes").IsCount 1
  tasksPerNode : (value.member "tasks_per_node").IsCount 1
  coresPerTask : value.member "cores_per_task" = .missing ∨
    (value.member "cores_per_task").IsCount 1
  exclusive : value.member "exclusive" = .missing ∨ ∃ b, value.member "exclusive" = .bool b
  gpusPerTask : value.member "gpus_per_task" = .missing ∨
    (value.member "gpus_per_task").IsCount 0

theorem areMembersOf_of_accepts {value : Value} (h : schema.accepts value = true) :
    AreMembersOf value := by
  have hmembers := Schema.accepts_member_of_table h
  simp only [List.forall_mem_cons, List.not_mem_nil, false_implies, implies_true, and_true,
    Schema.required, Schema.optional, Bool.true_eq_false, false_and, false_or, true_and,
    Schema.accepts_integer_iff, Schema.accepts_boolean_iff] at hmembers
  obtain ⟨hnodes, htasks, hcores, hexclusive, hgpus⟩ := hmembers
  exact ⟨hnodes, htasks, hcores, hexclusive, hgpus⟩

/-- A table is accepted when it holds proper counts, and nothing else. -/
theorem accepts_table_iff {members : Dict Value} :
    schema.accepts (.table members) = true ↔
      (∀ name ∈ members.keys, name ∈ memberNames) ∧ AreMembersOf (.table members) := by
  constructor
  · intro h
    exact ⟨(Schema.accepts_table_iff.mp h).2.1 rfl, areMembersOf_of_accepts h⟩
  · rintro ⟨hnames, hnodes, htasks, hcores, hexclusive, hgpus⟩
    have hheld {name : String} {least : Nat}
        (h : ((Value.table members).member name).IsCount least) : name ∈ members.keys := by
      obtain ⟨x, hx, _⟩ := h
      exact Dict.mem_keys_of_member (by rw [hx]; nofun)
    rw [schema, Schema.accepts_table_iff]
    simp only [List.forall_mem_cons, List.not_mem_nil, false_implies, implies_true, and_true,
      Schema.required, Schema.optional, Bool.true_eq_false, Bool.false_eq_true, false_and, false_or,
      true_and, forall_const, Schema.accepts_integer_iff, Schema.accepts_boolean_iff]
    exact ⟨⟨hheld hnodes, hheld htasks⟩, hnames, hnodes, htasks, hcores, hexclusive, hgpus⟩

/-- The counts of an accepted table are proper. -/
theorem isCounted_of_accepts {value : Value} (h : schema.accepts value = true) :
    (ResourceRequest.ofTable value).IsCounted := by
  obtain ⟨hnodes, htasks, hcores, _, hgpus⟩ := areMembersOf_of_accepts h
  exact ⟨hnodes, htasks, Value.IsCount.of_missing_or hcores, Value.IsCount.of_missing_or hgpus⟩

/-- Resources fail to be taken only from what the schema refuses. -/
theorem exists_of_ofTable_eq_error {value : Value} {label : String} {failure : Failure}
    (h : ofTable value label = .error failure) :
    ∃ violation, schema.check? value = some violation ∧
      failure = .refused .configuration label violation := by
  cases hcheck : schema.check? value with
  | some violation =>
      rw [ofTable, Schema.checkValue, hcheck] at h
      cases h
      exact ⟨violation, rfl, rfl⟩
  | none =>
      have haccepts := Schema.accepts_iff.mpr hcheck
      obtain ⟨spec, hspec⟩ := ResourceRequest.exists_create_iff.mpr (isCounted_of_accepts haccepts)
      rw [ofTable, Schema.checkValue_bind haccepts, hspec] at h
      cases h

end ResourceSpec

/-! ## Requests in numbers -/

/-- Resources that are asked for in numbers, whole or not. -/
structure ResourceCounts where
  nodes : Number
  tasksPerNode : Number
  coresPerTask : Option Number
  exclusive : Option Bool
  gpusPerTask : Option Number

namespace ResourceCounts

/-- The request for counts. -/
def request (counts : ResourceCounts) : ResourceRequest where
  nodes := .number counts.nodes
  tasksPerNode := .number counts.tasksPerNode
  coresPerTask := counts.coresPerTask.elim .missing .number
  exclusive := counts.exclusive
  gpusPerTask := counts.gpusPerTask.elim .missing .number

/-- A table that states counts in its members, and nothing else. -/
structure AreStatedBy (counts : ResourceCounts) (members : Dict Value) : Prop where
  names : ∀ name ∈ members.keys, name ∈ ResourceSpec.memberNames
  nodes : members.get? "nodes" = some (.number counts.nodes)
  tasksPerNode : members.get? "tasks_per_node" = some (.number counts.tasksPerNode)
  coresPerTask : members.get? "cores_per_task" = counts.coresPerTask.map .number
  exclusive : members.get? "exclusive" = counts.exclusive.map .bool
  gpusPerTask : members.get? "gpus_per_task" = counts.gpusPerTask.map .number

theorem getD_map_number (count : Option Number) :
    (count.map Value.number).getD .missing = count.elim .missing .number := by
  cases count <;> rfl

theorem missing_or_isCount_iff {least : Nat} (count : Option Number) :
    (count.elim .missing .number = Value.missing ∨
        (count.elim Value.missing .number).IsCount least) ↔
      ((count.elim Value.missing .number).isPresent = true →
        (count.elim Value.missing .number).IsCount least) := by
  cases count with
  | none => simp [Value.isPresent]
  | some x => simp [Value.isPresent]

section

variable {counts : ResourceCounts} {members : Dict Value} (h : counts.AreStatedBy members)

include h

/-- A table that states counts is read as the request for them. -/
theorem AreStatedBy.ofTable_eq : ResourceRequest.ofTable (.table members) = counts.request := by
  have hexclusive : (Value.table members).boolMember? "exclusive" = counts.exclusive := by
    rw [Value.boolMember?, Value.member_table, h.exclusive]
    cases counts.exclusive <;> rfl
  simp only [ResourceRequest.ofTable, Value.member_table, hexclusive, h.nodes, h.tasksPerNode,
    h.coresPerTask, h.gpusPerTask, getD_map_number, Option.getD_some]
  rfl

theorem AreStatedBy.areMembersOf_iff :
    ResourceSpec.AreMembersOf (.table members) ↔ counts.request.IsCounted := by
  have hexclusive : (counts.exclusive.map Value.bool).getD .missing = .missing ∨
      ∃ b, (counts.exclusive.map Value.bool).getD .missing = .bool b := by
    cases counts.exclusive with
    | none => exact Or.inl rfl
    | some exclusive => exact Or.inr ⟨exclusive, rfl⟩
  constructor
  · rintro ⟨hnodes, htasks, hcores, _, hgpus⟩
    simp only [Value.member_table, h.nodes, h.tasksPerNode, h.coresPerTask, h.gpusPerTask,
      getD_map_number, missing_or_isCount_iff] at hnodes htasks hcores hgpus
    exact ⟨hnodes, htasks, hcores, hgpus⟩
  · rintro ⟨hnodes, htasks, hcores, hgpus⟩
    constructor
    all_goals simp only [Value.member_table, h.nodes, h.tasksPerNode, h.coresPerTask,
      h.exclusive, h.gpusPerTask, getD_map_number, missing_or_isCount_iff]
    exacts [hnodes, htasks, hcores, hexclusive, hgpus]

/-- A table that states counts is taken exactly as the request for them is created. -/
theorem AreStatedBy.ofTable_eq_ok_iff (label : String) (spec : ResourceSpec) :
    ResourceSpec.ofTable (.table members) label = .ok spec ↔
      counts.request.create = .ok spec := by
  constructor
  · intro hspec
    obtain ⟨_, hspec⟩ := Schema.accepts_of_checkValue_bind hspec
    rwa [h.ofTable_eq] at hspec
  · intro hspec
    have hcounted := ResourceRequest.exists_create_iff.mp ⟨spec, hspec⟩
    have haccepts := ResourceSpec.accepts_table_iff.mpr ⟨h.names, h.areMembersOf_iff.mpr hcounted⟩
    rw [ResourceSpec.ofTable, Schema.checkValue_bind haccepts, h.ofTable_eq, hspec]

end

end ResourceCounts

namespace ResourceSpec

/-! ## Documents that are taken -/

/-- A table in a document holds no missing values. -/
theorem get?_eq_none_of_isRead {members : Dict Value} (h : (Value.table members).IsRead)
    {name : String} (hmissing : (Value.table members).member name = .missing) :
    members.get? name = none := by
  cases hget : members.get? name with
  | none => rfl
  | some value =>
      rw [Value.member_table, hget, Option.getD_some] at hmissing
      subst hmissing
      cases h with
      | table _ hmembers => nomatch hmembers _ (Dict.mem_of_get? hget)

theorem get?_of_member {members : Dict Value} {name : String} {value : Value}
    (h : (Value.table members).member name = value) (hvalue : value ≠ .missing) :
    members.get? name = some value := by
  rw [Value.member_table] at h
  cases hget : members.get? name with
  | none =>
      rw [hget] at h
      exact absurd h.symm hvalue
  | some held => rw [hget, Option.getD_some] at h; rw [h]

/-- What is taken from a document states counts. -/
theorem exists_areStatedBy {value : Value} (hread : value.IsRead) {label : String}
    {spec : ResourceSpec} (h : ofTable value label = .ok spec) :
    ∃ (counts : ResourceCounts) (members : Dict Value),
      value = .table members ∧ counts.AreStatedBy members := by
  obtain ⟨haccepts, _⟩ := Schema.accepts_of_checkValue_bind h
  obtain ⟨members, rfl⟩ := eq_table_of_accepts hread.isPlain haccepts
  obtain ⟨hnames, ⟨nodes, hnodes, _⟩, ⟨tasks, htasks, _⟩, hcores, hexclusive, hgpus⟩ :=
    accepts_table_iff.mp haccepts
  have hcount {name : String} {least : Nat}
      (h : (Value.table members).member name = .missing ∨
        ((Value.table members).member name).IsCount least) :
      ∃ count : Option Number, members.get? name = count.map .number := by
    rcases h with hmissing | ⟨x, hx, _⟩
    · exact ⟨none, get?_eq_none_of_isRead hread hmissing⟩
    · exact ⟨some x, get?_of_member hx (by nofun)⟩
  obtain ⟨cores, hcores⟩ := hcount hcores
  obtain ⟨gpus, hgpus⟩ := hcount hgpus
  obtain ⟨exclusive, hexclusive⟩ : ∃ exclusive : Option Bool,
      members.get? "exclusive" = exclusive.map .bool := by
    rcases hexclusive with hmissing | ⟨b, hb⟩
    · exact ⟨none, get?_eq_none_of_isRead hread hmissing⟩
    · exact ⟨some b, get?_of_member hb (by nofun)⟩
  exact ⟨⟨nodes, tasks, cores, exclusive, gpus⟩, members, rfl, hnames,
    get?_of_member hnodes (by nofun), get?_of_member htasks (by nofun), hcores, hexclusive, hgpus⟩

/-! ## Resources that were created -/

/-- The request for what resources have. -/
def request (spec : ResourceSpec) : ResourceRequest where
  nodes := .number spec.nodes
  tasksPerNode := .number spec.tasksPerNode
  coresPerTask := .number spec.coresPerTask
  exclusive := some spec.exclusive
  gpusPerTask := .number spec.gpusPerTask

/-- A staging job gets one task of five cores on each node, and the accelerators of a task. -/
theorem IsCounted.forStaging_eq {spec : ResourceSpec} (h : spec.IsCounted) (job : String) :
    forStaging job (some spec.request) = .ok ⟨spec.nodes, 1, 5, false, spec.gpusPerTask⟩ := by
  have hfive : (5 : Number).IsCount 1 := Number.isCount_ofInt (n := 5) (by omega) (by omega)
  simp only [forStaging, ResourceRequest.create, request, Value.present?, Option.getD_some,
    readCount_of_isCount h.nodes, readCount_of_isCount Number.isCount_one,
    readCount_of_isCount hfive, readCount_of_isCount h.gpusPerTask]
  rfl

/--
The schema for tables of resources and the counts of a request accept the same resources.  A
table that states counts is taken as what the request for them creates, and fails where that
fails; every other document is refused.  A failure is always one of the schema.  Resources
that were created are whole numbers within their bounds, are taken back from their table, and
leave a share for a staging job.
-/
theorem checks_agree (label : String) :
    (∀ (counts : ResourceCounts) (members : Dict Value), counts.AreStatedBy members →
      ∀ spec, ofTable (.table members) label = .ok spec ↔ counts.request.create = .ok spec) ∧
    (∀ value : Value, value.IsRead →
      (∀ (counts : ResourceCounts) (members : Dict Value),
        value = .table members → ¬counts.AreStatedBy members) →
      ∃ failure, ofTable value label = .error failure) ∧
    (∀ value failure, ofTable value label = .error failure →
      ∃ violation, schema.check? value = some violation ∧
        failure = .refused .configuration label violation ∧
        failure.message? = some (label ++ " is invalid (" ++ violation.message ++ ")")) ∧
    ∀ (request : ResourceRequest) (spec : ResourceSpec), request.create = .ok spec →
      ofTable (.table spec.toTable) label = .ok spec ∧ spec.IsWhole ∧
        ∀ job, forStaging job (some spec.request) =
          .ok ⟨spec.nodes, 1, 5, false, spec.gpusPerTask⟩ := by
  refine ⟨fun counts members h => h.ofTable_eq_ok_iff label, ?_, ?_, ?_⟩
  · intro value hread hnone
    cases hresult : ofTable value label with
    | error failure => exact ⟨failure, rfl⟩
    | ok spec =>
        obtain ⟨counts, members, hvalue, hstated⟩ := exists_areStatedBy hread hresult
        exact absurd hstated (hnone counts members hvalue)
  · intro value failure h
    obtain ⟨violation, hcheck, rfl⟩ := exists_of_ofTable_eq_error h
    exact ⟨violation, hcheck, rfl, rfl⟩
  · intro request spec h
    have hcounted := isCounted_of_create h
    exact ⟨hcounted.ofTable_toTable label, hcounted.isWhole, hcounted.forStaging_eq⟩

/-- A table in which the accelerators of a task are a negative zero. -/
def negativeZeroTable : Dict Value :=
  [("gpus_per_task", .number (.finite true .zero)), ("nodes", .number 2),
    ("tasks_per_node", .number 3)]

/-- The counts that it states. -/
def negativeZeroCounts : ResourceCounts :=
  ⟨2, 3, none, none, some (.finite true .zero)⟩

theorem checks_agree_negative_zero :
    negativeZeroCounts.AreStatedBy negativeZeroTable ∧
      ∃ spec, negativeZeroCounts.request.create = .ok spec ∧
        ofTable (.table negativeZeroTable) "resources" = .ok spec ∧
        ofTable (.table spec.toTable) "resources" = .ok spec ∧
        ∃ failure, ofTable (.list []) "resources" = .error failure := by
  obtain ⟨hagree, hothers, _, hcreated⟩ := checks_agree "resources"
  have hstated : negativeZeroCounts.AreStatedBy negativeZeroTable :=
    ⟨by decide, rfl, rfl, rfl, rfl, rfl⟩
  have hcreate : negativeZeroCounts.request.create =
      .ok ⟨2, 3, 1, true, .finite true .zero⟩ := by decide +kernel
  have htaken := (hagree negativeZeroCounts negativeZeroTable hstated _).mpr hcreate
  have hback := (hcreated negativeZeroCounts.request _ hcreate).1
  have hlist : ∀ (counts : ResourceCounts) (members : Dict Value),
      Value.list [] = .table members → ¬counts.AreStatedBy members := by
    intro counts members hsame
    cases hsame
  exact ⟨hstated, _, hcreate, htaken, hback, hothers (.list []) (.list (by simp)) hlist⟩

end ResourceSpec

end Dispatch
