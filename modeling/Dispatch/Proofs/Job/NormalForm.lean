import Dispatch.Proofs.Job.RoundTrip

/-!
# Normal forms of descriptions

Taking a job from a description has one failure, which says that the description is of
no kind.  Otherwise exactly one of the schemas accepts the description, and the table of
the job is its normal form: the members of that kind in the order of the schema, with the
counts of resources filled in that may be absent.  The normal form is a description of
the same job.
-/

namespace Dispatch

/-! ## Normal forms -/

/-- The members of a value under some names, in the order of the names. -/
def Value.restrict (value : Value) (names : List String) : Dict Value :=
  names.map fun name => (name, value.member name)

/-- A table of resources with the members that may be absent filled in. -/
def ResourceSpec.filled (table : Value) : Dict Value :=
  [("nodes", table.member "nodes"),
    ("tasks_per_node", table.member "tasks_per_node"),
    ("cores_per_task", (table.member "cores_per_task").present?.getD (.number 1)),
    ("exclusive", (table.member "exclusive").present?.getD (.bool true)),
    ("gpus_per_task", (table.member "gpus_per_task").present?.getD (.number 0))]

/-- The members of a table of a source, by the mechanism of the source. -/
def StageSource.memberNames (table : Value) : List String :=
  if table.textMember "mechanism" = "fs" then ["mechanism", "src", "src_type", "pattern"]
  else ["mechanism", "creds", "update_models"]

/-- What the normal form of a description holds for what the description holds under a name. -/
def Job.normalMember (name : String) (member : Value) : Value :=
  if name = "resources" then
    member.present?.elim .null fun table => .table (ResourceSpec.filled table)
  else if name = "source" then .table (member.restrict (StageSource.memberNames member))
  else member

theorem Job.normalMember_of_ne {name : String} (hresources : name ≠ "resources")
    (hsource : name ≠ "source") (member : Value) : normalMember name member = member := by
  rw [normalMember, if_neg hresources, if_neg hsource]

/-- The names of the members that a schema for tables knows. -/
def Schema.memberNames : Schema → List String
  | .table members _ => members.map Prod.fst
  | _ => []

/-- The normal form of a description that a schema accepts. -/
def Job.normalForm (schema : Schema) (value : Value) : Dict Value :=
  schema.memberNames.map fun name => (name, normalMember name (value.member name))

/-! ## Members of accepted tables -/

namespace Value

variable {value : Value} {name : String}

theorem member_eq_text {least : Nat} (h : (Schema.text least).accepts (value.member name) = true) :
    value.member name = .text (value.textMember name) := by
  cases hmember : value.member name <;> simp [hmember, Schema.accepts, Schema.check?] at h
  rw [textMember_of_member hmember]

theorem member_eq_ofText? (h : Schema.textOrNull.accepts (value.member name) = true) :
    value.member name = .ofText? (value.textMember? name) := by
  rw [Schema.textOrNull, Schema.accepts_union_iff] at h
  simp only [List.mem_cons, List.not_mem_nil, or_false, exists_eq_or_imp, exists_eq_left,
    Schema.accepts_anyText_iff] at h
  rcases h with ⟨content, hcontent⟩ | hnull
  · rw [textMember?, hcontent]
    rfl
  · cases hmember : value.member name <;> simp [hmember, Schema.accepts, Schema.check?] at hnull
    rw [textMember?, hmember]
    rfl

theorem member_eq_bool (h : Schema.boolean.accepts (value.member name) = true) :
    value.member name = .bool (value.boolMember name) := by
  cases hmember : value.member name <;> simp [hmember, Schema.accepts, Schema.check?] at h
  simp [boolMember, boolMember?, hmember]

theorem member_eq_list {items : Schema} {least : Nat}
    (h : (Schema.list items least).accepts (value.member name) = true) :
    value.member name = .list (value.listMember name) := by
  cases hmember : value.member name <;> simp [hmember, Schema.accepts, Schema.check?] at h
  simp [listMember, hmember]

theorem member_eq_table {values : Schema} (hvalue : value.IsPlain)
    (h : (Schema.dictionary values).accepts (value.member name) = true) :
    value.member name = .table (value.tableMember name) := by
  have hplain := hvalue.member name
  rw [tableMember]
  cases hmember : value.member name with
  | object kind members =>
      rw [hmember] at hplain
      cases hplain
      rfl
  | _ => simp [hmember, Schema.accepts, Schema.check?, Schema.isDictionary] at h

theorem filterMap_texts {least : Nat} {items : List Value}
    (h : ∀ item ∈ items, (Schema.text least).accepts item = true) :
    (items.filterMap fun item => match item with
      | .text content => some content
      | _ => none).map .text = items := by
  induction items with
  | nil => rfl
  | cons item rest ih =>
      obtain ⟨hitem, hrest⟩ := List.forall_mem_cons.mp h
      have htail := ih hrest
      cases item with
      | text content =>
          rw [List.filterMap_cons]
          exact congrArg _ htail
      | _ => simp [Schema.accepts, Schema.check?] at hitem

theorem member_eq_texts {least minimum : Nat}
    (h : (Schema.list (.text least) minimum).accepts (value.member name) = true) :
    value.member name = .list ((value.textsMember name).map .text) := by
  have hlist := member_eq_list h
  rw [hlist, Schema.accepts_list_iff] at h
  rw [hlist, textsMember]
  exact congrArg _ (filterMap_texts h.2).symm

end Value

/-! ## Resources -/

namespace ResourceSpec

/-- A count that may be absent is one, with its default. -/
theorem exists_count {least : Nat} {member : Value} {otherwise : Number}
    (hotherwise : otherwise.IsCount least)
    (h : member = .missing ∨ (Schema.integer (some least) none).accepts member = true) :
    ∃ x : Number, member.present?.getD (.number otherwise) = .number x ∧ x.IsCount least := by
  rcases h with rfl | h
  · exact ⟨otherwise, rfl, hotherwise⟩
  · obtain ⟨x, rfl⟩ := Schema.exists_number_of_accepts h
    exact ⟨x, rfl, Schema.accepts_count_iff.mp h⟩

theorem eq_table_of_accepts {table : Value} (hplain : table.IsPlain)
    (h : schema.accepts table = true) : ∃ members : Dict Value, table = .table members := by
  cases hplain with
  | table => exact ⟨_, rfl⟩
  | _ => simp [schema, Schema.accepts, Schema.check?, Schema.isTable] at h

/-- Resources are taken from every accepted table, with absent counts filled in. -/
theorem exists_ofTable {table : Value} (hplain : table.IsPlain)
    (h : schema.accepts table = true) (label : String) :
    ∃ spec, ofTable table label = .ok spec ∧ spec.IsCounted ∧ spec.toTable = filled table := by
  obtain ⟨members, rfl⟩ := eq_table_of_accepts hplain h
  rw [ofTable, Schema.checkValue_of_accepts label .configuration h]
  rw [schema, Schema.accepts_table_iff] at h
  simp only [List.forall_mem_cons, List.not_mem_nil, false_implies, implies_true, and_true,
    Schema.required, Schema.optional, Bool.true_eq_false, false_and, false_or, true_and] at h
  obtain ⟨hnodes, htasks, hcores, hexclusive, hgpus⟩ := h.2.2
  obtain ⟨nodes, hnodesEq⟩ := Schema.exists_number_of_accepts hnodes
  obtain ⟨tasks, htasksEq⟩ := Schema.exists_number_of_accepts htasks
  obtain ⟨cores, hcoresEq, hcoresCount⟩ := exists_count Number.isCount_one hcores
  obtain ⟨gpus, hgpusEq, hgpusCount⟩ := exists_count Number.isCount_zero hgpus
  rw [hnodesEq] at hnodes
  rw [htasksEq] at htasks
  have hnodesCount := Schema.accepts_count_iff.mp hnodes
  have htasksCount := Schema.accepts_count_iff.mp htasks
  obtain ⟨exclusive, hexclusiveEq, hgiven⟩ : ∃ exclusive : Bool,
      ((Value.table members).member "exclusive").present?.getD (.bool true) = .bool exclusive ∧
        ((Value.table members).boolMember? "exclusive").getD true = exclusive := by
    rw [Value.boolMember?]
    rcases hexclusive with hmissing | hflag
    · rw [hmissing]
      exact ⟨true, rfl, rfl⟩
    · rw [Value.member_eq_bool hflag]
      exact ⟨_, rfl, rfl⟩
  refine ⟨⟨nodes, tasks, cores, exclusive, gpus⟩, ?_,
    ⟨hnodesCount, htasksCount, hcoresCount, hgpusCount⟩, ?_⟩
  · simp only [Bind.bind, Except.bind, ResourceRequest.create, ResourceRequest.ofTable, hnodesEq,
      htasksEq, hcoresEq, hgpusEq, hgiven, readCount_of_isCount hnodesCount,
      readCount_of_isCount htasksCount, readCount_of_isCount hcoresCount,
      readCount_of_isCount hgpusCount]
    rfl
  · simp only [toTable, filled, hnodesEq, htasksEq, hcoresEq, hgpusEq, hexclusiveEq]

end ResourceSpec

/-! ## Sources -/

theorem Schema.accepts_literal_iff {expected : String} {value : Value} :
    (literal expected).accepts value = true ↔ value = .text expected := by
  cases value <;> simp [accepts, check?]

/-- An accepted source is taken as its normal form. -/
theorem StageSource.toTable_ofTable {table : Value} (hplain : table.IsPlain)
    (h : schema.accepts table = true) :
    (ofTable table).toTable = table.restrict (memberNames table) := by
  rw [schema, Schema.accepts_union_iff] at h
  simp only [List.mem_cons, List.not_mem_nil, or_false, exists_eq_or_imp, exists_eq_left] at h
  rcases h with hfiles | hnetwork
  · rw [Schema.accepts_required_iff (by simp) (by simp [Schema.required]) hplain] at hfiles
    simp only [Schema.required, List.forall_mem_cons, List.not_mem_nil, false_implies,
      implies_true, and_true, Schema.accepts_literal_iff] at hfiles
    obtain ⟨hmechanism, hsrc, hsrcType, hpattern⟩ := hfiles
    have hfs := Value.textMember_of_member hmechanism
    simp only [ofTable, memberNames, if_pos hfs, toTable, Value.restrict, List.map_cons,
      List.map_nil, hmechanism, ← Value.member_eq_text hsrc, ← Value.member_eq_ofText? hsrcType,
      ← Value.member_eq_text hpattern]
  · rw [Schema.accepts_required_iff (by simp) (by simp [Schema.required]) hplain] at hnetwork
    simp only [Schema.required, List.forall_mem_cons, List.not_mem_nil, false_implies,
      implies_true, and_true, Schema.accepts_literal_iff] at hnetwork
    obtain ⟨hmechanism, hcreds, hmodels⟩ := hnetwork
    have hfs : table.textMember "mechanism" ≠ "fs" := by
      rw [Value.textMember_of_member hmechanism]
      decide
    simp only [ofTable, memberNames, if_neg hfs, toTable, Value.restrict, List.map_cons,
      List.map_nil, hmechanism, ← Value.member_eq_text hcreds, ← Value.member_eq_bool hmodels]

/-! ## Jobs -/

namespace JobFields

/-- The fields in an accepted table, apart from the resources. -/
def taken (value : Value) (resources : Option ResourceSpec) : JobFields where
  name := value.textMember "name"
  executable := value.textMember "executable"
  environment := value.tableMember "environment"
  resources := resources
  stdout := value.textMember? "stdout"
  stderr := value.textMember? "stderr"
  arguments := value.listMember "cli_args"
  flags := value.tableMember "cli_kwargs"
  isMpi := value.boolMember "is_mpi"
  amsLog := value.boolMember "ams_log"

/-- The resources are taken from every accepted table. -/
theorem exists_resources {value : Value} (hplain : value.IsPlain)
    (h : (Schema.union [ResourceSpec.schema, .null]).accepts (value.member "resources") = true) :
    ∃ resources, ofTable value = .ok (taken value resources) ∧
      (∀ spec, resources = some spec → spec.IsCounted) ∧
      (match resources with
        | some spec => .table spec.toTable
        | none => .null : Value) = Job.normalMember "resources" (value.member "resources") := by
  simp only [Schema.accepts_union_iff, List.mem_cons, List.not_mem_nil, or_false,
    exists_eq_or_imp, exists_eq_left] at h
  have hmember := hplain.member "resources"
  rcases h with hspec | hnull
  · obtain ⟨spec, hspecs, hcounted, htable⟩ :=
      ResourceSpec.exists_ofTable hmember hspec "resources"
    obtain ⟨members, hmembers⟩ := ResourceSpec.eq_table_of_accepts hmember hspec
    rw [hmembers] at hspecs htable
    refine ⟨some spec, ?_, fun _ hsame => Option.some.inj hsame ▸ hcounted, ?_⟩
    · rw [ofTable, hmembers]
      simp only [hspecs]
      rfl
    · rw [hmembers]
      simp only [htable]
      rfl
  · cases hnone : value.member "resources" <;>
      simp [hnone, Schema.accepts, Schema.check?] at hnull
    refine ⟨none, ?_, by simp, rfl⟩
    rw [ofTable, hnone]
    rfl

/-- What the fields of a job are taken from is kept in their table. -/
theorem exists_ofTable {value : Value} (hplain : value.IsPlain)
    (h : ∀ part ∈ tableMembers, part.2.2.accepts (value.member part.1) = true) :
    ∃ fields, ofTable value = .ok fields ∧
      (∀ spec, fields.resources = some spec → spec.IsCounted) ∧
      fields.toTable = tableMembers.map fun part =>
        (part.1, Job.normalMember part.1 (value.member part.1)) := by
  simp only [tableMembers, Schema.required, List.forall_mem_cons, List.not_mem_nil, false_implies,
    implies_true, and_true] at h
  obtain ⟨hname, hexecutable, henvironment, hresources, hstdout, hstderr, harguments, hflags, hmpi,
    hlog⟩ := h
  obtain ⟨resources, htaken, hcounted, hfilled⟩ := exists_resources hplain hresources
  refine ⟨_, htaken, hcounted, ?_⟩
  simp (disch := decide) only [tableMembers, Schema.required, List.map_cons, List.map_nil,
    Job.normalMember_of_ne]
  rw [← hfilled, Value.member_eq_text hname, Value.member_eq_text hexecutable,
    Value.member_eq_table hplain henvironment, Value.member_eq_ofText? hstdout,
    Value.member_eq_ofText? hstderr, Value.member_eq_list harguments,
    Value.member_eq_table hplain hflags, Value.member_eq_bool hmpi, Value.member_eq_bool hlog]
  rfl

end JobFields

/-- What the details of a staging job are taken from is kept in their table. -/
theorem StageDetails.toTable_ofTable {value : Value} (hplain : value.IsPlain)
    (h : ∀ part ∈ tableMembers, part.2.2.accepts (value.member part.1) = true) :
    (ofTable value).toTable = tableMembers.map fun part =>
      (part.1, Job.normalMember part.1 (value.member part.1)) := by
  simp only [tableMembers, Schema.required, List.forall_mem_cons, List.not_mem_nil, false_implies,
    implies_true, and_true] at h
  obtain ⟨hvariant, hdestination, hpersistent, hstore, hdbType, hpolicy, hmodule, hclass,
    hsource⟩ := h
  have hname : value.member "variant" =
      .text (StageVariant.ofName (value.textMember "variant")).name := by
    simp only [Schema.accepts_union_iff, List.mem_cons, List.not_mem_nil, or_false,
      exists_eq_or_imp, exists_eq_left, Schema.accepts_literal_iff] at hvariant
    rcases hvariant with hname | hname | hname <;>
      rw [Value.textMember_of_member hname, hname] <;> rfl
  have hnormal : Job.normalMember "source" (value.member "source") =
      .table (StageSource.ofTable (value.member "source")).toTable := by
    rw [StageSource.toTable_ofTable (hplain.member "source") hsource]
    rfl
  simp (disch := decide) only [tableMembers, Schema.required, List.map_cons, List.map_nil, hnormal,
    Job.normalMember_of_ne]
  rw [hname, Value.member_eq_text hdestination, Value.member_eq_text hpersistent,
    Value.member_eq_bool hstore, Value.member_eq_text hdbType, Value.member_eq_text hpolicy,
    Value.member_eq_ofText? hmodule, Value.member_eq_ofText? hclass]
  rfl

namespace Job

/-- The schema for a kind of job. -/
def schemaOfKind (kind : String) : Schema :=
  if kind = "job" then genericSchema
  else if kind = "domain" then domainSchema
  else if kind = "train" ∨ kind = "sub-select" then learningSchema
  else if kind = "stage" then stageSchema
  else orchestratorSchema

/-- Members of a schema that has resources and sources at the names of these only. -/
def HasNormalMembers (parts : List (String × Bool × Schema)) : Prop :=
  ∀ part ∈ parts,
    (part.1 = "resources" → part.2.2 = .union [ResourceSpec.schema, .null]) ∧
      (part.1 = "source" → part.2.2 = StageSource.schema)

/-- The schema for the kind of a description, when the role is kept in the table of the job. -/
def IsFor (schema : Schema) (value : Value) : Prop :=
  schema = schemaOfKind (value.textMember "kind") ∧
    ∃ kind members, schema = roleSchema kind members ∧ (∀ part ∈ members, part.2.1 = true) ∧
      HasNormalMembers members ∧
      (Role.ofTable value).toTable = (Schema.required "kind" kind :: members).map fun part =>
        (part.1, normalMember part.1 (value.member part.1))

section

variable {value : Value} (hplain : value.IsPlain)

include hplain

theorem isFor_generic (h : genericSchema.accepts value = true) : IsFor genericSchema value := by
  obtain ⟨_, hkind, _⟩ := (accepts_roleSchema_iff (by simp) hplain).mp h
  rw [Schema.accepts_literal_iff] at hkind
  have htext := Value.textMember_of_member hkind
  refine ⟨by rw [htext]; rfl, _, _, rfl, by simp, by simp [HasNormalMembers], ?_⟩
  rw [Role.ofTable, htext]
  simp (disch := decide) only [Schema.required, List.map_cons, List.map_nil, normalMember_of_ne,
    hkind]
  rfl

theorem isFor_domain (h : domainSchema.accepts value = true) : IsFor domainSchema value := by
  obtain ⟨_, hkind, hmembers⟩ := (accepts_roleSchema_iff (by simp [Schema.required]) hplain).mp h
  simp only [Schema.required, List.forall_mem_cons, List.not_mem_nil, false_implies, implies_true,
    and_true] at hmembers
  obtain ⟨hnames, hstageDir, hobjects⟩ := hmembers
  rw [Schema.accepts_literal_iff] at hkind
  have htext := Value.textMember_of_member hkind
  refine ⟨by rw [htext]; rfl, _, _, rfl, by simp [Schema.required],
    by simp [HasNormalMembers, Schema.required], ?_⟩
  rw [Role.ofTable, htext]
  simp (disch := decide) only [Schema.required, List.map_cons, List.map_nil, normalMember_of_ne,
    hkind]
  rw [Value.member_eq_texts hnames, Value.member_eq_ofText? hstageDir,
    Value.member_eq_ofText? hobjects]
  rfl

theorem isFor_learning (h : learningSchema.accepts value = true) :
    IsFor learningSchema value := by
  obtain ⟨_, hkind, hmembers⟩ := (accepts_roleSchema_iff (by simp [Schema.required]) hplain).mp h
  have hsubject : (Schema.text 1).accepts (value.member "domain") = true :=
    hmembers _ (List.mem_singleton_self _)
  obtain ⟨phase, hphase⟩ : ∃ phase : LearningPhase, value.member "kind" = .text phase.name := by
    simp only [Schema.accepts_union_iff, List.mem_cons, List.not_mem_nil, or_false,
      exists_eq_or_imp, exists_eq_left, Schema.accepts_literal_iff] at hkind
    exact hkind.elim (fun h => ⟨.training, h⟩) fun h => ⟨.subSelection, h⟩
  have htext := Value.textMember_of_member hphase
  refine ⟨by rw [htext]; cases phase <;> rfl, _, _, rfl, by simp [Schema.required],
    by simp [HasNormalMembers, Schema.required], ?_⟩
  rw [Role.ofTable, htext]
  simp (disch := decide) only [Schema.required, List.map_cons, List.map_nil, normalMember_of_ne,
    hphase]
  rw [Value.member_eq_text hsubject]
  cases phase <;> rfl

theorem isFor_stage (h : stageSchema.accepts value = true) : IsFor stageSchema value := by
  have hrequired : ∀ part ∈ StageDetails.tableMembers, part.2.1 = true := by
    simp [StageDetails.tableMembers, Schema.required]
  obtain ⟨_, hkind, hmembers⟩ := (accepts_roleSchema_iff hrequired hplain).mp h
  rw [Schema.accepts_literal_iff] at hkind
  have htext := Value.textMember_of_member hkind
  refine ⟨by rw [htext]; rfl, _, _, rfl, hrequired,
    by simp [HasNormalMembers, StageDetails.tableMembers, Schema.required], ?_⟩
  rw [Role.ofTable, htext, List.map_cons, ← StageDetails.toTable_ofTable hplain hmembers]
  simp (disch := decide) only [Schema.required, normalMember_of_ne, hkind]
  rfl

theorem isFor_orchestrator (h : orchestratorSchema.accepts value = true) :
    IsFor orchestratorSchema value := by
  obtain ⟨_, hkind, hmembers⟩ := (accepts_roleSchema_iff (by simp [Schema.required]) hplain).mp h
  simp only [Schema.required, List.forall_mem_cons, List.not_mem_nil, false_implies, implies_true,
    and_true] at hmembers
  obtain ⟨huri, hpath⟩ := hmembers
  rw [Schema.accepts_literal_iff] at hkind
  have htext := Value.textMember_of_member hkind
  refine ⟨by rw [htext]; rfl, _, _, rfl, by simp [Schema.required],
    by simp [HasNormalMembers, Schema.required], ?_⟩
  rw [Role.ofTable, htext]
  simp (disch := decide) only [Schema.required, List.map_cons, List.map_nil, normalMember_of_ne,
    hkind]
  rw [Value.member_eq_text huri, Value.member_eq_text hpath]
  rfl

theorem isFor_of_accepts {s : Schema} (hs : s ∈ schemas) (h : s.accepts value = true) :
    IsFor s value := by
  simp only [schemas, List.mem_cons, List.not_mem_nil, or_false] at hs
  rcases hs with rfl | rfl | rfl | rfl | rfl
  · exact isFor_generic hplain h
  · exact isFor_domain hplain h
  · exact isFor_learning hplain h
  · exact isFor_stage hplain h
  · exact isFor_orchestrator hplain h

end

/-! ## Normal forms are accepted -/

theorem isPlain_normalMember {member : Value} (h : member.IsPlain) (name : String) :
    (normalMember name member).IsPlain := by
  have hdefault (field : String) {otherwise : Value} (hotherwise : otherwise.IsPlain) :
      ((member.member field).present?.getD otherwise).IsPlain := by
    have hfield := h.member field
    cases hmember : member.member field <;> rw [hmember] at hfield <;>
      first | exact hotherwise | exact hfield
  rw [normalMember]
  split
  next =>
    have hfilled : (Value.table (ResourceSpec.filled member)).IsPlain := by
      refine .table (Dict.isOrdered_of_keys_eq (d := [("nodes", ()), ("tasks_per_node", ()),
        ("cores_per_task", ()), ("exclusive", ()), ("gpus_per_task", ())]) rfl (by decide)) ?_
      simp only [ResourceSpec.filled, List.forall_mem_cons, List.not_mem_nil, false_implies,
        implies_true, and_true]
      exact ⟨h.member _, h.member _, hdefault _ (.number _), hdefault _ (.bool _),
        hdefault _ (.number _)⟩
    cases member <;> first | exact .null | exact hfilled
  next =>
    split
    next =>
      refine .table ?_ fun entry hentry => ?_
      · rw [Dict.IsOrdered, Value.restrict, StageSource.memberNames]
        split <;> simp only [Dict.keys, List.map_cons, List.map_nil] <;> decide
      · obtain ⟨field, _, rfl⟩ := List.mem_map.mp hentry
        exact h.member field
    next => exact h

theorem accepts_normalMember {s : Schema} {name : String} {member : Value}
    (hplain : member.IsPlain) (h : s.accepts member = true)
    (hresources : name = "resources" → s = .union [ResourceSpec.schema, .null])
    (hsource : name = "source" → s = StageSource.schema) :
    s.accepts (normalMember name member) = true := by
  rw [normalMember]
  split
  next hname =>
    rw [hresources hname, Schema.accepts_union_iff] at h ⊢
    simp only [List.mem_cons, List.not_mem_nil, or_false, exists_eq_or_imp, exists_eq_left] at h ⊢
    rcases h with hspec | hnull
    · obtain ⟨spec, _, hcounted, hfilled⟩ := ResourceSpec.exists_ofTable hplain hspec "resources"
      obtain ⟨members, rfl⟩ := ResourceSpec.eq_table_of_accepts hplain hspec
      have hpresent : (Value.table members).present? = some (.table members) := rfl
      rw [hpresent, Option.elim_some, ← hfilled]
      exact Or.inl hcounted.accepts_toTable
    · cases member <;> simp [Schema.accepts, Schema.check?] at hnull
      exact Or.inr rfl
  next =>
    split
    next hname =>
      rw [hsource hname] at h ⊢
      rw [← StageSource.toTable_ofTable hplain h]
      exact StageSource.accepts_toTable _
    next => exact h

/-- What is kept of an accepted description is accepted by the same schema. -/
theorem accepts_normalForm {value : Value} (hplain : value.IsPlain) {kind : Schema}
    {members : List (String × Bool × Schema)} (hrequired : ∀ part ∈ members, part.2.1 = true)
    (hnormal : HasNormalMembers members)
    (hordered : Dict.IsOrdered (normalForm (roleSchema kind members) value))
    (h : (roleSchema kind members).accepts value = true) :
    (roleSchema kind members).accepts (.table (normalForm (roleSchema kind members) value)) =
      true := by
  have hplain' : (Value.table (normalForm (roleSchema kind members) value)).IsPlain := by
    refine .table hordered fun entry hentry => ?_
    obtain ⟨name, _, rfl⟩ := List.mem_map.mp hentry
    exact isPlain_normalMember (hplain.member name) name
  have hmember (name : String) (hname : name ∈ (roleSchema kind members).memberNames) :
      (Value.table (normalForm (roleSchema kind members) value)).member name =
        normalMember name (value.member name) := by
    have hentry := List.mem_map_of_mem (f := fun name =>
      (name, normalMember name (value.member name))) hname
    rw [Value.member_table, Dict.get?_of_mem hordered.nodup hentry, Option.getD_some]
  have hparts : HasNormalMembers
      (JobFields.tableMembers ++ Schema.required "kind" kind :: members) := by
    refine List.forall_mem_append.mpr ⟨?_, List.forall_mem_cons.mpr ⟨?_, hnormal⟩⟩
    · simp [JobFields.tableMembers, Schema.required]
    · simp [Schema.required]
  have haccepted (part : String × Bool × Schema)
      (hpart : part ∈ JobFields.tableMembers ++ Schema.required "kind" kind :: members)
      (haccepts : part.2.2.accepts (value.member part.1) = true) :
      part.2.2.accepts ((Value.table (normalForm (roleSchema kind members) value)).member
        part.1) = true := by
    rw [hmember part.1 (List.mem_map_of_mem hpart)]
    exact accepts_normalMember (hplain.member part.1) haccepts (hparts part hpart).1
      (hparts part hpart).2
  obtain ⟨hfields, hkind, hmembers⟩ := (accepts_roleSchema_iff hrequired hplain).mp h
  refine (accepts_roleSchema_iff hrequired hplain').mpr ⟨fun part hpart => ?_, ?_,
    fun part hpart => ?_⟩
  · exact haccepted part (by simp [hpart]) (hfields part hpart)
  · exact haccepted (Schema.required "kind" kind) (by simp) hkind
  · exact haccepted part (by simp [hpart]) (hmembers part hpart)

/-- How a description is taken: by one schema, as a job whose table is the normal form. -/
structure IsTakenAs (value : Value) (s : Schema) (job : Job) : Prop where
  accepted : s ∈ schemas ∧ s.accepts value = true
  unique : ∀ other ∈ schemas, other.accepts value = true → other = s
  taken : ofTable value = .ok job
  normal : job.toTable = normalForm s value
  /-- The normal form is accepted again, and it is a description of the same job. -/
  acceptedAgain : s.accepts (.table job.toTable) = true
  takenAgain : ofTable (.table job.toTable) = .ok job

/-- What a schema accepts is taken as a job, and so is the table of the job. -/
theorem exists_isTakenAs {value : Value} (hplain : value.IsPlain) {s : Schema} (hs : s ∈ schemas)
    (h : s.accepts value = true) : ∃ job, IsTakenAs value s job := by
  obtain ⟨hkind, kind, members, rfl, hrequired, hnormal, hrole⟩ := isFor_of_accepts hplain hs h
  obtain ⟨hfieldParts, hkindPart, hmemberParts⟩ := (accepts_roleSchema_iff hrequired hplain).mp h
  obtain ⟨fields, hfields, hcounted, hfieldTable⟩ :=
    JobFields.exists_ofTable hplain hfieldParts
  let job : Job := { toJobFields := fields, role := Role.ofTable value }
  have haccepts : schema.accepts value = true := Schema.accepts_union_iff.mpr ⟨_, hs, h⟩
  have htaken : ofTable value = .ok job := by
    rw [ofTable, Schema.checkValue_of_accepts _ _ haccepts]
    simp only [Bind.bind, Except.bind, hfields]
    rfl
  have htable : job.toTable = normalForm (roleSchema kind members) value := by
    rw [toTable, hfieldTable, hrole, ← List.map_append, normalForm, roleSchema,
      Schema.memberNames, List.map_map]
    rfl
  have hagain : (roleSchema kind members).accepts (.table job.toTable) = true :=
    htable ▸ accepts_normalForm hplain hrequired hnormal (htable ▸ job.isOrdered_toTable) h
  refine ⟨job, ⟨hs, h⟩, fun other hother haccepted => ?_, htaken, htable, hagain, ?_⟩
  · rw [hkind, (isFor_of_accepts hplain hother haccepted).1]
  · have hwhole : schema.accepts (.table job.toTable) = true :=
      Schema.accepts_union_iff.mpr ⟨_, hs, hagain⟩
    exact ofTable_of_accepts hwhole hcounted

/--
Taking a job from a description has one failure, in one text.  What does not fail is
accepted by exactly one schema, and the table of the job is the normal form of the
description, from which the same job is taken.
-/
theorem ofTable_cases {value : Value} (hplain : value.IsPlain) :
    ((∀ s ∈ schemas, s.accepts value = false) ∧ ∃ failure, ofTable value = .error failure ∧
        failure.realm = .configuration ∧
        failure.message? = some "job description is invalid (/: Expected union value)") ∨
      ∃ s job, IsTakenAs value s job := by
  by_cases haccepts : schema.accepts value = true
  · obtain ⟨s, hs, haccepted⟩ := Schema.accepts_union_iff.mp haccepts
    exact Or.inr ⟨s, exists_isTakenAs hplain hs haccepted⟩
  · refine Or.inl ⟨fun s hs => ?_, _, ofTable_of_not_accepts haccepts, rfl, by decide +kernel⟩
    rw [← Bool.not_eq_true]
    exact fun haccepted => haccepts (Schema.accepts_union_iff.mpr ⟨s, hs, haccepted⟩)

/-- A description without the counts that may be absent, and with a member that no kind has. -/
def sparseDescription : Value :=
  .table [("kind", .text "job"), ("name", .text "md"), ("executable", .text "app"),
    ("environment", .table []),
    ("resources", .table [("nodes", .number 1), ("tasks_per_node", .number 1)]),
    ("stdout", .null), ("stderr", .null), ("cli_args", .list []), ("cli_kwargs", .table []),
    ("is_mpi", .bool false), ("ams_log", .bool false), ("comment", .text "first run")]

theorem isPlain_sparseDescription : sparseDescription.IsPlain := by
  have hempty : (Value.table []).IsPlain := .table Dict.isOrdered_nil (by simp)
  have hresources :
      (Value.table [("nodes", .number 1), ("tasks_per_node", .number 1)]).IsPlain := by
    refine .table (by decide) ?_
    simp only [List.forall_mem_cons, List.not_mem_nil, false_implies, implies_true, and_true]
    exact ⟨.number _, .number _⟩
  refine .table (by decide) ?_
  simp only [List.forall_mem_cons, List.not_mem_nil, false_implies, implies_true, and_true]
  exact ⟨.text _, .text _, .text _, hempty, hresources, .null, .null, .list (by simp), hempty,
    .bool _, .bool _, .text _⟩

theorem ofTable_cases_sparseDescription :
    sparseDescription.IsPlain ∧ ∃ s job, IsTakenAs sparseDescription s job ∧
      Dict.get? job.toTable "comment" = none ∧
      Dict.get? job.toTable "resources" = some (.table [("nodes", .number 1),
        ("tasks_per_node", .number 1), ("cores_per_task", .number 1), ("exclusive", .bool true),
        ("gpus_per_task", .number 0)]) := by
  have haccepted : genericSchema.accepts sparseDescription = true := by decide +kernel
  refine ⟨isPlain_sparseDescription, ?_⟩
  rcases ofTable_cases isPlain_sparseDescription with ⟨hrefused, _⟩ | ⟨s, job, htaken⟩
  · rw [hrefused genericSchema (by simp [schemas])] at haccepted
    cases haccepted
  · obtain rfl := htaken.unique genericSchema (by simp [schemas]) haccepted
    refine ⟨_, job, htaken, ?_, ?_⟩
    · rw [htaken.normal]
      rfl
    · rw [htaken.normal]
      rfl

end Job

end Dispatch
