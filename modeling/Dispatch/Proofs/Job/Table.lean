import Dispatch.Proofs.Job.Settled
import Dispatch.Proofs.Schema

/-!
# Tables of jobs

The table of a job is plain, and its reduction is the table of the reduced job.  The schema
accepts it if everything that it checks in the table is right; of a sound job this is so
when its numbers are finite and its domains have names, and reducing the job settles it.
A job is taken back from its table when that is accepted.
-/

namespace Dispatch

/-! ## Tables are plain -/

theorem Value.IsArgument.isPlain {value : Value} (h : value.IsArgument) : value.IsPlain := by
  cases h with
  | text s => exact .text s
  | bool b => exact .bool b
  | number x => exact .number x

theorem Value.isPlain_ofText? (text : Option String) : (Value.ofText? text).IsPlain := by
  cases text with
  | none => exact .null
  | some content => exact .text content

theorem IsFlagTable.isPlain {flags : Dict Value} (h : IsFlagTable flags) :
    (Value.table flags).IsPlain :=
  .table h.ordered fun flag hflag => (h.values flag hflag).isPlain

/-- What makes the table of a job plain. -/
structure JobFields.IsPlain (fields : JobFields) : Prop where
  environment : Environment.IsText fields.environment
  arguments : ∀ value ∈ fields.arguments, value.IsPlain
  flags : (Value.table fields.flags).IsPlain

theorem JobFields.IsSound.isPlain {fields : JobFields} (h : fields.IsSound) : fields.IsPlain :=
  ⟨h.environment, fun value hvalue => (h.arguments value hvalue).isPlain, h.flags.isPlain⟩

theorem Environment.IsText.isPlain {environment : Environment} (h : environment.IsText) :
    (Value.table environment).IsPlain := by
  apply Value.IsPlain.table h.ordered
  intro entry hentry
  obtain ⟨s, hs⟩ := h.values entry hentry
  rw [hs]
  exact .text s

theorem ResourceSpec.isPlain_toTable (spec : ResourceSpec) :
    (Value.table spec.toTable).IsPlain := by
  refine .table (Dict.isOrdered_of_keys_eq (d := [("nodes", ()), ("tasks_per_node", ()),
    ("cores_per_task", ()), ("exclusive", ()), ("gpus_per_task", ())]) rfl (by decide)) ?_
  simp only [toTable, List.forall_mem_cons, List.not_mem_nil, false_implies, implies_true,
    and_true]
  exact ⟨.number _, .number _, .number _, .bool _, .number _⟩

/-- What all jobs have is plain. -/
theorem JobFields.IsPlain.of_mem_toTable {fields : JobFields} (h : fields.IsPlain) :
    ∀ entry ∈ fields.toTable, entry.2.IsPlain := by
  simp only [toTable, List.forall_mem_cons, List.not_mem_nil, false_implies, implies_true,
    and_true]
  refine ⟨.text _, .text _, h.environment.isPlain, ?_, Value.isPlain_ofText? _,
    Value.isPlain_ofText? _, .list h.arguments, h.flags, .bool _, .bool _⟩
  cases fields.resources with
  | none => exact .null
  | some spec => exact spec.isPlain_toTable

theorem StageSource.isPlain_toTable (source : StageSource) :
    (Value.table source.toTable).IsPlain := by
  cases source with
  | files src srcType pattern =>
      refine .table (Dict.isOrdered_of_keys_eq (d := [("mechanism", ()), ("src", ()),
        ("src_type", ()), ("pattern", ())]) rfl (by decide)) ?_
      simp only [toTable, List.forall_mem_cons, List.not_mem_nil, false_implies, implies_true,
        and_true]
      exact ⟨.text _, .text _, Value.isPlain_ofText? _, .text _⟩
  | network creds updateModels =>
      refine .table (Dict.isOrdered_of_keys_eq (d := [("mechanism", ()), ("creds", ()),
        ("update_models", ())]) rfl (by decide)) ?_
      simp only [toTable, List.forall_mem_cons, List.not_mem_nil, false_implies, implies_true,
        and_true]
      exact ⟨.text _, .text _, .bool _⟩

theorem Role.isPlain_of_mem_toTable (role : Role) : ∀ entry ∈ role.toTable, entry.2.IsPlain := by
  rw [toTable.eq_def, List.forall_mem_cons]
  refine ⟨.text _, ?_⟩
  cases role with
  | generic => simp
  | domain names stageDir objectsPath =>
      simp only [List.forall_mem_cons, List.not_mem_nil, false_implies, implies_true, and_true]
      refine ⟨.list fun value hvalue => ?_, Value.isPlain_ofText? _, Value.isPlain_ofText? _⟩
      obtain ⟨name, _, rfl⟩ := List.mem_map.mp hvalue
      exact .text name
  | learning phase subject => simpa using Value.IsPlain.text subject
  | stage details =>
      simp only [StageDetails.toTable, List.forall_mem_cons, List.not_mem_nil, false_implies,
        implies_true, and_true]
      exact ⟨.text _, .text _, .text _, .bool _, .text _, .text _, Value.isPlain_ofText? _,
        Value.isPlain_ofText? _, details.source.isPlain_toTable⟩
  | orchestrator schedulerUri brokerConfigPath =>
      simp only [List.forall_mem_cons, List.not_mem_nil, false_implies, implies_true, and_true]
      exact ⟨.text _, .text _⟩

/-- The names in the table of a job with a role. -/
def Role.memberNames (role : Role) : List String :=
  ["name", "executable", "environment", "resources", "stdout", "stderr", "cli_args", "cli_kwargs",
    "is_mpi", "ams_log", "kind"] ++
    match role with
    | .generic => []
    | .domain .. => ["domain_names", "stage_dir", "ams_objects_path"]
    | .learning .. => ["domain"]
    | .stage _ => ["variant", "destination_path", "persistent_store_path", "store", "db_type",
        "policy", "prune_module_path", "prune_class", "source"]
    | .orchestrator .. => ["scheduler_uri", "broker_config_path"]

theorem Job.keys_toTable (job : Job) : Dict.keys job.toTable = job.role.memberNames := by
  rcases job with ⟨fields, role⟩
  cases role <;> rfl

theorem Job.isOrdered_toTable (job : Job) : Dict.IsOrdered job.toTable := by
  rw [Dict.IsOrdered, job.keys_toTable]
  cases job.role with
  | _ =>
      simp only [Role.memberNames, List.cons_append, List.nil_append]
      decide

/-- The table of a job is plain. -/
theorem Job.isPlain_toTable {job : Job} (h : job.toJobFields.IsPlain) :
    (Value.table job.toTable).IsPlain := by
  apply Value.IsPlain.table job.isOrdered_toTable
  intro entry hentry
  rcases List.mem_append.mp hentry with hentry | hentry
  · exact h.of_mem_toTable entry hentry
  · exact job.role.isPlain_of_mem_toTable entry hentry

theorem Job.IsSound.isPlain_toTable {job : Job} (h : job.IsSound) :
    (Value.table job.toTable).IsPlain :=
  Job.isPlain_toTable h.fields.isPlain

/-! ## Reductions of tables -/

theorem Value.serial?_settled {value : Value} (h : value.IsArgument)
    (hfinite : ∀ x, value = .number x → x.isFinite = true) :
    value.serial? = some value.settled := by
  cases h with
  | text s => rfl
  | bool b => rfl
  | number x => rw [serial?, Number.serial?_of_isFinite (hfinite x rfl)]; rfl

theorem Value.serial?_ofText? (text : Option String) :
    (Value.ofText? text).serial? = some (Value.ofText? text) := by
  cases text <;> rfl

theorem Value.serialMembers_of_isText {environment : Environment} (h : environment.IsText) :
    Value.serialMembers environment = environment := by
  apply Value.serialMembers_eq_self
  intro entry hentry
  obtain ⟨s, hs⟩ := h.values entry hentry
  rw [hs]
  rfl

theorem ResourceSpec.IsCounted.serialMembers_toTable {spec : ResourceSpec} (h : spec.IsCounted) :
    Value.serialMembers spec.toTable = spec.settled.toTable := by
  simp only [toTable, Value.serialMembers, Value.serial?,
    Number.serial?_of_isFinite h.nodes.isFinite, Number.serial?_of_isFinite h.tasksPerNode.isFinite,
    Number.serial?_of_isFinite h.coresPerTask.isFinite,
    Number.serial?_of_isFinite h.gpusPerTask.isFinite]
  rfl

/-- The fields that a document holds. -/
def JobFields.reduced (fields : JobFields) : JobFields :=
  { fields with
    resources := fields.resources.map ResourceSpec.settled
    arguments := Value.serialItems fields.arguments
    flags := Value.serialMembers fields.flags }

/-- The job that a document holds. -/
def Job.reduced (job : Job) : Job :=
  { job with toJobFields := job.toJobFields.reduced }

namespace JobFields

variable {fields : JobFields}

/-- A document holds a job with finite numbers in its settled form. -/
theorem IsSound.reduced_eq_settled (h : fields.IsSound) (hfinite : fields.HasFiniteNumbers) :
    fields.reduced = fields.settled := by
  have harguments : Value.serialItems fields.arguments = fields.settled.arguments := by
    rw [Value.serialItems_eq_map]
    apply List.map_congr_left
    intro value hvalue
    rw [Value.serial?_settled (h.arguments value hvalue) fun x hx =>
      hfinite.arguments x (by rw [← hx]; exact hvalue), Option.getD_some]
  have hflags : Value.serialMembers fields.flags = fields.settled.flags := by
    apply Value.serialMembers_eq_map
    intro flag hflag
    exact Value.serial?_settled (h.flags.values flag hflag) fun x hx =>
      hfinite.flags flag.1 x (by rw [← hx]; exact hflag)
  rw [reduced, harguments, hflags]
  rfl

/-- The document of a job's fields is the table of the reduced fields. -/
theorem serialMembers_toTable (h : fields.IsPlain)
    (hcounted : ∀ spec, fields.resources = some spec → spec.IsCounted) :
    Value.serialMembers fields.toTable = fields.reduced.toTable := by
  have henvironment : (Value.table fields.environment).serial? =
      some (.table fields.environment) := by
    rw [Value.serial?_table (Value.isPlain_table_iff.mp h.environment.isPlain).2,
      Value.serialMembers_of_isText h.environment]
  have hflags := Value.serial?_table (Value.isPlain_table_iff.mp h.flags).2
  have harguments : (Value.list fields.arguments).serial? =
      some (.list (Value.serialItems fields.arguments)) := by
    rw [Value.serial?]
  cases hspec : fields.resources with
  | none =>
      simp only [toTable, hspec, Value.serialMembers, henvironment, hflags, harguments,
        Value.serial?_ofText?, Value.serial?_null, Value.serial?_bool, Value.serial?_text]
      simp only [reduced, hspec, Option.map_none]
  | some spec =>
      have hresources : (Value.table spec.toTable).serial? =
          some (.table spec.settled.toTable) := by
        rw [Value.serial?_table (Value.isPlain_table_iff.mp spec.isPlain_toTable).2,
          (hcounted spec hspec).serialMembers_toTable]
      simp only [toTable, hspec, Value.serialMembers, henvironment, hflags, harguments, hresources,
        Value.serial?_ofText?, Value.serial?_bool, Value.serial?_text]
      simp only [reduced, hspec, Option.map_some]

end JobFields

theorem StageSource.serialMembers_toTable (source : StageSource) :
    Value.serialMembers source.toTable = source.toTable := by
  cases source with
  | files src srcType pattern =>
      simp only [toTable, Value.serialMembers, Value.serial?_ofText?]
      rfl
  | network creds updateModels => rfl

theorem Role.serialMembers_toTable (role : Role) :
    Value.serialMembers role.toTable = role.toTable := by
  apply Value.serialMembers_eq_self
  rw [toTable.eq_def, List.forall_mem_cons]
  refine ⟨rfl, ?_⟩
  cases role with
  | generic => simp
  | domain names stageDir objectsPath =>
      simp only [List.forall_mem_cons, List.not_mem_nil, false_implies, implies_true, and_true]
      refine ⟨?_, Value.serial?_ofText? _, Value.serial?_ofText? _⟩
      rw [Value.serial?, Value.serialItems_eq_map, List.map_map]
      rfl
  | learning phase subject => simp
  | stage details =>
      simp only [StageDetails.toTable, List.forall_mem_cons, List.not_mem_nil, false_implies,
        implies_true, and_true]
      refine ⟨rfl, rfl, rfl, rfl, rfl, rfl, Value.serial?_ofText? _, Value.serial?_ofText? _, ?_⟩
      rw [Value.serial?_table (Value.isPlain_table_iff.mp details.source.isPlain_toTable).2,
        details.source.serialMembers_toTable]
  | orchestrator schedulerUri brokerConfigPath =>
      simp only [List.forall_mem_cons, List.not_mem_nil, false_implies, implies_true, and_true]
      exact ⟨rfl, rfl⟩

/-- The document of a job is the table of the reduced job. -/
theorem Job.serialMembers_toTable {job : Job} (h : job.toJobFields.IsPlain)
    (hcounted : ∀ spec, job.resources = some spec → spec.IsCounted) :
    Value.serialMembers job.toTable = job.reduced.toTable := by
  rw [Job.toTable, Value.serialMembers_append, JobFields.serialMembers_toTable h hcounted,
    job.role.serialMembers_toTable]
  rfl

theorem Job.IsSound.serialMembers_toTable {job : Job} (h : job.IsSound)
    (hfinite : job.HasFiniteNumbers) :
    Value.serialMembers job.toTable = job.settled.toTable := by
  rw [Job.serialMembers_toTable h.fields.isPlain h.fields.resources, reduced,
    h.fields.reduced_eq_settled hfinite]
  rfl

/-! ## Taking jobs back from tables -/

theorem readCount_of_isCount {least : Nat} {x : Number} (h : x.IsCount least) (field : String) :
    readCount (.number x) field least = .ok x :=
  readCount_eq_ok_iff.mpr ⟨rfl, h⟩

namespace ResourceSpec

variable {spec : ResourceSpec}

theorem IsCounted.create_ofTable (h : spec.IsCounted) :
    (ResourceRequest.ofTable (.table spec.toTable)).create = .ok spec := by
  have hmembers : ResourceRequest.ofTable (.table spec.toTable) =
      ⟨.number spec.nodes, .number spec.tasksPerNode, .number spec.coresPerTask,
        some spec.exclusive, .number spec.gpusPerTask⟩ := by
    simp [ResourceRequest.ofTable, Value.boolMember?, toTable, Value.member_table, Dict.get?_cons]
  rw [hmembers, ResourceRequest.create]
  simp only [Value.present?, Option.getD_some, readCount_of_isCount h.nodes,
    readCount_of_isCount h.tasksPerNode, readCount_of_isCount h.coresPerTask,
    readCount_of_isCount h.gpusPerTask]
  rfl

theorem IsCounted.accepts_toTable (h : spec.IsCounted) :
    schema.accepts (.table spec.toTable) = true := by
  rw [schema, Schema.accepts_table_iff]
  refine ⟨?_, fun _ => ?_, ?_⟩
  · simp [toTable, Schema.required, Schema.optional]
  · simp [toTable, Schema.required, Schema.optional]
  · simp only [List.forall_mem_cons, List.not_mem_nil, false_implies, implies_true, and_true]
    simp only [Schema.required, Schema.optional, toTable, Value.member_table, Dict.get?_cons]
    simp only [reduceIte, String.reduceEq, Option.getD_some]
    exact ⟨Or.inr (Schema.accepts_count_iff.mpr h.nodes),
      Or.inr (Schema.accepts_count_iff.mpr h.tasksPerNode),
      Or.inr (Schema.accepts_count_iff.mpr h.coresPerTask), Or.inr rfl,
      Or.inr (Schema.accepts_count_iff.mpr h.gpusPerTask)⟩

/-- Resources are taken back from their table. -/
theorem IsCounted.ofTable_toTable (h : spec.IsCounted) (label : String) :
    ofTable (.table spec.toTable) label = .ok spec := by
  rw [ofTable, Schema.checkValue_of_accepts label .configuration h.accepts_toTable]
  exact h.create_ofTable

end ResourceSpec

theorem Value.textMember_of_member {table : Value} {name content : String}
    (h : table.member name = .text content) : table.textMember name = content := by
  rw [textMember, h]

theorem Value.textMember?_of_member {table : Value} {name : String} {text : Option String}
    (h : table.member name = .ofText? text) : table.textMember? name = text := by
  rw [textMember?, h]
  cases text <;> rfl

/-- The fields of a job are taken back from its table. -/
theorem JobFields.ofTable_toTable {fields : JobFields}
    (h : ∀ spec, fields.resources = some spec → spec.IsCounted) (rest : Dict Value) :
    ofTable (.table (fields.toTable ++ rest)) = .ok fields := by
  have hstdout : (Value.table (fields.toTable ++ rest)).textMember? "stdout" = fields.stdout :=
    Value.textMember?_of_member (by simp [toTable, Value.member_table, Dict.get?_cons])
  have hstderr : (Value.table (fields.toTable ++ rest)).textMember? "stderr" = fields.stderr :=
    Value.textMember?_of_member (by simp [toTable, Value.member_table, Dict.get?_cons])
  cases hspec : fields.resources with
  | none =>
      have hresources : (Value.table (fields.toTable ++ rest)).member "resources" = .null := by
        simp [toTable, hspec, Value.member_table, Dict.get?_cons]
      rw [ofTable, hresources, hstdout, hstderr]
      rw [← hspec]
      rfl
  | some spec =>
      have hresources : (Value.table (fields.toTable ++ rest)).member "resources" =
          .table spec.toTable := by
        simp [toTable, hspec, Value.member_table, Dict.get?_cons]
      have hspecs : (some <$> ResourceSpec.ofTable (.table spec.toTable) "resources") =
          .ok fields.resources := by
        rw [(h spec hspec).ofTable_toTable, hspec]
        rfl
      rw [ofTable, hresources, hstdout, hstderr]
      simp only [hspecs]
      rfl

theorem StageSource.ofTable_toTable (source : StageSource) :
    ofTable (.table source.toTable) = source := by
  cases source with
  | files src srcType pattern =>
      have hsrcType : (Value.table (files src srcType pattern).toTable).textMember? "src_type" =
          srcType :=
        Value.textMember?_of_member (by simp [toTable, Value.member_table, Dict.get?_cons])
      rw [ofTable, hsrcType]
      rfl
  | network creds updateModels => rfl

theorem StageDetails.ofTable_toTable (details : StageDetails) {table : Value}
    (h : ∀ entry ∈ details.toTable, table.member entry.1 = entry.2) :
    ofTable table = details := by
  simp only [toTable, List.forall_mem_cons, List.not_mem_nil, false_implies, implies_true,
    and_true] at h
  obtain ⟨hvariant, hdestination, hpersistent, hstore, hdbType, hpolicy, hmodule, hclass,
    hsource⟩ := h
  have hname : StageVariant.ofName details.variant.name = details.variant := by
    cases details.variant <;> rfl
  rw [ofTable, Value.textMember?_of_member hmodule, Value.textMember?_of_member hclass, hsource,
    StageSource.ofTable_toTable]
  simp only [Value.textMember, Value.boolMember, Value.boolMember?, hvariant, hdestination,
    hpersistent, hstore, hdbType, hpolicy, hname, Option.getD_some]

/-- The role of a job is taken back from the members that it adds to a table. -/
theorem Role.ofTable_toTable (role : Role) {table : Value}
    (h : ∀ entry ∈ role.toTable, table.member entry.1 = entry.2) : ofTable table = role := by
  rw [toTable.eq_def, List.forall_mem_cons] at h
  obtain ⟨hkind, h⟩ := h
  rw [ofTable, Value.textMember_of_member hkind]
  cases role with
  | generic => rfl
  | domain names stageDir objectsPath =>
      simp only [List.forall_mem_cons, List.not_mem_nil, false_implies, implies_true,
        and_true] at h
      obtain ⟨hnames, hstageDir, hobjects⟩ := h
      have htexts : table.textsMember "domain_names" = names := by
        simp [Value.textsMember, Value.listMember, hnames, List.filterMap_map]
      rw [htexts, Value.textMember?_of_member hstageDir, Value.textMember?_of_member hobjects]
      rfl
  | learning phase subject =>
      rw [Value.textMember_of_member (h ("domain", .text subject) (by simp))]
      cases phase <;> rfl
  | stage details =>
      rw [StageDetails.ofTable_toTable details h]
      rfl
  | orchestrator schedulerUri brokerConfigPath =>
      simp only [List.forall_mem_cons, List.not_mem_nil, false_implies, implies_true,
        and_true] at h
      rw [Value.textMember_of_member h.1, Value.textMember_of_member h.2]
      rfl

/-! ## Accepted tables -/

/-- No domain of a domain job has an empty name. -/
def Job.HasNamedDomains (job : Job) : Prop :=
  ∀ names stageDir objectsPath, job.role = .domain names stageDir objectsPath → "" ∉ names

theorem Schema.accepts_text_iff {s : String} : (text 1).accepts (.text s) = true ↔ s ≠ "" := by
  have hunits : (textUnits s).length < 1 ↔ s = "" := by
    rw [Nat.lt_one_iff, List.length_eq_zero_iff]
    exact textUnits_inj (t := "")
  rw [accepts_iff, check?, Ne, ← hunits]
  by_cases hlength : (textUnits s).length < 1
  · simp [hlength]
  · simp [hlength]

theorem Schema.accepts_ofText? (content : Option String) :
    textOrNull.accepts (.ofText? content) = true := by
  cases content <;> rfl

theorem Schema.accepts_argument_iff {value : Value} (h : value.IsArgument) :
    argument.accepts value = true ↔ ∀ x, value = .number x → x.isFinite = true := by
  rw [argument, accepts_union_iff]
  cases h with
  | text s => simp [accepts_anyText_iff]
  | bool b => simp [accepts, check?]
  | number x => simp [accepts, check?]

/-- What is accepted for a command line is a text, a finite number, or true or false. -/
theorem Schema.accepts_argument_cases {value : Value} (h : argument.accepts value = true) :
    (∃ s, value = .text s) ∨ (∃ x : Number, value = .number x ∧ x.isFinite = true) ∨
      ∃ b, value = .bool b := by
  rw [argument, accepts_union_iff] at h
  simp only [List.mem_cons, List.not_mem_nil, or_false, exists_eq_or_imp, exists_eq_left] at h
  rcases h with htext | hnumber | hbool
  · exact Or.inl (accepts_anyText_iff.mp htext)
  · exact Or.inr (Or.inl (accepts_number_iff.mp hnumber))
  · cases value with
    | bool b => exact Or.inr (Or.inr ⟨b, rfl⟩)
    | _ => simp [accepts, check?] at hbool

namespace Job

/-- A table of a job is accepted when what it holds for the fields, the kind and the rest is. -/
theorem accepts_roleSchema_iff {kind : Schema} {members : List (String × Bool × Schema)}
    (hmembers : ∀ part ∈ members, part.2.1 = true) {table : Value} (htable : table.IsPlain) :
    (roleSchema kind members).accepts table = true ↔
      (∀ part ∈ JobFields.tableMembers, part.2.2.accepts (table.member part.1) = true) ∧
        kind.accepts (table.member "kind") = true ∧
        ∀ part ∈ members, part.2.2.accepts (table.member part.1) = true := by
  have hrequired : ∀ part ∈ JobFields.tableMembers ++ Schema.required "kind" kind :: members,
      part.2.1 = true := by
    rw [List.forall_mem_append, List.forall_mem_cons]
    refine ⟨?_, rfl, hmembers⟩
    simp [JobFields.tableMembers, Schema.required]
  rw [roleSchema, Schema.accepts_required_iff (by simp [JobFields.tableMembers]) hrequired htable,
    List.forall_mem_append, List.forall_mem_cons]
  rfl

theorem member_toTable (job : Job) {entry : String × Value} (h : entry ∈ job.toTable) :
    (Value.table job.toTable).member entry.1 = entry.2 := by
  rw [Value.member_table, Dict.get?_of_mem job.isOrdered_toTable.nodup h, Option.getD_some]

end Job

/-- What makes the table of a job accepted. -/
structure JobFields.IsAccepted (fields : JobFields) : Prop where
  plain : fields.IsPlain
  executable : fields.executable ≠ ""
  resources : ∀ spec, fields.resources = some spec → spec.IsCounted
  arguments : ∀ value ∈ fields.arguments, Schema.argument.accepts value = true
  flags : ∀ flag ∈ fields.flags, Schema.isCheckedKey flag.1 = true →
    Schema.argument.accepts flag.2 = true

/-- A job whose table is accepted. -/
structure Job.IsAccepted (job : Job) : Prop where
  fields : job.toJobFields.IsAccepted
  learning : ∀ phase subject, job.role = .learning phase subject → subject ≠ ""
  named : job.HasNamedDomains

theorem JobFields.IsSound.isAccepted {fields : JobFields} (h : fields.IsSound)
    (hfinite : fields.HasFiniteNumbers) : fields.IsAccepted where
  plain := h.isPlain
  executable := h.executable
  resources := h.resources
  arguments := by
    intro value hvalue
    apply (Schema.accepts_argument_iff (h.arguments value hvalue)).mpr
    intro x hx
    exact hfinite.arguments x (by rw [← hx]; exact hvalue)
  flags := by
    intro flag hflag _
    apply (Schema.accepts_argument_iff (h.flags.values flag hflag)).mpr
    intro x hx
    exact hfinite.flags flag.1 x (by rw [← hx]; exact hflag)

/-- What tables hold for the fields of a job is accepted. -/
theorem JobFields.IsAccepted.accepts_toTable {fields : JobFields} (h : fields.IsAccepted)
    (rest : Dict Value) : ∀ part ∈ tableMembers,
      part.2.2.accepts ((Value.table (fields.toTable ++ rest)).member part.1) = true := by
  have henvironment : (Schema.dictionary .anyText).accepts (.table fields.environment) = true := by
    apply Schema.accepts_dictionary_iff.mpr
    intro entry hentry _
    exact Schema.accepts_anyText_iff.mpr (h.plain.environment.values entry hentry)
  have harguments : (Schema.list .argument 0).accepts (.list fields.arguments) = true :=
    Schema.accepts_list_iff.mpr ⟨Nat.zero_le _, h.arguments⟩
  have hflags : (Schema.dictionary .argument).accepts (.table fields.flags) = true :=
    Schema.accepts_dictionary_iff.mpr h.flags
  simp only [tableMembers, Schema.required, toTable, List.forall_mem_cons, List.not_mem_nil,
    false_implies, implies_true, and_true, Value.member_table, List.cons_append, Dict.get?_cons,
    reduceIte, String.reduceEq, Option.getD_some]
  refine ⟨rfl, Schema.accepts_text_iff.mpr h.executable, henvironment, ?_,
    Schema.accepts_ofText? _, Schema.accepts_ofText? _, harguments, hflags, rfl, rfl⟩
  rw [Schema.accepts_union_iff]
  cases hspec : fields.resources with
  | none => exact ⟨.null, by simp, rfl⟩
  | some spec => exact ⟨_, by simp, (h.resources spec hspec).accepts_toTable⟩

theorem StageVariant.accepts_name (variant : StageVariant) :
    (Schema.union [.literal "fs", .literal "network", .literal "fs-persistent"]).accepts
      (.text variant.name) = true := by
  cases variant <;> rfl

theorem StageSource.accepts_toTable (source : StageSource) :
    schema.accepts (.table source.toTable) = true := by
  rw [schema, Schema.accepts_union_iff]
  cases source with
  | files src srcType pattern =>
      refine ⟨_, List.mem_cons_self, ?_⟩
      rw [Schema.accepts_required_iff (by simp) (by simp [Schema.required])
        (files src srcType pattern).isPlain_toTable]
      simp only [Schema.required, toTable, List.forall_mem_cons, List.not_mem_nil, false_implies,
        implies_true, and_true, Value.member_table, Dict.get?_cons, reduceIte, String.reduceEq,
        Option.getD_some]
      exact ⟨rfl, rfl, Schema.accepts_ofText? srcType, rfl⟩
  | network creds updateModels =>
      refine ⟨_, List.mem_cons_of_mem _ List.mem_cons_self, ?_⟩
      rw [Schema.accepts_required_iff (by simp) (by simp [Schema.required])
        (network creds updateModels).isPlain_toTable]
      simp only [Schema.required, toTable, List.forall_mem_cons, List.not_mem_nil, false_implies,
        implies_true, and_true, Value.member_table, Dict.get?_cons, reduceIte, String.reduceEq,
        Option.getD_some]
      exact ⟨rfl, rfl, rfl⟩

namespace Job

theorem accepts_domainNames {names : List String} (h : "" ∉ names) :
    (Schema.list (.text 1) 0).accepts (.list (names.map .text)) = true := by
  refine Schema.accepts_list_iff.mpr ⟨Nat.zero_le _, ?_⟩
  intro value hvalue
  obtain ⟨name, hname, rfl⟩ := List.mem_map.mp hvalue
  apply Schema.accepts_text_iff.mpr
  rintro rfl
  exact h hname

/-- The table of a job is accepted when one kind accepts what it holds for the role. -/
theorem IsAccepted.accepts_of_role {job : Job} (h : job.IsAccepted) {kind : Schema}
    {members : List (String × Bool × Schema)}
    (hschema : roleSchema kind members ∈ schemas) (hmembers : ∀ part ∈ members, part.2.1 = true)
    (hkind : kind.accepts ((Value.table job.toTable).member "kind") = true)
    (hrest : ∀ part ∈ members,
      part.2.2.accepts ((Value.table job.toTable).member part.1) = true) :
    schema.accepts (.table job.toTable) = true := by
  have hfields := h.fields.accepts_toTable job.role.toTable
  have hplain := job.isPlain_toTable h.fields.plain
  rw [schema, Schema.accepts_union_iff]
  exact ⟨_, hschema, (accepts_roleSchema_iff hmembers hplain).mpr ⟨hfields, hkind, hrest⟩⟩

/-- The schema accepts the table, by the kind of the job. -/
theorem IsAccepted.accepts_toTable {job : Job} (h : job.IsAccepted) :
    schema.accepts (.table job.toTable) = true := by
  have hmember : ∀ entry ∈ job.role.toTable,
      (Value.table job.toTable).member entry.1 = entry.2 :=
    fun entry hentry => job.member_toTable (List.mem_append_right _ hentry)
  cases hrole : job.role with
  | generic =>
      simp only [hrole, Role.toTable, List.forall_mem_cons] at hmember
      apply h.accepts_of_role (show genericSchema ∈ schemas by simp [schemas])
      · simp
      · rw [hmember.1]
        rfl
      · simp
  | domain names stageDir objectsPath =>
      simp only [hrole, Role.toTable, List.forall_mem_cons] at hmember
      obtain ⟨hkind, hnames, hstageDir, hobjects, _⟩ := hmember
      apply h.accepts_of_role (show domainSchema ∈ schemas by simp [schemas])
      · simp [Schema.required]
      · rw [hkind]
        rfl
      · simp only [Schema.required, List.forall_mem_cons, List.not_mem_nil, false_implies,
          implies_true, and_true, hnames, hstageDir, hobjects]
        exact ⟨accepts_domainNames (h.named names stageDir objectsPath hrole),
          Schema.accepts_ofText? _, Schema.accepts_ofText? _⟩
  | learning phase subject =>
      simp only [hrole, Role.toTable, List.forall_mem_cons] at hmember
      obtain ⟨hkind, hsubject, _⟩ := hmember
      apply h.accepts_of_role (show learningSchema ∈ schemas by simp [schemas])
      · simp [Schema.required]
      · rw [hkind]
        cases phase <;> rfl
      · simp only [Schema.required, List.forall_mem_singleton, hsubject]
        exact Schema.accepts_text_iff.mpr (h.learning phase subject hrole)
  | stage details =>
      simp only [hrole, Role.toTable, StageDetails.toTable, List.forall_mem_cons] at hmember
      obtain ⟨hkind, hvariant, hdestination, hpersistent, hstore, hdbType, hpolicy, hmodule, hclass,
        hsource, _⟩ := hmember
      apply h.accepts_of_role (show stageSchema ∈ schemas by simp [schemas])
      · simp [StageDetails.tableMembers, Schema.required]
      · rw [hkind]
        rfl
      · simp only [StageDetails.tableMembers, Schema.required, List.forall_mem_cons,
          List.not_mem_nil, false_implies, implies_true, and_true, hvariant, hdestination,
          hpersistent, hstore, hdbType, hpolicy, hmodule, hclass, hsource]
        exact ⟨details.variant.accepts_name, rfl, rfl, rfl, rfl, rfl, Schema.accepts_ofText? _,
          Schema.accepts_ofText? _, details.source.accepts_toTable⟩
  | orchestrator schedulerUri brokerConfigPath =>
      simp only [hrole, Role.toTable, List.forall_mem_cons] at hmember
      obtain ⟨hkind, huri, hpath, _⟩ := hmember
      apply h.accepts_of_role (show orchestratorSchema ∈ schemas by simp [schemas])
      · simp [Schema.required]
      · rw [hkind]
        rfl
      · simp only [Schema.required, List.forall_mem_cons, List.not_mem_nil, false_implies,
          implies_true, and_true, huri, hpath]
        exact ⟨rfl, rfl⟩

/-- A job is taken back from its table if that is accepted. -/
theorem ofTable_of_accepts {job : Job} (h : schema.accepts (.table job.toTable) = true)
    (hcounted : ∀ spec, job.resources = some spec → spec.IsCounted) :
    ofTable (.table job.toTable) = .ok job := by
  have hrole := job.role.ofTable_toTable fun entry hentry =>
    job.member_toTable (List.mem_append_right _ hentry)
  rw [ofTable, Schema.checkValue_of_accepts _ _ h]
  simp only [Bind.bind, Except.bind, hrole]
  rw [toTable, JobFields.ofTable_toTable hcounted]
  rfl

/-- A job with finite numbers and named domains is taken back from its table. -/
theorem IsSound.ofTable_toTable {job : Job} (h : job.IsSound) (hfinite : job.HasFiniteNumbers)
    (hnamed : job.HasNamedDomains) : ofTable (.table job.toTable) = .ok job := by
  have haccepted : job.IsAccepted := ⟨h.fields.isAccepted hfinite, h.learning, hnamed⟩
  exact ofTable_of_accepts haccepted.accepts_toTable h.fields.resources

end Job

end Dispatch
