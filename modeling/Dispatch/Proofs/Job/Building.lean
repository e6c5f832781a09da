import Dispatch.Deployment.Basic
import Dispatch.Job.Learning
import Dispatch.Job.Orchestrator
import Dispatch.Job.Stage
import Dispatch.Proofs.Environment
import Dispatch.Proofs.Number.Counting
import Dispatch.Proofs.Store.World
import Dispatch.Proofs.Template

/-!
# What constructors make

`Job.IsBuilt` collects the ways in which jobs are made from well-typed options, and
`Job.IsReachable` adds what deployments do to them.  Every such job is sound: it has
an executable, its environment binds texts, its resources are counts, and its
arguments and flags are values that have a place on a command line.
-/

namespace Dispatch

/-- Values that have a place on a command line, finite or not. -/
inductive Value.IsArgument : Value → Prop
  | text (s : String) : IsArgument (.text s)
  | bool (b : Bool) : IsArgument (.bool b)
  | number (x : Number) : IsArgument (.number x)

/-- A dictionary of values that have a place on a command line. -/
structure IsFlagTable (flags : Dict Value) : Prop where
  ordered : flags.IsOrdered
  values : ∀ flag ∈ flags, flag.2.IsArgument

/-- Options whose arguments, flags and base environment are of the declared types. -/
structure JobOptions.IsWellTyped (options : JobOptions) : Prop where
  arguments : ∀ value ∈ options.arguments, value.IsArgument
  flags : IsFlagTable options.flags
  baseEnvironment : ∀ base, options.baseEnvironment = some base → IsBaseEnvironment base

/-- Options whose arguments, flags and base environment are of the declared types. -/
structure StageOptions.IsWellTyped (options : StageOptions) : Prop where
  arguments : ∀ value ∈ options.arguments, value.IsArgument
  flags : IsFlagTable options.flags
  baseEnvironment : ∀ base, options.baseEnvironment = some base → IsBaseEnvironment base

/-- The jobs that are made from well-typed options. -/
inductive Job.IsBuilt : Job → Prop
  | generic {options : JobOptions} {job : Job} (hoptions : options.IsWellTyped)
      (h : Job.generic options = .ok job) : IsBuilt job
  | domain {options : JobOptions} {names : List String} {stageDir : Option String} {job : Job}
      (hoptions : options.IsWellTyped) (h : Job.domain options names stageDir = .ok job) :
      IsBuilt job
  | learning {phase : LearningPhase} {options : JobOptions} {subject : String}
      {context : Template.Context} {job : Job} (hoptions : options.IsWellTyped)
      (h : Job.learning phase options subject context = .ok job) : IsBuilt job
  | fsStage {reaches : String → Bool} {src : String} {srcType pattern : Option String}
      {options : StageOptions} {job : Job} (hoptions : options.IsWellTyped)
      (h : Job.fsStage reaches src srcType pattern options = .ok job) : IsBuilt job
  | networkStage {reaches : String → Bool} {creds : String} {updateModels : Bool}
      {options : StageOptions} {job : Job} (hoptions : options.IsWellTyped)
      (h : Job.networkStage reaches creds updateModels options = .ok job) : IsBuilt job
  | fsPersistentStage {reaches : String → Bool} {src : String} {options : StageOptions}
      {job : Job} (hoptions : options.IsWellTyped)
      (h : Job.fsPersistentStage reaches src options = .ok job) : IsBuilt job
  | orchestrator {schedulerUri brokerConfigPath : String} {base : Option (Dict Value)}
      {job : Job} (hbase : ∀ b, base = some b → IsBaseEnvironment b)
      (h : Job.orchestrator schedulerUri brokerConfigPath base = .ok job) : IsBuilt job

/-- The jobs that come of those by deployments that succeed. -/
inductive Job.IsReachable : Job → Prop
  | built {job : Job} (h : job.IsBuilt) : IsReachable job
  | deployed {σ : Type} {store : DataStore σ} {broker : Option Broker} {config : Config}
      {job job' : Job} {world world' : World σ} {path : Option String} (h : job.IsReachable)
      (hdeploy : Job.deploy store broker config (world, job) = (.ok path, (world', job'))) :
      IsReachable job'

/-- Resources whose counts are whole and large enough. -/
structure ResourceSpec.IsCounted (spec : ResourceSpec) : Prop where
  nodes : spec.nodes.IsCount 1
  tasksPerNode : spec.tasksPerNode.IsCount 1
  coresPerTask : spec.coresPerTask.IsCount 1
  gpusPerTask : spec.gpusPerTask.IsCount 0

/-- What constructors see to, besides the command line. -/
structure JobFields.IsSetUp (fields : JobFields) : Prop where
  executable : fields.executable ≠ ""
  environment : Environment.IsText fields.environment
  resources : ∀ spec, fields.resources = some spec → spec.IsCounted

/-- What holds of the fields of every job. -/
structure JobFields.IsSound (fields : JobFields) : Prop where
  executable : fields.executable ≠ ""
  environment : Environment.IsText fields.environment
  resources : ∀ spec, fields.resources = some spec → spec.IsCounted
  arguments : ∀ value ∈ fields.arguments, value.IsArgument
  flags : IsFlagTable fields.flags

/-- What holds of every job. -/
structure Job.IsSound (job : Job) : Prop where
  fields : job.toJobFields.IsSound
  learning : ∀ phase subject, job.role = .learning phase subject → subject ≠ ""

/-! ## Resources -/

theorem readCount_eq_ok_iff {value : Value} {field : String} {least : Nat} {count : Number} :
    readCount value field least = .ok count ↔ value = .number count ∧ count.IsCount least := by
  cases value with
  | number x =>
      have hcount : (x.isInteger && !x.less (.ofInt least)) = true ↔ x.IsCount least := by
        simp [Number.IsCount]
      rw [readCount]
      split
      next hx =>
        constructor
        · rintro ⟨⟩
          exact ⟨rfl, hcount.mp hx⟩
        · rintro ⟨⟨⟩, _⟩
          rfl
      next hx =>
        constructor
        · rintro ⟨⟩
        · rintro ⟨⟨⟩, h⟩
          exact absurd (hcount.mpr h) hx
  | _ =>
      simp only [readCount]
      split <;> simp

theorem isCounted_of_create {request : ResourceRequest} {spec : ResourceSpec}
    (h : request.create = .ok spec) : spec.IsCounted := by
  rw [ResourceRequest.create] at h
  obtain ⟨nodes, hnodes, h⟩ := exists_of_bind_eq_ok h
  obtain ⟨tasks, htasks, h⟩ := exists_of_bind_eq_ok h
  obtain ⟨cores, hcores, h⟩ := exists_of_bind_eq_ok h
  obtain ⟨gpus, hgpus, h⟩ := exists_of_bind_eq_ok h
  cases h
  exact ⟨(readCount_eq_ok_iff.mp hnodes).2, (readCount_eq_ok_iff.mp htasks).2,
    (readCount_eq_ok_iff.mp hcores).2, (readCount_eq_ok_iff.mp hgpus).2⟩

/-- A value that is a count. -/
def Value.IsCount (least : Nat) (value : Value) : Prop :=
  ∃ x : Number, value = .number x ∧ x.IsCount least

/-- Resources are asked for with proper counts; two of these may be left to their defaults. -/
structure ResourceRequest.IsCounted (request : ResourceRequest) : Prop where
  nodes : request.nodes.IsCount 1
  tasksPerNode : request.tasksPerNode.IsCount 1
  coresPerTask : request.coresPerTask.isPresent = true → request.coresPerTask.IsCount 1
  gpusPerTask : request.gpusPerTask.isPresent = true → request.gpusPerTask.IsCount 0

/-- A default that is a count takes the place of an absent value only. -/
theorem Value.isCount_getD_iff {least : Nat} {value : Value} {otherwise : Number}
    (h : otherwise.IsCount least) :
    (value.present?.getD (.number otherwise)).IsCount least ↔
      (value.isPresent = true → value.IsCount least) := by
  cases value with
  | missing | null =>
      refine ⟨fun _ hpresent => ?_, fun _ => ⟨otherwise, rfl, h⟩⟩
      cases hpresent
  | _ => exact ⟨fun hcount _ => hcount, fun hcount => hcount rfl⟩

/-- Resources are created exactly of proper counts. -/
theorem ResourceRequest.exists_create_iff {request : ResourceRequest} :
    (∃ spec, request.create = .ok spec) ↔ request.IsCounted := by
  constructor
  · rintro ⟨spec, h⟩
    rw [create] at h
    obtain ⟨nodes, hnodes, h⟩ := exists_of_bind_eq_ok h
    obtain ⟨tasks, htasks, h⟩ := exists_of_bind_eq_ok h
    obtain ⟨cores, hcores, h⟩ := exists_of_bind_eq_ok h
    obtain ⟨gpus, hgpus, h⟩ := exists_of_bind_eq_ok h
    exact ⟨⟨nodes, readCount_eq_ok_iff.mp hnodes⟩, ⟨tasks, readCount_eq_ok_iff.mp htasks⟩,
      (Value.isCount_getD_iff Number.isCount_one).mp ⟨cores, readCount_eq_ok_iff.mp hcores⟩,
      (Value.isCount_getD_iff Number.isCount_zero).mp ⟨gpus, readCount_eq_ok_iff.mp hgpus⟩⟩
  · rintro ⟨⟨nodes, hnodes⟩, ⟨tasks, htasks⟩, hcores, hgpus⟩
    obtain ⟨cores, hcores⟩ := (Value.isCount_getD_iff Number.isCount_one).mpr hcores
    obtain ⟨gpus, hgpus⟩ := (Value.isCount_getD_iff Number.isCount_zero).mpr hgpus
    rw [create, readCount_eq_ok_iff.mpr hnodes, readCount_eq_ok_iff.mpr htasks,
      readCount_eq_ok_iff.mpr hcores, readCount_eq_ok_iff.mpr hgpus]
    exact ⟨_, rfl⟩

/-! ## Constructors -/

/-- All arguments and flags are among given ones, or are texts. -/
structure TakesFrom (arguments : List Value) (flags : Dict Value) (given : List Value)
    (givenFlags : Dict Value) : Prop where
  arguments : ∀ value ∈ arguments, value ∈ given ∨ ∃ s, value = .text s
  flags : ∀ flag ∈ flags, flag ∈ givenFlags ∨ ∃ s, flag.2 = .text s

namespace TakesFrom

variable {arguments given : List Value} {flags givenFlags : Dict Value}
  (h : TakesFrom arguments flags given givenFlags)

include h

theorem isArgument (hgiven : ∀ value ∈ given, value.IsArgument) :
    ∀ value ∈ arguments, value.IsArgument := by
  intro value hvalue
  rcases h.arguments value hvalue with hvalue | ⟨s, rfl⟩
  · exact hgiven value hvalue
  · exact .text s

theorem isArgument_flag (hgiven : ∀ flag ∈ givenFlags, flag.2.IsArgument) :
    ∀ flag ∈ flags, flag.2.IsArgument := by
  intro flag hflag
  rcases h.flags flag hflag with hflag | ⟨s, hs⟩
  · exact hgiven flag hflag
  · rw [hs]
    exact .text s

end TakesFrom

/-- Fields have the arguments and flags that they are made from. -/
theorem eq_of_create {options : JobOptions} {fields : JobFields}
    (h : JobFields.create options = .ok fields) :
    fields.arguments = options.arguments ∧ fields.flags = options.flags := by
  simp only [JobFields.create] at h
  split at h
  next => cases h
  next =>
    obtain ⟨environment, _, h⟩ := exists_of_bind_eq_ok h
    obtain ⟨resources, _, h⟩ := exists_of_bind_eq_ok h
    cases h
    exact ⟨rfl, rfl⟩

/-- What is made of options does not depend on their arguments and flags. -/
theorem isSetUp_of_create {options : JobOptions} {fields : JobFields}
    (h : JobFields.create options = .ok fields)
    (hbase : ∀ base, options.baseEnvironment = some base → IsBaseEnvironment base) :
    fields.IsSetUp := by
  simp only [JobFields.create] at h
  split at h
  next => cases h
  next hexecutable =>
    obtain ⟨environment, henvironment, h⟩ := exists_of_bind_eq_ok h
    obtain ⟨resources, hresources, h⟩ := exists_of_bind_eq_ok h
    cases h
    refine ⟨hexecutable, Environment.isText_onTopOf (Environment.isText_of_validate henvironment)
      hbase, ?_⟩
    intro spec hspec
    cases hrequest : options.resources with
    | none =>
        rw [hrequest] at hresources
        cases hresources
        cases hspec
    | some request =>
        rw [hrequest] at hresources
        obtain ⟨created, hcreated, hresources⟩ := exists_of_bind_eq_ok hresources
        cases hresources
        cases hspec
        exact isCounted_of_create hcreated

/-- The fields that are made from well-typed options are sound. -/
theorem isSound_of_create {options : JobOptions} (hoptions : options.IsWellTyped)
    {fields : JobFields} (h : JobFields.create options = .ok fields) : fields.IsSound := by
  obtain ⟨hexecutable, henvironment, hresources⟩ := isSetUp_of_create h hoptions.baseEnvironment
  obtain ⟨harguments, hflags⟩ := eq_of_create h
  refine ⟨hexecutable, henvironment, hresources, ?_, ?_⟩
  · rw [harguments]
    exact hoptions.arguments
  · rw [hflags]
    exact hoptions.flags

namespace Job

variable {job : Job}

theorem create_of_domain {options : JobOptions} {names : List String} {stageDir : Option String}
    (h : Job.domain options names stageDir = .ok job) :
    JobFields.create options = .ok job.toJobFields ∧
      job.role = .domain names.eraseDups stageDir none := by
  obtain ⟨fields, hfields, h⟩ := exists_of_bind_eq_ok h
  cases h
  exact ⟨hfields, rfl⟩

theorem create_of_learning {phase : LearningPhase} {options : JobOptions} {subject : String}
    {context : Template.Context} (h : Job.learning phase options subject context = .ok job) :
    trim subject ≠ "" ∧ job.role = .learning phase (trim subject) ∧ ∃ arguments flags,
      options.arguments.mapM (Template.formatArgument context) = .ok arguments ∧
      options.flags.mapM (Template.formatFlag context) = .ok flags ∧
      JobFields.create { options with arguments := arguments, flags := Dict.assignAll [] flags } =
        .ok job.toJobFields := by
  simp only [Job.learning] at h
  split at h
  next => cases h
  next hsubject =>
    obtain ⟨arguments, harguments, h⟩ := exists_of_bind_eq_ok h
    obtain ⟨flags, hflags, h⟩ := exists_of_bind_eq_ok h
    obtain ⟨fields, hfields, h⟩ := exists_of_bind_eq_ok h
    cases h
    exact ⟨hsubject, rfl, arguments, flags, harguments, hflags, hfields⟩

/-- The details of a staging job with a source and a pruning. -/
def detailsOf (options : StageOptions) (variant : StageVariant) (source : StageSource)
    (pruning : Option Pruning) : StageDetails where
  variant := variant
  destinationPath := options.destinationPath
  persistentStorePath := options.persistentStorePath
  storeFlag := options.storeFlag
  dbType := options.dbType
  policy := options.policy
  pruneModulePath := pruning.map Pruning.modulePath
  pruneClass := pruning.map Pruning.className
  source := source

theorem create_of_stage {reaches : String → Bool} {variant : StageVariant} {name : String}
    {source : StageSource} {options : StageOptions}
    (h : Job.stage reaches variant name source options = .ok job) :
    ∃ pruning, job.role = .stage (detailsOf options variant source pruning) ∧
      ∃ made : JobOptions, JobFields.create made = .ok job.toJobFields ∧
        made.baseEnvironment = options.baseEnvironment ∧
        made.arguments = options.arguments ++ source.arguments ++
          [StageOptions.storeArgument options.storeFlag] ∧
        made.flags = Dict.merge options.flags (options.ownFlags source pruning) := by
  obtain ⟨pruning, _, h⟩ := exists_of_bind_eq_ok h
  obtain ⟨fields, hfields, h⟩ := exists_of_bind_eq_ok h
  cases h
  exact ⟨pruning, rfl, _, hfields, rfl, rfl, rfl⟩

theorem isSound_of_domain {options : JobOptions} {names : List String} {stageDir : Option String}
    (hoptions : options.IsWellTyped)
    (h : Job.domain options names stageDir = .ok job) : job.IsSound := by
  obtain ⟨hfields, hrole⟩ := create_of_domain h
  exact ⟨isSound_of_create hoptions hfields, by simp [hrole]⟩

/-- A filled-in argument is the argument itself, or a text. -/
theorem eq_or_text_of_formatArgument {context : Template.Context} {value result : Value}
    (h : Template.formatArgument context value = .ok result) :
    result = value ∨ ∃ s, result = .text s := by
  cases Template.formatArgument_eq_ok_iff.mp h with
  | text => exact Or.inr ⟨_, rfl⟩
  | other => exact Or.inl rfl

theorem takesFrom_of_format {context : Template.Context} {given arguments : List Value}
    {givenFlags flags : Dict Value}
    (harguments : given.mapM (Template.formatArgument context) = .ok arguments)
    (hflags : givenFlags.mapM (Template.formatFlag context) = .ok flags) :
    TakesFrom arguments (Dict.assignAll [] flags) given givenFlags where
  arguments := by
    intro value hvalue
    obtain ⟨template, htemplate, hformat⟩ := exists_of_mem_mapM harguments hvalue
    rcases eq_or_text_of_formatArgument hformat with rfl | htext
    · exact Or.inl htemplate
    · exact Or.inr htext
  flags := by
    intro flag hflag
    rcases Dict.mem_of_mem_assignAll hflag with hflag | hflag
    · simp at hflag
    obtain ⟨template, htemplate, hformat⟩ := exists_of_mem_mapM hflags hflag
    obtain ⟨value, hvalue, hflag⟩ := exists_of_bind_eq_ok hformat
    cases hflag
    rcases eq_or_text_of_formatArgument hvalue with rfl | htext
    · exact Or.inl htemplate
    · exact Or.inr htext

theorem isSound_of_learning {phase : LearningPhase} {options : JobOptions} {subject : String}
    {context : Template.Context} (hoptions : options.IsWellTyped)
    (h : Job.learning phase options subject context = .ok job) : job.IsSound := by
  obtain ⟨hsubject, hrole, arguments, flags, harguments, hflags, hfields⟩ := create_of_learning h
  have htakes := takesFrom_of_format harguments hflags
  have htyped : JobOptions.IsWellTyped
      { options with arguments := arguments, flags := Dict.assignAll [] flags } :=
    ⟨htakes.isArgument hoptions.arguments,
      ⟨Dict.isOrdered_nil.assignAll flags, htakes.isArgument_flag hoptions.flags.values⟩,
      hoptions.baseEnvironment⟩
  refine ⟨isSound_of_create htyped hfields, fun _ _ hsame => ?_⟩
  rw [hrole] at hsame
  cases hsame
  exact hsubject

theorem text_of_mem_flags {source : StageSource} :
    ∀ flag ∈ source.flags, ∃ s, flag.2 = .text s := by
  cases source with
  | files src srcType pattern => cases srcType <;> simp [StageSource.flags]
  | network creds updateModels => simp [StageSource.flags]

/-- The flags that a staging job sets itself are texts. -/
theorem text_of_mem_ownFlags (options : StageOptions) (source : StageSource)
    (pruning : Option Pruning) :
    ∀ flag ∈ options.ownFlags source pruning, ∃ s, flag.2 = .text s := by
  intro flag hflag
  rw [StageOptions.ownFlags, List.mem_append, List.mem_append] at hflag
  rcases hflag with (hflag | hflag) | hflag
  · exact text_of_mem_flags flag hflag
  · simp only [List.mem_cons, List.not_mem_nil, or_false] at hflag
    rcases hflag with rfl | rfl | rfl | rfl <;> exact ⟨_, rfl⟩
  · cases pruning with
    | none => simp at hflag
    | some pruning =>
        simp only [Option.map_some, Option.getD_some, Pruning.flags, List.mem_cons,
          List.not_mem_nil, or_false] at hflag
        rcases hflag with rfl | rfl <;> exact ⟨_, rfl⟩

theorem takesFrom_of_stage (options : StageOptions) (source : StageSource)
    (pruning : Option Pruning) :
    TakesFrom
      (options.arguments ++ source.arguments ++ [StageOptions.storeArgument options.storeFlag])
      (Dict.merge options.flags (options.ownFlags source pruning))
      options.arguments options.flags where
  arguments := by
    intro value hvalue
    rw [List.mem_append, List.mem_append] at hvalue
    rcases hvalue with (hvalue | hvalue) | hvalue
    · exact Or.inl hvalue
    · rw [StageSource.arguments.eq_def] at hvalue
      split at hvalue
      next => exact Or.inr ⟨_, List.mem_singleton.mp hvalue⟩
      next => cases hvalue
    · exact Or.inr ⟨_, List.mem_singleton.mp hvalue⟩
  flags := by
    intro flag hflag
    rcases Dict.mem_of_mem_merge hflag with hflag | hflag
    · exact Or.inl hflag
    · exact Or.inr (text_of_mem_ownFlags options source pruning flag hflag)

theorem isSound_of_stage {reaches : String → Bool} {variant : StageVariant} {name : String}
    {source : StageSource} {options : StageOptions} (hoptions : options.IsWellTyped)
    (h : Job.stage reaches variant name source options = .ok job) : job.IsSound := by
  obtain ⟨pruning, hrole, made, hfields, hbase, harguments, hflags⟩ := create_of_stage h
  have htakes := takesFrom_of_stage options source pruning
  have htyped : made.IsWellTyped := by
    refine ⟨?_, ⟨?_, ?_⟩, ?_⟩
    · rw [harguments]
      exact htakes.isArgument hoptions.arguments
    · rw [hflags]
      exact hoptions.flags.ordered.merge _
    · rw [hflags]
      exact htakes.isArgument_flag hoptions.flags.values
    · rw [hbase]
      exact hoptions.baseEnvironment
  exact ⟨isSound_of_create htyped hfields, by simp [hrole]⟩

theorem isSound_of_orchestrator {schedulerUri brokerConfigPath : String}
    {base : Option (Dict Value)} (hbase : ∀ b, base = some b → IsBaseEnvironment b)
    (h : Job.orchestrator schedulerUri brokerConfigPath base = .ok job) : job.IsSound := by
  obtain ⟨fields, hfields, h⟩ := exists_of_bind_eq_ok h
  cases h
  refine ⟨isSound_of_create ⟨by simp, ⟨?_, ?_⟩, hbase⟩ hfields, by simp⟩
  · exact Dict.isOrdered_of_keys_eq (d := [("--ml-uri", ()), ("--ams-rmq-config", ())]) rfl
      (by decide)
  · simp only [List.forall_mem_cons, List.not_mem_nil, false_implies, implies_true, and_true]
    exact ⟨.text _, .text _⟩

/-- Every job that a constructor makes is sound. -/
theorem IsBuilt.isSound (h : job.IsBuilt) : job.IsSound := by
  cases h with
  | generic hoptions h =>
      obtain ⟨fields, hfields, h⟩ := exists_of_bind_eq_ok h
      cases h
      exact ⟨isSound_of_create hoptions hfields, by simp⟩
  | domain hoptions h => exact isSound_of_domain hoptions h
  | learning hoptions h => exact isSound_of_learning hoptions h
  | fsStage hoptions h => exact isSound_of_stage hoptions h
  | networkStage hoptions h => exact isSound_of_stage hoptions h
  | fsPersistentStage hoptions h =>
      rw [Job.fsPersistentStage] at h
      refine isSound_of_stage ?_ h
      exact ⟨hoptions.arguments, hoptions.flags, hoptions.baseEnvironment⟩
  | orchestrator hbase h => exact isSound_of_orchestrator hbase h

end Job

end Dispatch
