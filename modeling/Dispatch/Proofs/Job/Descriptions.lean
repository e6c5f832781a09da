import Dispatch.Proofs.Job.NormalForm
import Dispatch.Proofs.Json.Settled

/-!
# Jobs that are described

`Job.IsDescribed` collects the ways in which jobs are taken from descriptions.  Every one
of them checks a command line and hands its arguments on.  The constructors behind them
leave an argument as it is, drop it, or put a text in its place, so that a job has no
argument that is neither a text nor in its description.
-/

namespace Dispatch

/-- The jobs that are taken from a description. -/
inductive Job.IsDescribed (description : Value) : Job → Prop
  | ofTable {job : Job} (h : Job.ofTable description = .ok job) : IsDescribed description job
  | domain {stageDir : Option String} {base : Option (Dict Value)} {job : Job}
      (h : Job.domainOfDescription description stageDir base = .ok job) :
      IsDescribed description job
  | learning {phase : LearningPhase} {storePath : String} {job : Job}
      (h : Job.learningOfDescription phase storePath description = .ok job) :
      IsDescribed description job
  | networkStage {reaches : String → Bool} {destinationPath persistentStorePath creds : String}
      {resources : Option ResourceRequest} {job : Job}
      (h : Job.networkStageOfDescription reaches description destinationPath
        persistentStorePath creds resources = .ok job) : IsDescribed description job

/-- A value with a command line that was checked, or with none. -/
structure Value.HasCommandLine (value : Value) : Prop where
  arguments : value.member "cli_args" = .missing ∨
    (Schema.list .argument 0).accepts (value.member "cli_args") = true
  flags : value.member "cli_kwargs" = .missing ∨
    (Schema.dictionary .argument).accepts (value.member "cli_kwargs") = true

/-! ## Parts of descriptions -/

namespace Value

variable {value : Value}

/-- The arguments of a checked command line are accepted. -/
theorem HasCommandLine.accepts_argument (h : value.HasCommandLine) :
    ∀ item ∈ value.listMember "cli_args", Schema.argument.accepts item = true := by
  intro item hitem
  rcases h.arguments with hmissing | haccepted
  · rw [listMember, hmissing] at hitem
    cases hitem
  · rw [member_eq_list haccepted, Schema.accepts_list_iff] at haccepted
    exact haccepted.2 item hitem

/-- The flags of a checked command line are accepted, unless their keys are not checked. -/
theorem HasCommandLine.accepts_flag (h : value.HasCommandLine) :
    ∀ flag ∈ value.tableMember "cli_kwargs", Schema.isCheckedKey flag.1 = true →
      Schema.argument.accepts flag.2 = true := by
  intro flag hflag
  rcases h.flags with hmissing | haccepted
  · rw [tableMember, hmissing] at hflag
    cases hflag
  · exact Schema.accepts_of_mem_members haccepted flag hflag

end Value

/-- A schema with the parts of command lines checks them. -/
theorem Schema.hasCommandLine_of_accepts {parts : List (String × Bool × Schema)} {closed : Bool}
    {value : Value} (h : (table parts closed).accepts value = true) (required : Bool)
    (harguments : ("cli_args", required, list argument 0) ∈ parts)
    (hflags : ("cli_kwargs", required, dictionary argument) ∈ parts) : value.HasCommandLine where
  arguments := (accepts_member_of_table h _ harguments).imp_left And.right
  flags := (accepts_member_of_table h _ hflags).imp_left And.right

/-- The command line of a description that has it as a part. -/
theorem Schema.hasCommandLine_cli {parts : List (String × Bool × Schema)} {closed : Bool}
    {description : Value} (h : (table parts closed).accepts description = true)
    (hcli : required "cli" commandLine ∈ parts) : (description.member "cli").HasCommandLine := by
  rcases accepts_member_of_table h _ hcli with ⟨hoptional, _⟩ | haccepted
  · cases hoptional
  · exact hasCommandLine_of_accepts haccepted false (by simp [required, optional])
      (by simp [required, optional])

/-! ## What constructors do with a command line -/

theorem JobFields.eq_of_ofTable {value : Value} {fields : JobFields}
    (h : ofTable value = .ok fields) :
    fields.arguments = value.listMember "cli_args" ∧
      fields.flags = value.tableMember "cli_kwargs" := by
  simp only [ofTable] at h
  split at h
  next =>
    cases h
    exact ⟨rfl, rfl⟩
  next =>
    obtain ⟨resources, _, h⟩ := exists_of_bind_eq_ok h
    cases h
    exact ⟨rfl, rfl⟩

theorem takesFrom_self (arguments : List Value) (flags : Dict Value) :
    TakesFrom arguments flags arguments flags :=
  ⟨fun _ => Or.inl, fun _ => Or.inl⟩

namespace Job

variable {description : Value} {job : Job}

theorem takesFrom_domain {options : JobOptions} {names : List String} {stageDir : Option String}
    (h : domain options names stageDir = .ok job) :
    TakesFrom job.arguments job.flags options.arguments options.flags := by
  obtain ⟨hsame, hsameFlags⟩ := eq_of_create (create_of_domain h).1
  rw [hsame, hsameFlags]
  exact takesFrom_self _ _

theorem takesFrom_learning {phase : LearningPhase} {options : JobOptions} {subject : String}
    {context : Template.Context} (h : learning phase options subject context = .ok job) :
    TakesFrom job.arguments job.flags options.arguments options.flags := by
  obtain ⟨_, _, arguments, flags, harguments, hflags, hfields⟩ := create_of_learning h
  obtain ⟨hsame, hsameFlags⟩ := eq_of_create hfields
  rw [hsame, hsameFlags]
  exact takesFrom_of_format harguments hflags

theorem takesFrom_stage {reaches : String → Bool} {variant : StageVariant} {name : String}
    {source : StageSource} {options : StageOptions}
    (h : stage reaches variant name source options = .ok job) :
    TakesFrom job.arguments job.flags options.arguments options.flags := by
  obtain ⟨pruning, _, made, hfields, _, harguments, hflags⟩ := create_of_stage h
  obtain ⟨hsame, hsameFlags⟩ := eq_of_create hfields
  rw [hsame, hsameFlags, harguments, hflags]
  exact takesFrom_of_stage options source pruning

/-! ## Command lines of described jobs -/

/-- The arguments and flags of a job are those of a command line, or texts. -/
def TakesCommandLine (job : Job) (commandLine : Value) : Prop :=
  TakesFrom job.arguments job.flags (commandLine.listMember "cli_args")
    (commandLine.tableMember "cli_kwargs")

theorem takesCommandLine_ofTable (h : ofTable description = .ok job) :
    description.HasCommandLine ∧ job.TakesCommandLine description := by
  obtain ⟨haccepted, h⟩ := Schema.accepts_of_checkValue_bind h
  obtain ⟨fields, hfields, h⟩ := exists_of_bind_eq_ok h
  cases h
  obtain ⟨s, hs, haccepted⟩ := Schema.accepts_union_iff.mp haccepted
  obtain ⟨kind, members, rfl, _⟩ := schemas_required hs
  obtain ⟨hsame, hsameFlags⟩ := JobFields.eq_of_ofTable hfields
  refine ⟨Schema.hasCommandLine_of_accepts haccepted true ?_ ?_, ?_⟩
  · simp [JobFields.tableMembers, Schema.required]
  · simp [JobFields.tableMembers, Schema.required]
  · rw [TakesCommandLine, hsame, hsameFlags]
    exact takesFrom_self _ _

theorem takesCommandLine_domain {stageDir : Option String} {base : Option (Dict Value)}
    (h : domainOfDescription description stageDir base = .ok job) :
    (description.member "cli").HasCommandLine ∧
      job.TakesCommandLine (description.member "cli") := by
  obtain ⟨haccepted, h⟩ := Schema.accepts_of_checkValue_bind h
  exact ⟨Schema.hasCommandLine_cli haccepted (by simp), takesFrom_domain h⟩

theorem takesCommandLine_learning {phase : LearningPhase} {storePath : String}
    (h : learningOfDescription phase storePath description = .ok job) :
    (description.member "cli").HasCommandLine ∧
      job.TakesCommandLine (description.member "cli") := by
  obtain ⟨haccepted, h⟩ := Schema.accepts_of_checkValue_bind h
  exact ⟨Schema.hasCommandLine_cli haccepted (by simp), takesFrom_learning h⟩

theorem takesCommandLine_networkStage {reaches : String → Bool}
    {destinationPath persistentStorePath creds : String} {resources : Option ResourceRequest}
    (h : networkStageOfDescription reaches description destinationPath persistentStorePath creds
      resources = .ok job) :
    description.HasCommandLine ∧ job.TakesCommandLine description := by
  obtain ⟨haccepted, h⟩ := Schema.accepts_of_checkValue_bind h
  refine ⟨Schema.hasCommandLine_of_accepts haccepted false ?_ ?_, takesFrom_stage h⟩
  · simp [Schema.optional]
  · simp [Schema.optional]

/-- A described job takes its command line from its description, where it was checked. -/
theorem IsDescribed.takesCommandLine (h : job.IsDescribed description) :
    ∃ commandLine : Value, (commandLine = description ∨ commandLine = description.member "cli") ∧
      commandLine.HasCommandLine ∧ job.TakesCommandLine commandLine := by
  cases h with
  | ofTable h => exact ⟨_, Or.inl rfl, takesCommandLine_ofTable h⟩
  | domain h => exact ⟨_, Or.inr rfl, takesCommandLine_domain h⟩
  | learning h => exact ⟨_, Or.inr rfl, takesCommandLine_learning h⟩
  | networkStage h => exact ⟨_, Or.inl rfl, takesCommandLine_networkStage h⟩

/-- Every argument of a described job was accepted, or is a text. -/
theorem IsDescribed.accepts_argument (h : job.IsDescribed description) :
    ∀ value ∈ job.arguments, Schema.argument.accepts value = true := by
  obtain ⟨commandLine, _, hchecked, htakes⟩ := h.takesCommandLine
  intro value hvalue
  rcases htakes.arguments value hvalue with hgiven | ⟨s, rfl⟩
  · exact hchecked.accepts_argument value hgiven
  · rfl

/-- Every flag of a described job was accepted, or is a text, if its key is checked. -/
theorem IsDescribed.accepts_flag (h : job.IsDescribed description) :
    ∀ flag ∈ job.flags, Schema.isCheckedKey flag.1 = true →
      Schema.argument.accepts flag.2 = true := by
  obtain ⟨commandLine, _, hchecked, htakes⟩ := h.takesCommandLine
  intro flag hflag hkey
  rcases htakes.flags flag hflag with hgiven | ⟨s, hs⟩
  · exact hchecked.accepts_flag flag hgiven hkey
  · rw [hs]
    rfl

/-- The flags of a job from a document can stand in a document. -/
theorem IsDescribed.isJson_flag (h : job.IsDescribed description) (hjson : description.IsJson) :
    ∀ flag ∈ job.flags, flag.2.IsJson := by
  obtain ⟨commandLine, hfrom, _, htakes⟩ := h.takesCommandLine
  intro flag hflag
  rcases htakes.flags flag hflag with hgiven | ⟨s, hs⟩
  · rcases hfrom with rfl | rfl
    · exact hjson.of_mem_tableMember flag hgiven
    · rcases hjson.member "cli" with hmissing | hcli
      · rw [hmissing] at hgiven
        cases hgiven
      · exact hcli.of_mem_tableMember flag hgiven
  · rw [hs]
    exact .text s

end Job

end Dispatch
