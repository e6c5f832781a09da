import Dispatch.Proofs.Job.Descriptions
import Dispatch.Proofs.Job.Learning
import Dispatch.Proofs.Job.StageFlags

/-!
# Jobs of manifests

A manifest is a document of descriptions of jobs.  Three validators look at the same data
on its way: the schema of the description, the constructor of the job, and the schema of
the job's table.  `Job.manifest_cases` says where a later one is stricter than an earlier
one.  No table of a job is refused that was made from a manifest, and a constructor refuses
what the schema let pass only for names and executables that are blank and for texts that
are no templates.

Values under keys with a line end are not looked at and may hold anything.  They come back
from a document with no signs of zeros in them, however deep.
-/

namespace Dispatch

/-- What is accepted for a command line can stand in a document. -/
theorem Schema.isJson_of_accepts_argument {value : Value}
    (h : argument.accepts value = true) : value.IsJson := by
  rcases accepts_argument_cases h with ⟨s, rfl⟩ | ⟨x, rfl, hx⟩ | ⟨b, rfl⟩
  · exact .text s
  · exact .number hx
  · exact .bool b

/-- A text among the arguments and flags of a command line. -/
def Value.HasTextArgument (commandLine : Value) (s : String) : Prop :=
  .text s ∈ commandLine.listMember "cli_args" ∨
    ∃ name, (name, .text s) ∈ commandLine.tableMember "cli_kwargs"

/-- Options whose environment and resources are in order. -/
structure JobOptions.IsReady (options : JobOptions) : Prop where
  environment : ∃ environment,
    Environment.validate options.environment "environment" = .ok environment
  resources : ∃ resources, options.resources.mapM ResourceRequest.create = .ok resources

/-- Fields in which zero has no sign, at any depth. -/
def JobFields.fullySettled (fields : JobFields) : JobFields :=
  { fields with
    resources := fields.resources.map ResourceSpec.settled
    arguments := fields.arguments.map Value.fullySettled
    flags := fields.flags.map fun flag => (flag.1, flag.2.fullySettled) }

/-- A job in which zero has no sign, at any depth. -/
def Job.fullySettled (job : Job) : Job :=
  { job with toJobFields := job.toJobFields.fullySettled }

theorem JobFields.reduced_eq_fullySettled {fields : JobFields}
    (harguments : ∀ value ∈ fields.arguments, value.IsJson)
    (hflags : ∀ flag ∈ fields.flags, flag.2.IsJson) : fields.reduced = fields.fullySettled := by
  have hitems : Value.serialItems fields.arguments = fields.arguments.map Value.fullySettled := by
    rw [Value.serialItems_eq_map]
    apply List.map_congr_left
    intro value hvalue
    rw [(harguments value hvalue).serial?_eq, Option.getD_some]
  have hmembers : Value.serialMembers fields.flags =
      fields.flags.map fun flag => (flag.1, flag.2.fullySettled) :=
    Value.serialMembers_eq_map fun flag hflag => (hflags flag hflag).serial?_eq
  rw [reduced, hitems, hmembers]
  rfl

namespace Job

/-! ## Jobs of manifests -/

/-- The jobs that are made from an entry of a manifest. -/
inductive IsFromManifest (description : Value) : Job → Prop
  | domain {stageDir : Option String} {base : Option (Dict Value)} {job : Job}
      (hbase : ∀ b, base = some b → IsBaseEnvironment b)
      (h : domainOfDescription description stageDir base = .ok job) :
      IsFromManifest description job
  | learning {phase : LearningPhase} {storePath : String} {job : Job}
      (h : learningOfDescription phase storePath description = .ok job) :
      IsFromManifest description job
  | networkStage {reaches : String → Bool} {destinationPath persistentStorePath creds : String}
      {resources : Option ResourceRequest} {job : Job}
      (h : networkStageOfDescription reaches description destinationPath persistentStorePath
        creds resources = .ok job) : IsFromManifest description job

section

variable {description : Value} {job : Job}

theorem IsFromManifest.isDescribed (h : job.IsFromManifest description) :
    job.IsDescribed description := by
  cases h with
  | domain _ h => exact .domain h
  | learning h => exact .learning h
  | networkStage h => exact .networkStage h

/-- The texts of an accepted list of names are not empty. -/
theorem not_mem_textsMember {minimum : Nat} {name : String}
    (h : (Schema.list (.text 1) minimum).accepts (description.member name) = true) :
    "" ∉ description.textsMember name := by
  intro hempty
  rw [Value.member_eq_texts h, Schema.accepts_list_iff] at h
  have haccepted := h.2 (.text "") (List.mem_map.mpr ⟨"", hempty, rfl⟩)
  exact Schema.accepts_text_iff.mp haccepted rfl

/-- The options that a job of a manifest is made from have ordered flags. -/
theorem IsFromManifest.exists_options (hjson : description.IsJson)
    (h : job.IsFromManifest description) :
    ∃ options : JobOptions, JobFields.create options = .ok job.toJobFields ∧
      (∀ base, options.baseEnvironment = some base → IsBaseEnvironment base) ∧
      options.flags.IsOrdered := by
  have hcli : ((description.member "cli").tableMember "cli_kwargs").IsOrdered := by
    rcases hjson.member "cli" with hmissing | hcli
    · rw [hmissing]
      exact Dict.isOrdered_nil
    · exact hcli.isOrdered_tableMember "cli_kwargs"
  cases h with
  | domain hbase h =>
      obtain ⟨_, h⟩ := Schema.accepts_of_checkValue_bind h
      exact ⟨_, (create_of_domain h).1, hbase, hcli⟩
  | learning h =>
      obtain ⟨_, h⟩ := Schema.accepts_of_checkValue_bind h
      obtain ⟨_, _, arguments, flags, _, _, hfields⟩ := create_of_learning h
      exact ⟨_, hfields, by simp [JobOptions.ofDescription], Dict.isOrdered_nil.assignAll flags⟩
  | networkStage h =>
      obtain ⟨_, h⟩ := Schema.accepts_of_checkValue_bind h
      obtain ⟨pruning, _, made, hfields, hbase, _, hflags⟩ := create_of_stage h
      refine ⟨made, hfields, by simp [hbase], ?_⟩
      rw [hflags]
      exact (hjson.isOrdered_tableMember "cli_kwargs").merge _

/-- The domains in the role of a job of a manifest have names. -/
theorem IsFromManifest.named (h : job.IsFromManifest description) :
    (∀ phase subject, job.role = .learning phase subject → subject ≠ "") ∧
      job.HasNamedDomains := by
  cases h with
  | domain _ h =>
      obtain ⟨haccepted, h⟩ := Schema.accepts_of_checkValue_bind h
      have hrole := (create_of_domain h).2
      have hnames : "" ∉ description.textsMember "domain_names" := by
        rcases Schema.accepts_member_of_table haccepted
          (Schema.required "domain_names" (.list (.text 1) 1)) (by simp) with ⟨hoptional, _⟩ | hlist
        · cases hoptional
        · exact not_mem_textsMember hlist
      refine ⟨by simp [hrole], fun names _ _ hsame => ?_⟩
      rw [hrole] at hsame
      cases hsame
      rwa [List.mem_eraseDups]
  | learning h =>
      obtain ⟨_, h⟩ := Schema.accepts_of_checkValue_bind h
      obtain ⟨hsubject, hrole, _⟩ := create_of_learning h
      refine ⟨fun _ _ hsame => ?_, by simp [HasNamedDomains, hrole]⟩
      rw [hrole] at hsame
      cases hsame
      exact hsubject
  | networkStage h =>
      obtain ⟨_, h⟩ := Schema.accepts_of_checkValue_bind h
      obtain ⟨pruning, hrole, _⟩ := create_of_stage h
      exact ⟨by simp [hrole], by simp [HasNamedDomains, hrole]⟩

/-- The table of a job of a manifest is accepted. -/
theorem IsFromManifest.isAccepted (hjson : description.IsJson)
    (h : job.IsFromManifest description) : job.IsAccepted := by
  obtain ⟨options, hfields, hbase, hoptions⟩ := h.exists_options hjson
  obtain ⟨hlearning, hnamed⟩ := h.named
  have hsetUp := isSetUp_of_create hfields hbase
  have hordered : job.flags.IsOrdered := by
    rw [(eq_of_create hfields).2]
    exact hoptions
  have harguments := h.isDescribed.accepts_argument
  have hflags := h.isDescribed.isJson_flag hjson
  have hplain : job.toJobFields.IsPlain :=
    ⟨hsetUp.environment,
      fun value hvalue => (Schema.isJson_of_accepts_argument (harguments value hvalue)).isPlain,
      .table hordered fun flag hflag => (hflags flag hflag).isPlain⟩
  exact ⟨⟨hplain, hsetUp.executable, hsetUp.resources, harguments, h.isDescribed.accepts_flag⟩,
    hlearning, hnamed⟩

/-- A job of a manifest is written, and what is read is the job with no signs of zeros. -/
theorem IsFromManifest.ofTable_written (hjson : description.IsJson)
    (h : job.IsFromManifest description) :
    ∃ text document, Json.writeTable .compact job.toTable = .ok text ∧
      Json.read? text = some document ∧ ofTable document = .ok job.fullySettled := by
  have harguments : ∀ value ∈ job.arguments, value.IsJson := fun value hvalue =>
    Schema.isJson_of_accepts_argument (h.isDescribed.accepts_argument value hvalue)
  have hreduced : job.reduced = job.fullySettled := by
    rw [reduced, JobFields.reduced_eq_fullySettled harguments (h.isDescribed.isJson_flag hjson)]
    rfl
  rw [← hreduced]
  exact (h.isAccepted hjson).ofTable_reduced

end

/-! ## What constructors refuse -/

/-- Only for a blank executable are options refused that are ready otherwise. -/
theorem exists_create_iff {options : JobOptions} (h : options.IsReady) :
    (∃ fields, JobFields.create options = .ok fields) ↔ trim options.executable ≠ "" := by
  obtain ⟨⟨environment, henvironment⟩, resources, hresources⟩ := h
  simp only [JobFields.create, henvironment, hresources]
  by_cases hblank : trim options.executable = ""
  · simp [hblank, throw, throwThe, MonadExceptOf.throw, Bind.bind, Except.bind]
  · simp [hblank, Bind.bind, Except.bind, Pure.pure, Except.pure]

/-- A domain job is made whenever its fields are. -/
theorem exists_domain_iff {options : JobOptions} {names : List String}
    {stageDir : Option String} :
    (∃ job, domain options names stageDir = .ok job) ↔
      ∃ fields, JobFields.create options = .ok fields := by
  constructor
  · rintro ⟨job, h⟩
    exact ⟨_, (create_of_domain h).1⟩
  · rintro ⟨fields, hfields⟩
    exact ⟨_, by rw [domain, hfields]; rfl⟩

/-- A learning job is made when its domain and its executable have names and its texts are
templates. -/
theorem exists_learning_iff {phase : LearningPhase} {options : JobOptions} {subject : String}
    {context : Template.Context} (hready : options.IsReady) :
    (∃ job, learning phase options subject context = .ok job) ↔
      trim subject ≠ "" ∧ trim options.executable ≠ "" ∧
        (∀ value ∈ options.arguments, ∀ s, value = .text s →
          ∃ pieces, Template.Spells pieces s.toList) ∧
        ∀ flag ∈ options.flags, ∀ s, flag.2 = .text s →
          ∃ pieces, Template.Spells pieces s.toList := by
  have henvironment := (Environment.exists_validate_iff _).mp hready.environment
  have hresources : LearningCheck.resources.Holds options subject := by
    obtain ⟨resources, h⟩ := hready.resources
    have hrun : LearningCheck.run options subject context .resources = .ok () :=
      map_eq_ok_iff.mpr ⟨resources, h, rfl⟩
    exact LearningCheck.run_eq_ok_iff.mp hrun
  rw [exists_learning_iff_holds]
  simp only [learningChecks, List.forall_mem_append, List.forall_mem_map, List.forall_mem_cons]
  constructor
  · rintro ⟨⟨⟨⟨hsubject, _⟩, harguments⟩, hflags⟩, hexecutable, _⟩
    exact ⟨hsubject, hexecutable, harguments, hflags⟩
  · rintro ⟨hsubject, hexecutable, harguments, hflags⟩
    exact ⟨⟨⟨⟨hsubject, by simp⟩, harguments⟩, hflags⟩, hexecutable, henvironment, hresources,
      by simp⟩

/-! ## What manifests are refused for -/

section

variable {description : Value} (hjson : description.IsJson)

include hjson

/-- The constructor of resources takes all that a description's schema lets pass. -/
theorem exists_create_resources {parts : List (String × Bool × Schema)} {closed : Bool}
    (h : (Schema.table parts closed).accepts description = true)
    (hpart : Schema.required "resources" ResourceSpec.schema ∈ parts) :
    ∃ spec, (ResourceRequest.ofTable (description.member "resources")).create = .ok spec := by
  rcases Schema.accepts_member_of_table h _ hpart with ⟨hoptional, _⟩ | haccepted
  · cases hoptional
  · obtain ⟨spec, hspec, _⟩ :=
      ResourceSpec.exists_ofTable (hjson.isPlain.member "resources") haccepted "resources"
    exact ⟨spec, (Schema.accepts_of_checkValue_bind hspec).2⟩

/-- The options in an accepted description are ready. -/
theorem isReady_ofDescription {parts : List (String × Bool × Schema)} {closed : Bool}
    (h : (Schema.table parts closed).accepts description = true)
    (hpart : Schema.required "resources" ResourceSpec.schema ∈ parts) :
    (JobOptions.ofDescription description).IsReady := by
  obtain ⟨spec, hspec⟩ := exists_create_resources hjson h hpart
  refine ⟨⟨[], rfl⟩, some spec, ?_⟩
  rw [JobOptions.ofDescription, Option.mapM_some, hspec]
  rfl

/-- A domain job is made of an accepted description unless its executable is blank. -/
theorem exists_domainOfDescription_iff
    (h : Schema.domainDescription.accepts description = true) (stageDir : Option String)
    (base : Option (Dict Value)) :
    (∃ job, domainOfDescription description stageDir base = .ok job) ↔
      trim ((description.member "cli").textMember "executable") ≠ "" := by
  have hready := isReady_ofDescription hjson h (by simp)
  rw [domainOfDescription, Schema.checkValue_bind h]
  exact exists_domain_iff.trans (exists_create_iff ⟨hready.environment, hready.resources⟩)

/-- A learning job is made of an accepted description unless a name is blank or a text is no
template. -/
theorem exists_learningOfDescription_iff
    (h : Schema.learningDescription.accepts description = true) (phase : LearningPhase)
    (storePath : String) :
    (∃ job, learningOfDescription phase storePath description = .ok job) ↔
      trim (description.textMember "domain_name") ≠ "" ∧
        trim ((description.member "cli").textMember "executable") ≠ "" ∧
        ∀ s, (description.member "cli").HasTextArgument s →
          ∃ pieces, Template.Spells pieces s.toList := by
  have hready := isReady_ofDescription hjson h (by simp)
  rw [learningOfDescription, Schema.checkValue_bind h]
  refine (exists_learning_iff ⟨⟨[], rfl⟩, hready.resources⟩).trans
    (and_congr Iff.rfl (and_congr Iff.rfl ?_))
  constructor
  · rintro ⟨harguments, hflags⟩ s (hargument | ⟨name, hflag⟩)
    · exact harguments _ hargument s rfl
    · exact hflags _ hflag s rfl
  · intro htexts
    refine ⟨fun value hvalue s hs => ?_, fun flag hflag s hs => ?_⟩
    · subst hs
      exact htexts s (Or.inl hvalue)
    · obtain ⟨name, value⟩ := flag
      obtain rfl : value = .text s := hs
      exact htexts s (Or.inr ⟨name, hflag⟩)

/--
Every job that is made from an entry of a manifest is taken back from its document, with no
signs of zeros.  A domain job is made of every entry that its schema accepts, unless the
executable is blank.  A learning job is made of every such entry, unless the domain or the
executable is blank or a text on the command line is no template.  The resources of all
accepted entries are taken.
-/
theorem manifest_cases :
    (∀ job, IsFromManifest description job →
      ∃ text document, Json.writeTable .compact job.toTable = .ok text ∧
        Json.read? text = some document ∧ ofTable document = .ok job.fullySettled) ∧
    (Schema.domainDescription.accepts description = true → ∀ stageDir base,
      (∃ job, domainOfDescription description stageDir base = .ok job) ↔
        trim ((description.member "cli").textMember "executable") ≠ "") ∧
    (Schema.learningDescription.accepts description = true → ∀ phase storePath,
      (∃ job, learningOfDescription phase storePath description = .ok job) ↔
        trim (description.textMember "domain_name") ≠ "" ∧
          trim ((description.member "cli").textMember "executable") ≠ "" ∧
          ∀ s, (description.member "cli").HasTextArgument s →
            ∃ pieces, Template.Spells pieces s.toList) ∧
    (Schema.domainDescription.accepts description = true ∨
        Schema.learningDescription.accepts description = true →
      ∃ spec, (ResourceRequest.ofTable (description.member "resources")).create = .ok spec) := by
  refine ⟨fun job h => h.ofTable_written hjson, exists_domainOfDescription_iff hjson,
    exists_learningOfDescription_iff hjson, ?_⟩
  rintro (h | h)
  · exact exists_create_resources hjson h (by simp)
  · exact exists_create_resources hjson h (by simp)

end

/-- A description of a domain job with signed zeros, one of them under a key that is not checked. -/
def descriptionWithZeros : Value :=
  .table [("name", .text "md"), ("domain_names", .list [.text "a"]),
    ("resources", .table [("nodes", .number 1), ("tasks_per_node", .number 1)]),
    ("cli", .table [("executable", .text " app "),
      ("cli_kwargs", .table [("--\n", .list [.null, .number (.finite true .zero)]),
        ("--rate", .number (.finite true .zero))])])]

theorem isJson_descriptionWithZeros : descriptionWithZeros.IsJson := by
  have hone : (Value.number 1).IsJson := .number (by decide +kernel)
  have hzero : (Value.number (.finite true .zero)).IsJson := .number rfl
  have hlist : (Value.list [.null, .number (.finite true .zero)]).IsJson :=
    .list (by simpa using ⟨Value.IsJson.null, hzero⟩)
  refine .table (by decide) ?_
  simp only [List.forall_mem_cons, List.not_mem_nil, false_implies, implies_true, and_true]
  refine ⟨.text _, .list (by simpa using Value.IsJson.text "a"), .table (by decide) ?_,
    .table (by decide) ?_⟩
  · simpa using hone
  · simp only [List.forall_mem_cons, List.not_mem_nil, false_implies, implies_true, and_true]
    refine ⟨.text _, .table (by decide) ?_⟩
    simpa using ⟨hlist, hzero⟩

theorem manifest_cases_zeros :
    descriptionWithZeros.IsJson ∧ ∃ job text document,
      domainOfDescription descriptionWithZeros none none = .ok job ∧
      Json.writeTable .compact job.toTable = .ok text ∧ Json.read? text = some document ∧
      ofTable document = .ok job.fullySettled ∧
      job.fullySettled.flags = [("--\n", .list [.null, .number (.finite false .zero)]),
        ("--rate", .number (.finite false .zero))] := by
  have hjson := isJson_descriptionWithZeros
  obtain ⟨hwritten, hdomain, _⟩ := manifest_cases hjson
  have haccepted : Schema.domainDescription.accepts descriptionWithZeros = true := by
    decide +kernel
  have hexecutable :
      trim ((descriptionWithZeros.member "cli").textMember "executable") ≠ "" := by
    decide +kernel
  obtain ⟨job, hjob⟩ := (hdomain haccepted none none).mpr hexecutable
  obtain ⟨text, document, htext, hread, htaken⟩ := hwritten job (.domain (by simp) hjob)
  refine ⟨hjson, job, text, document, hjob, htext, hread, htaken, ?_⟩
  rw [domainOfDescription, Schema.checkValue_bind haccepted] at hjob
  have hflags := (eq_of_create (create_of_domain hjob).1).2
  rw [fullySettled, JobFields.fullySettled, hflags]
  rfl

end Job

end Dispatch
