import Dispatch.Proofs.Deployment
import Dispatch.Proofs.Job.Building

/-!
# What a submission that fails leaves behind

Preparing a submission deploys the job first and puts its command together after
that.  Only the resources are looked at before, so a domain job with an argument that
is not finite is deployed and fails then: an artifact and a changed job are left.

`prepare_error_leaves_nothing_iff` says that this is the only such case.
-/

namespace Dispatch

/-- All numbers on the command line are finite. -/
structure JobFields.HasFiniteNumbers (fields : JobFields) : Prop where
  arguments : ∀ x, .number x ∈ fields.arguments → x.isFinite = true
  flags : ∀ name x, (name, .number x) ∈ fields.flags → x.isFinite = true

/-- The same files with the same content are in both trees. -/
def FileTree.SameFiles (tree tree' : FileTree) : Prop :=
  ∀ path bytes, tree'.get? path = some (.file bytes) ↔ tree.get? path = some (.file bytes)

/-! ## Commands -/

namespace Command

theorem argument_eq_ok_iff {value : Value} (h : value.IsArgument) :
    (∃ word, argument value = .ok word) ↔ ∀ x, value = .number x → x.isFinite = true := by
  cases h with
  | text s => exact ⟨fun _ => by simp, fun _ => ⟨s, rfl⟩⟩
  | bool b => exact ⟨fun _ => by simp, fun _ => ⟨_, rfl⟩⟩
  | number x =>
      rw [argument]
      cases hx : x.isFinite with
      | true => simp [hx]
      | false => simp [hx]

theorem flag_eq_ok_iff {entry : String × Value} :
    (∃ words, flag entry = .ok words) ↔ ∃ word, argument entry.2 = .ok word := by
  constructor
  · rintro ⟨words, h⟩
    obtain ⟨word, hword, _⟩ := exists_of_bind_eq_ok h
    exact ⟨word, hword⟩
  · rintro ⟨word, hword⟩
    exact ⟨[entry.1, word], by rw [flag, hword]; rfl⟩

/-- A command can be put together when all its arguments are words. -/
theorem build_eq_ok_iff {executable : String} {positional : List Value} {flags : Dict Value} :
    (∃ command, build executable positional flags = .ok command) ↔
      (∀ entry ∈ flags, ∃ word, argument entry.2 = .ok word) ∧
        ∀ value ∈ positional, ∃ word, argument value = .ok word := by
  simp only [← flag_eq_ok_iff]
  rw [← mapM_eq_ok_iff, ← mapM_eq_ok_iff]
  constructor
  · rintro ⟨command, h⟩
    obtain ⟨words, hwords, h⟩ := exists_of_bind_eq_ok h
    obtain ⟨more, hmore, _⟩ := exists_of_bind_eq_ok h
    exact ⟨⟨words, hwords⟩, more, hmore⟩
  · rintro ⟨⟨words, hwords⟩, more, hmore⟩
    exact ⟨_, by rw [build, hwords, hmore]; rfl⟩

end Command

namespace JobFields

theorem command_eq_ok_iff {fields : JobFields} (h : fields.IsSound) :
    (∃ command, fields.command = .ok command) ↔ fields.HasFiniteNumbers := by
  rw [command, Command.build_eq_ok_iff]
  constructor
  · rintro ⟨hflags, harguments⟩
    constructor
    · intro x hx
      exact (Command.argument_eq_ok_iff (.number x)).mp (harguments _ hx) x rfl
    · intro name x hx
      exact (Command.argument_eq_ok_iff (.number x)).mp (hflags _ hx) x rfl
  · rintro ⟨harguments, hflags⟩
    constructor
    · intro entry hentry
      apply (Command.argument_eq_ok_iff (h.flags.values entry hentry)).mpr
      intro x hx
      exact hflags entry.1 x (by rw [← hx]; exact hentry)
    · intro value hvalue
      apply (Command.argument_eq_ok_iff (h.arguments value hvalue)).mpr
      intro x hx
      exact harguments x (by rw [← hx]; exact hvalue)

/-- A job with resources has a submission exactly when it has a command. -/
theorem submission_eq_ok_iff {fields : JobFields} (h : fields.resources.isSome = true)
    (config : Config) (cwd : String) :
    (∃ submission, fields.submission config cwd = .ok submission) ↔
      ∃ command, fields.command = .ok command := by
  obtain ⟨resources, hresources⟩ := Option.isSome_iff_exists.mp h
  constructor
  · rintro ⟨submission, hsubmission⟩
    rw [JobFields.submission, hresources] at hsubmission
    obtain ⟨command, hcommand, _⟩ := exists_of_bind_eq_ok hsubmission
    exact ⟨command, hcommand⟩
  · rintro ⟨command, hcommand⟩
    simp only [JobFields.submission, hresources, hcommand]
    exact ⟨_, rfl⟩

end JobFields

namespace Job

/-! ## Deployments of any job -/

theorem IsSound.withObjects {job : Job} (h : job.IsSound) (path : String) :
    (job.withObjects path).IsSound where
  fields := by
    refine ⟨h.fields.executable, ?_, h.fields.resources, h.fields.arguments, h.fields.flags⟩
    have hobjects := h.fields.environment.insert "AMS_OBJECTS" path
    simp only [Job.withObjects]
    split
    · exact hobjects.insert "AMS_LOG_LEVEL" "debug"
    · exact hobjects
  learning := by
    intro phase subject hrole
    simp only [Job.withObjects] at hrole
    split at hrole
    next => cases hrole
    next => exact h.learning phase subject hrole

/-- A deployment answers a path and points the job there, or it changes nothing. -/
theorem deploy_eq_ok {σ : Type} {store : DataStore σ} {broker : Option Broker} {config : Config}
    {world world' : World σ} {job job' : Job} {path : Option String}
    (h : deploy store broker config (world, job) = (.ok path, (world', job'))) :
    (path = none ∧ world' = world ∧ job' = job ∧
        ∀ names stageDir objectsPath, job.role ≠ .domain names stageDir objectsPath) ∨
      ∃ names stageDir objectsPath target, job.role = .domain names stageDir objectsPath ∧
        path = some target ∧ deployDomains names stageDir store broker config (world, job) =
          (.ok target, (world', job')) := by
  rcases deploy_cases store broker config world job with
    ⟨hrole, hrun⟩ | ⟨names, stageDir, objectsPath, result, state, hrole, hdomains, hrun⟩
  · rw [hrun] at h
    cases h
    exact Or.inl ⟨rfl, rfl, rfl, hrole⟩
  · rw [hrun] at h
    cases result with
    | error failure => cases h
    | ok target =>
        cases h
        exact Or.inr ⟨names, stageDir, objectsPath, target, hrole, rfl, hdomains⟩

/-- A deployment that succeeds points the job at the file that it answers. -/
theorem withObjects_of_deployDomains {σ : Type} {names : List String} {stageDir : Option String}
    {store : DataStore σ} {broker : Option Broker} {config : Config} {world world' : World σ}
    {job job' : Job} {path : String}
    (h : deployDomains names stageDir store broker config (world, job) =
      (.ok path, (world', job'))) : job' = job.withObjects path := by
  simp only [deployDomains, Operation.bind_eq_ok_iff, Prod.exists,
    JobAction.ofAction_eq_ok_iff] at h
  obtain ⟨_, _, _, ⟨_, rfl⟩, _, _, _, ⟨_, rfl⟩, _, _, _, ⟨_, rfl⟩, _, _, _, ⟨_, rfl⟩, _, _, _,
    ⟨_, rfl⟩, _, _, _, hjob, h⟩ := h
  cases h
  cases hjob
  rfl

theorem IsSound.of_deploy {σ : Type} {store : DataStore σ} {broker : Option Broker}
    {config : Config} {world world' : World σ} {job job' : Job} {path : Option String}
    (h : job.IsSound)
    (hdeploy : deploy store broker config (world, job) = (.ok path, (world', job'))) :
    job'.IsSound := by
  rcases deploy_eq_ok hdeploy with ⟨_, _, rfl, _⟩ | ⟨_, _, _, target, _, _, hdomains⟩
  · exact h
  · rw [withObjects_of_deployDomains hdomains]
    exact h.withObjects target

/-- Every job that can be reached is sound. -/
theorem IsReachable.isSound {job : Job} (h : job.IsReachable) : job.IsSound := by
  induction h with
  | built h => exact h.isSound
  | deployed _ hdeploy ih => exact ih.of_deploy hdeploy

section

variable {store : LedgerStore} {broker : Option Broker} {config : Config} {cwd : String}
  {world world' : World Devices} {job job' : Job} {failure : Failure}

/-- A deployment that fails leaves the files and the job as they were. -/
theorem deploy_error
    (h : deploy store.toDataStore broker config (world, job) = (.error failure, (world', job'))) :
    world.tree.SameFiles world'.tree ∧ job' = job := by
  rcases deploy_cases store.toDataStore broker config world job with
    ⟨_, hrun⟩ | ⟨names, stageDir, objectsPath, result, state, _, hdomains, hrun⟩
  · rw [hrun] at h
    cases h
  · rw [hrun] at h
    cases result with
    | ok target => cases h
    | error failure' =>
        cases h
        obtain ⟨hsame | ⟨_, hmakes⟩, rfl⟩ := deployDomains_error hdomains
        · rw [hsame]
          exact ⟨fun path bytes => Iff.rfl, rfl⟩
        · have hadds := FileTree.addsDirectories_of_makeDirectory hmakes
          exact ⟨fun path bytes => hadds.file_iff, rfl⟩

/-- A deployment that answers a path has added a file. -/
theorem not_sameFiles_of_deploy {path : String}
    (h : deploy store.toDataStore broker config (world, job) =
      (.ok (some path), (world', job'))) : ¬world.tree.SameFiles world'.tree := by
  intro hsame
  rcases deploy_eq_ok h with ⟨hnone, _⟩ | ⟨_, _, _, target, _, _, hdomains⟩
  · cases hnone
  · obtain ⟨made, place, _, text, _, _, _, hmakes, _, hne, hnone, htree, _⟩ :=
      deployDomains_eq_ok hdomains
    have hfile : world'.tree.get? place = some (.file (Utf8.encode text)) := by
      rw [htree, FileTree.get?_put made place _ place hne, if_pos rfl]
    have hadds := FileTree.addsDirectories_of_makeDirectory hmakes
    have hbefore := hadds.get?_eq ((hsame place _).mp hfile)
    rw [hnone] at hbefore
    cases hbefore

/-! ## Preparing a submission -/

theorem prepare_of_none (h : job.resources = none) :
    prepare store.toDataStore broker config cwd (world, job) =
      (.error (.noResources job.name), (world, job)) := by
  have hjob : (JobAction.job : JobAction Devices Job) (world, job) =
      (.ok job, (world, job)) := rfl
  rw [prepare, Operation.bind_of_ok hjob, h]
  rfl

theorem prepare_of_isSome (h : job.resources.isSome = true) :
    prepare store.toDataStore broker config cwd (world, job) =
      match deploy store.toDataStore broker config (world, job) with
      | (.ok _, (world', job')) => (job'.submission config cwd, (world', job'))
      | (.error failure, state) => (.error failure, state) := by
  have hjob (world : World Devices) (job : Job) :
      (JobAction.job : JobAction Devices Job) (world, job) = (.ok job, (world, job)) := rfl
  have hnone : job.resources.isNone = false := by
    rw [Option.isNone_eq_false_iff]
    exact h
  rw [prepare, Operation.bind_of_ok (hjob world job)]
  simp only [hnone]
  rw [if_neg Bool.false_ne_true, discard, map_const, Function.comp_apply, map_eq_pure_bind]
  rcases hdeploy : deploy store.toDataStore broker config (world, job) with
    ⟨failure | path, world', job'⟩
  · exact Operation.bind_of_error (Operation.bind_of_error hdeploy)
  · have hdone : (deploy store.toDataStore broker config >>= fun _ => pure PUnit.unit)
        (world, job) = (.ok PUnit.unit, (world', job')) := Operation.bind_of_ok hdeploy
    rw [Operation.bind_of_ok hdone, Operation.bind_of_ok (hjob world' job')]
    rfl

/-- After its deployment a job with resources has a submission when its numbers are finite. -/
theorem submission_of_deploy {path : Option String} (hjob : job.IsSound)
    (hresources : job.resources.isSome = true)
    (hdeploy : deploy store.toDataStore broker config (world, job) =
      (.ok path, (world', job'))) (cwd : String) :
    (∃ submission, job'.submission config cwd = .ok submission) ↔ job.HasFiniteNumbers := by
  have hsound := hjob.of_deploy hdeploy
  have hsame : job'.resources = job.resources ∧ job'.arguments = job.arguments ∧
      job'.flags = job.flags := by
    rcases deploy_eq_ok hdeploy with ⟨_, _, rfl, _⟩ | ⟨_, _, _, target, _, _, hdomains⟩
    · exact ⟨rfl, rfl, rfl⟩
    · rw [withObjects_of_deployDomains hdomains]
      exact ⟨rfl, rfl, rfl⟩
  obtain ⟨hspec, harguments, hflags⟩ := hsame
  rw [JobFields.submission_eq_ok_iff (by rw [hspec]; exact hresources),
    JobFields.command_eq_ok_iff hsound.fields]
  constructor
  · intro hfinite
    exact ⟨harguments ▸ hfinite.arguments, hflags ▸ hfinite.flags⟩
  · intro hfinite
    exact ⟨harguments ▸ hfinite.arguments, hflags ▸ hfinite.flags⟩

/-- With a number that is not finite the submission fails after the deployment. -/
theorem prepare_error_of_deploy {path : Option String} (hjob : job.IsSound)
    (hresources : job.resources.isSome = true)
    (hdeploy : deploy store.toDataStore broker config (world, job) =
      (.ok path, (world', job'))) (hinfinite : ¬job.HasFiniteNumbers) (cwd : String) :
    ∃ failure, prepare store.toDataStore broker config cwd (world, job) =
      (.error failure, (world', job')) := by
  have hsubmission := submission_of_deploy hjob hresources hdeploy cwd
  cases hresult : job'.submission config cwd with
  | ok submission => exact absurd (hsubmission.mp ⟨submission, hresult⟩) hinfinite
  | error failure =>
      refine ⟨failure, ?_⟩
      rw [prepare_of_isSome hresources, hdeploy]
      simp only [hresult]

/--
A submission that fails leaves the files and the job as they were, unless the job has
resources, is deployed to a file, and has a number on its command line that is not finite.
-/
theorem prepare_error_leaves_nothing_iff (store : LedgerStore) (broker : Option Broker)
    (config : Config) (cwd : String) (world : World Devices) {job : Job}
    (hjob : job.IsReachable) :
    (∀ failure world' job',
        prepare store.toDataStore broker config cwd (world, job) =
          (.error failure, (world', job')) →
        world.tree.SameFiles world'.tree ∧ job' = job) ↔
      ¬(job.resources.isSome = true ∧
        (∃ path state, deploy store.toDataStore broker config (world, job) =
          (.ok (some path), state)) ∧
        ¬job.HasFiniteNumbers) := by
  constructor
  · rintro hlaw ⟨hresources, ⟨path, ⟨world', job'⟩, hdeploy⟩, hinfinite⟩
    obtain ⟨failure, hprepare⟩ :=
      prepare_error_of_deploy hjob.isSound hresources hdeploy hinfinite cwd
    exact not_sameFiles_of_deploy hdeploy (hlaw failure world' job' hprepare).1
  · intro hcondition failure world' job' h
    cases hresources : job.resources with
    | none =>
        rw [prepare_of_none hresources] at h
        cases h
        exact ⟨fun path bytes => Iff.rfl, rfl⟩
    | some spec =>
        have hsome : job.resources.isSome = true := by rw [hresources, Option.isSome_some]
        rw [prepare_of_isSome hsome] at h
        rcases hdeploy : deploy store.toDataStore broker config (world, job) with
          ⟨failure' | path, world'', job''⟩
        · rw [hdeploy] at h
          cases h
          exact deploy_error hdeploy
        · rw [hdeploy] at h
          obtain ⟨hresult, hstate⟩ := Prod.mk.inj h
          obtain ⟨rfl, rfl⟩ := Prod.mk.inj hstate
          have hinfinite : ¬job.HasFiniteNumbers := by
            intro hfinite
            obtain ⟨submission, hsubmission⟩ :=
              (submission_of_deploy hjob.isSound hsome hdeploy cwd).mpr hfinite
            rw [hresult] at hsubmission
            cases hsubmission
          rcases deploy_eq_ok hdeploy with ⟨_, rfl, rfl, _⟩ | ⟨_, _, _, target, _, rfl, _⟩
          · exact ⟨fun path bytes => Iff.rfl, rfl⟩
          · exact absurd ⟨hsome, ⟨target, _, hdeploy⟩, hinfinite⟩ hcondition

end

/-! ## A job that leaves something behind -/

/-- The options of a job on one node with a number on its command line. -/
def optionsWithNumber (x : Number) : JobOptions where
  name := "md"
  executable := "app"
  resources := some { nodes := .number 1, tasksPerNode := .number 1 }
  arguments := [.number x]

/-- A domain job on one node with a number on its command line. -/
def withNumber (x : Number) : Job where
  name := "md"
  executable := "app"
  environment := []
  resources := some ⟨1, 1, 1, true, 0⟩
  stdout := none
  stderr := none
  arguments := [.number x]
  flags := []
  isMpi := false
  amsLog := false
  role := .domain ["a"] none none

theorem domain_optionsWithNumber (x : Number) :
    Job.domain (optionsWithNumber x) ["a"] none = .ok (withNumber x) := by
  have hone (field : String) : readCount (.number 1) field 1 = .ok 1 := by
    rw [readCount, if_pos (by decide +kernel)]
  have hzero (field : String) : readCount (.number 0) field 0 = .ok 0 := by
    rw [readCount, if_pos (by decide +kernel)]
  have hcreate : ResourceRequest.create { nodes := .number 1, tasksPerNode := .number 1 } =
      .ok ⟨1, 1, 1, true, 0⟩ := by
    simp only [ResourceRequest.create, hone, Value.present?, Option.getD_none, hzero]
    rfl
  have hname : trim "md" = "md" := by decide
  have hexecutable : trim "app" = "app" := by decide
  have hnames : ["a"].eraseDups = ["a"] := by decide
  rw [Job.domain, JobFields.create, optionsWithNumber]
  simp only [hname, hexecutable, Option.mapM_some, hcreate, hnames]
  rfl

theorem isBuilt_withNumber (x : Number) : (withNumber x).IsBuilt := by
  refine .domain ⟨?_, ⟨Dict.isOrdered_nil, ?_⟩, ?_⟩ (domain_optionsWithNumber x)
  · intro value hvalue
    rw [List.mem_singleton.mp hvalue]
    exact .number x
  · intro flag hflag
    cases hflag
  · intro base hbase
    cases hbase

theorem prepare_error_leaves_nothing_iff_nan :
    (withNumber .nan).IsReachable ∧
      ((∀ failure world' job',
          prepare (⟨["store"]⟩ : LedgerStore).toDataStore none {} "/" (.fresh, withNumber .nan) =
            (.error failure, (world', job')) →
          World.fresh.tree.SameFiles world'.tree ∧ job' = withNumber .nan) ↔
        ¬((withNumber .nan).resources.isSome = true ∧
          (∃ path state, deploy (⟨["store"]⟩ : LedgerStore).toDataStore none {}
            (.fresh, withNumber .nan) = (.ok (some path), state)) ∧
          ¬(withNumber .nan).HasFiniteNumbers)) :=
  have hjob := IsReachable.built (isBuilt_withNumber .nan)
  ⟨hjob, prepare_error_leaves_nothing_iff _ _ _ _ _ hjob⟩

/-- A submission can fail and leave a file behind. -/
theorem not_forall_prepare_error_leaves_nothing :
    ¬∀ (store : LedgerStore) (broker : Option Broker) (config : Config) (cwd : String)
      (world world' : World Devices) (job job' : Job) (failure : Failure), job.IsBuilt →
      prepare store.toDataStore broker config cwd (world, job) =
        (.error failure, (world', job')) →
      world.tree.SameFiles world'.tree ∧ job' = job := by
  intro h
  have hbuilt := isBuilt_withNumber .nan
  have hinfinite : ¬(withNumber .nan).HasFiniteNumbers := by
    intro hfinite
    have hnan := hfinite.arguments .nan (List.mem_singleton.mpr rfl)
    cases hnan
  obtain ⟨path, ⟨world', job'⟩, hdeploy⟩ : ∃ path state,
      deploy (⟨["store"]⟩ : LedgerStore).toDataStore none {} (.fresh, withNumber .nan) =
        (.ok path, state) :=
    Operation.exists_of_isOk (by decide +kernel)
  obtain ⟨failure, hprepare⟩ := prepare_error_of_deploy hbuilt.isSound rfl hdeploy hinfinite "/"
  have hsame := (h _ _ _ _ _ _ _ _ _ hbuilt hprepare).1
  rcases deploy_eq_ok hdeploy with ⟨_, _, _, hrole⟩ | ⟨_, _, _, target, _, rfl, _⟩
  · exact absurd rfl (hrole ["a"] none none)
  · exact not_sameFiles_of_deploy hdeploy hsame

end Job

end Dispatch
