import Dispatch.Deployment.Basic
import Dispatch.Proofs.Containment
import Dispatch.Proofs.Store.LedgerStore

/-!
# What deployments change

A deployment looks up models, makes a directory, and writes one new file; only then
does the job change.  So a deployment that fails changes neither files nor the job,
and one that succeeds adds one file where nothing was.
-/

namespace Dispatch

namespace JobAction

variable {σ α : Type} {action : Action σ α} {world world' : World σ} {job job' : Job}

theorem ofAction_of_run {result : Except Failure α} (h : action world = (result, world'))
    (job : Job) : ofAction action (world, job) = (result, (world', job)) := by
  simp only [ofAction, h]

theorem ofAction_eq_ok_iff {a : α} :
    ofAction action (world, job) = (.ok a, (world', job')) ↔
      action world = (.ok a, world') ∧ job' = job := by
  rcases haction : action world with ⟨result, world''⟩
  rw [ofAction_of_run haction]
  constructor
  · intro h
    cases h
    exact ⟨rfl, rfl⟩
  · rintro ⟨h, rfl⟩
    cases h
    rfl

theorem ofAction_eq_error_iff {failure : Failure} :
    ofAction action (world, job) = (.error failure, (world', job')) ↔
      action world = (.error failure, world') ∧ job' = job := by
  rcases haction : action world with ⟨result, world''⟩
  rw [ofAction_of_run haction]
  constructor
  · intro h
    cases h
    exact ⟨rfl, rfl⟩
  · rintro ⟨h, rfl⟩
    cases h
    rfl

/-- An action with a job operation after it fails on its own, or that fails after it. -/
theorem ofAction_bind_eq_error {β : Type} {next : α → JobAction σ β} {failure : Failure}
    (h : (ofAction action >>= next) (world, job) = (.error failure, (world', job'))) :
    (action world = (.error failure, world') ∧ job' = job) ∨
      ∃ a between, action world = (.ok a, between) ∧
        next a (between, job) = (.error failure, (world', job')) := by
  rcases Operation.bind_eq_error_iff.mp h with hfirst | ⟨a, ⟨between, _⟩, hfirst, hnext⟩
  · exact Or.inl (ofAction_eq_error_iff.mp hfirst)
  · obtain ⟨haction, rfl⟩ := ofAction_eq_ok_iff.mp hfirst
    exact Or.inr ⟨a, between, haction, hnext⟩

/-- An operation that leaves the job alone leads where its action does. -/
theorem leads_ofAction {related : World σ → World σ → Prop}
    (h : Operation.Leads related action) :
    Operation.Leads (fun state state' => related state.1 state'.1) (ofAction action) :=
  fun state => h state.1

theorem failsOnly_ofAction {p : Failure → Prop}
    (h : Operation.FailsOnly p action) : Operation.FailsOnly p (ofAction action) :=
  fun state => h state.1

end JobAction

/-! ## Looking up models -/

theorem keeps_choose (store : LedgerStore) (broker : Option Broker) (stageDir : Option String) :
    Operation.Keeps (SampleTarget.choose store.toDataStore broker stageDir) := by
  cases broker with
  | some broker => exact (Action.keeps_ofExcept _).bind fun _ => Operation.keeps_pure _
  | none =>
      cases stageDir with
      | some directory => exact Operation.keeps_pure _
      | none => exact (Operation.keeps_pure _).bind fun _ => Operation.keeps_pure _

theorem keeps_search (store : LedgerStore) (subject : String) (entry : StoreEntry)
    (version : StoreVersion) :
    Operation.Keeps (store.search subject entry version : Action Devices (List Value)) := by
  intro world
  rw [LedgerStore.search_apply]

theorem keeps_build (store : LedgerStore) (broker : Option Broker) (names : List String)
    (stageDir : Option String) :
    Operation.Keeps (ModelObjects.build store.toDataStore broker names stageDir) := by
  apply (keeps_choose store broker stageDir).bind
  intro target
  refine (Operation.keeps_mapM (fun subject => ?_) names).bind fun entries =>
    Operation.keeps_pure _
  exact (keeps_search store subject .models .latest).bind fun records =>
    Action.keeps_ofExcept _

/-! ## Files -/

namespace LedgerStore

variable {store : LedgerStore} {directory : String} {world world' : World Devices}

/-- Creating a directory in a store makes it at the root or below. -/
theorem makeDirectory_eq_ok {path : String}
    (h : store.makeDirectory directory world = (.ok path, world')) :
    store.root <+: Path.resolveFrom store.root directory ∧
      ∃ tree, world.tree.makeDirectory (Path.resolveFrom store.root directory) = .ok tree ∧
        path = Path.ofComponents (Path.resolveFrom store.root directory) ∧
        world' = { world with tree := tree } := by
  simp only [makeDirectory] at h
  split at h
  next hbelow =>
    obtain ⟨done, made, hmade, h⟩ := Operation.bind_eq_ok_iff.mp h
    obtain ⟨tree, htree, rfl⟩ := Action.onTree_eq_ok_iff.mp hmade
    cases h
    exact ⟨Path.prefix_of_staysBelow_relative hbelow, tree, htree, rfl, rfl⟩
  next => cases h

theorem eq_of_makeDirectory_error {failure : Failure}
    (h : store.makeDirectory directory world = (.error failure, world')) : world' = world := by
  simp only [makeDirectory] at h
  split at h
  next =>
    rcases Operation.bind_eq_error_iff.mp h with hmade | ⟨done, made, _, h⟩
    · exact Action.eq_of_onTree_error hmade
    · cases h
  next =>
    cases h
    rfl

end LedgerStore

/-- A fresh file name is one of a time and random digits, and no file is touched for it. -/
theorem uniqueFilename_eq_ok {name : String} {world world' : World Devices}
    (h : LedgerStore.uniqueFilename world = (.ok name, world')) :
    ∃ reading bits, name = stampedName reading bits ∧ world'.tree = world.tree ∧
      world'.workingDirectory = world.workingDirectory := by
  cases h
  exact ⟨_, _, rfl, rfl, rfl⟩

/-- A new text is written to a new file. -/
theorem Action.writeNewText_eq_ok {σ : Type} {path text : String} {world world' : World σ}
    {done : Unit} (h : Action.writeNewText path text world = (.ok done, world')) :
    ∃ place, world.tree.locateText world.workingDirectory path = .ok place ∧ place ≠ [] ∧
      world.tree.get? place = none ∧
      world' = { world with tree := world.tree.put place (.file (Utf8.encode text)) } := by
  obtain ⟨tree, htree, rfl⟩ := Action.onTree_eq_ok_iff.mp h
  obtain ⟨place, hplace, hwritten⟩ := exists_of_bind_eq_ok htree
  obtain ⟨hne, hnone, rfl⟩ := FileTree.put_of_writeNew hwritten
  exact ⟨place, hplace, hne, hnone, rfl⟩

/-! ## Deployments -/

namespace Job

variable {store : LedgerStore} {broker : Option Broker} {config : Config} {names : List String}
  {stageDir : Option String} {world world' : World Devices} {job job' : Job}

/--
A deployment that succeeds has made a directory, written the objects to one new file and
changed the job.
-/
theorem deployDomains_eq_ok {path : String}
    (h : deployDomains names stageDir store.toDataStore broker config (world, job) =
      (.ok path, (world', job'))) :
    ∃ made place objects text,
      ModelObjects.build store.toDataStore broker names stageDir world = (.ok objects, world) ∧
      Json.writeTable .compact objects.toTable = .ok text ∧
      store.root <+: Path.resolveFrom store.root config.artifactDir ∧
      world.tree.makeDirectory (Path.resolveFrom store.root config.artifactDir) = .ok made ∧
      made.locateText world.workingDirectory path = .ok place ∧ place ≠ [] ∧
      made.get? place = none ∧ world'.tree = made.put place (.file (Utf8.encode text)) ∧
      (∃ reading bits, path = Path.join
        (Path.ofComponents (Path.resolveFrom store.root config.artifactDir))
        (stampedName reading bits ++ ".json")) ∧
      job' = job.withObjects path := by
  simp only [deployDomains, Operation.bind_eq_ok_iff, Prod.exists,
    JobAction.ofAction_eq_ok_iff] at h
  obtain ⟨objects, world₁, _, ⟨hbuild, rfl⟩, directory, world₂, _, ⟨hmade, rfl⟩, name, world₃, _,
    ⟨hname, rfl⟩, text, world₄, _, ⟨htext, rfl⟩, done, world₅, _, ⟨hwritten, rfl⟩, done', world₆, _,
    hjob, h⟩ := h
  cases h
  cases hjob
  obtain ⟨hdocument, rfl⟩ := Action.ofExcept_eq_ok_iff.mp htext
  obtain ⟨reading, bits, rfl, htree, hdirectory⟩ := uniqueFilename_eq_ok hname
  have hsame := (keeps_build store broker names stageDir).eq_of_run hbuild
  subst hsame
  obtain ⟨hbelow, made, hmakes, rfl, rfl⟩ := LedgerStore.makeDirectory_eq_ok hmade
  obtain ⟨place, hplace, hne, hnone, rfl⟩ := Action.writeNewText_eq_ok hwritten
  rw [htree] at hplace hnone
  rw [hdirectory] at hplace
  exact ⟨made, place, objects, text, hbuild, hdocument, hbelow, hmakes, hplace, hne, hnone,
    by rw [htree], ⟨reading, bits, rfl⟩, rfl⟩

/-- A deployment that fails leaves the job as it was, and has at most made the directory. -/
theorem deployDomains_error {failure : Failure}
    (h : deployDomains names stageDir store.toDataStore broker config (world, job) =
      (.error failure, (world', job'))) :
    (world'.tree = world.tree ∨
      store.root <+: Path.resolveFrom store.root config.artifactDir ∧
        world.tree.makeDirectory (Path.resolveFrom store.root config.artifactDir) =
          .ok world'.tree) ∧ job' = job := by
  rcases JobAction.ofAction_bind_eq_error h with ⟨hbuilt, rfl⟩ | ⟨objects, world₁, hbuilt, h₁⟩
  · rw [(keeps_build store broker names stageDir).eq_of_run hbuilt]
    exact ⟨Or.inl rfl, rfl⟩
  have hsame := (keeps_build store broker names stageDir).eq_of_run hbuilt
  subst hsame
  rcases JobAction.ofAction_bind_eq_error h₁ with ⟨hmade, rfl⟩ | ⟨directory, world₂, hmade, h₂⟩
  · rw [LedgerStore.eq_of_makeDirectory_error hmade]
    exact ⟨Or.inl rfl, rfl⟩
  obtain ⟨hbelow, made, hmakes, rfl, rfl⟩ := LedgerStore.makeDirectory_eq_ok hmade
  rcases JobAction.ofAction_bind_eq_error h₂ with ⟨hname, _⟩ | ⟨name, world₃, hname, h₃⟩
  · cases hname
  obtain ⟨reading, bits, rfl, htree, _⟩ := uniqueFilename_eq_ok hname
  rcases JobAction.ofAction_bind_eq_error h₃ with ⟨htext, rfl⟩ | ⟨text, world₄, htext, h₄⟩
  · rw [(Action.keeps_ofExcept _).eq_of_run htext, htree]
    exact ⟨Or.inr ⟨hbelow, hmakes⟩, rfl⟩
  obtain ⟨_, rfl⟩ := Action.ofExcept_eq_ok_iff.mp htext
  rcases JobAction.ofAction_bind_eq_error h₄ with ⟨hwritten, rfl⟩ | ⟨done, world₅, _, h₅⟩
  · rw [Action.eq_of_onTree_error hwritten, htree]
    exact ⟨Or.inr ⟨hbelow, hmakes⟩, rfl⟩
  cases h₅

/-- Only domain jobs are deployed, and a deployment is that of the domains. -/
theorem deploy_cases {σ : Type} (store : DataStore σ) (broker : Option Broker) (config : Config)
    (world : World σ) (job : Job) :
    ((∀ names stageDir objectsPath, job.role ≠ .domain names stageDir objectsPath) ∧
        deploy store broker config (world, job) = (.ok none, (world, job))) ∨
      ∃ names stageDir objectsPath result state,
        job.role = .domain names stageDir objectsPath ∧
        deployDomains names stageDir store broker config (world, job) = (result, state) ∧
        deploy store broker config (world, job) = (result.map some, state) := by
  have hjob : (JobAction.job : JobAction σ Job) (world, job) = (.ok job, (world, job)) := rfl
  rw [deploy, Operation.bind_of_ok hjob]
  cases hrole : job.role with
  | domain names stageDir objectsPath =>
      rcases hrun : deployDomains names stageDir store broker config (world, job) with
        ⟨result, state⟩
      refine Or.inr ⟨names, stageDir, objectsPath, result, state, rfl, hrun, ?_⟩
      simp only [map_eq_pure_bind]
      cases result with
      | error failure => exact Operation.bind_of_error hrun
      | ok target => exact Operation.bind_of_ok hrun
  | _ => exact Or.inl ⟨fun _ _ _ hdomain => (nomatch hdomain), rfl⟩

/-- What a deployment into a directory can leave of the files of a world. -/
inductive LeavesFiles (store : LedgerStore) (directory : String) (world : World Devices)
    (tree : FileTree) : Prop
  | unchanged (hsame : tree = world.tree)
  /-- The directory was made. -/
  | directory (hbelow : store.root <+: Path.resolveFrom store.root directory)
    (hmade : world.tree.makeDirectory (Path.resolveFrom store.root directory) = .ok tree)
  /-- The directory was made, and a file was put where nothing was. -/
  | file {made : FileTree} {place : List String} {bytes : List UInt8}
    {reading : Option Instant} {bits : BitVec 64}
    (hbelow : store.root <+: Path.resolveFrom store.root directory)
    (hmade : world.tree.makeDirectory (Path.resolveFrom store.root directory) = .ok made)
    (hplace : made.locateText world.workingDirectory
      (Path.join (Path.ofComponents (Path.resolveFrom store.root directory))
        (stampedName reading bits ++ ".json")) = .ok place)
    (hne : place ≠ []) (hnone : made.get? place = none)
    (htree : tree = made.put place (.file bytes))

/-- Whether it succeeds or fails, and whatever the job is, a deployment does one of these. -/
theorem leavesFiles_deploy (store : LedgerStore) (broker : Option Broker) (config : Config)
    (world : World Devices) (job : Job) :
    LeavesFiles store config.artifactDir world
      (deploy store.toDataStore broker config (world, job)).2.1.tree := by
  rcases deploy_cases store.toDataStore broker config world job with
    ⟨_, hrun⟩ | ⟨names, stageDir, _, result, ⟨world', job'⟩, _, hdomains, hrun⟩
  · rw [hrun]
    exact .unchanged rfl
  rw [hrun]
  cases result with
  | error failure =>
      rcases (deployDomains_error hdomains).1 with hsame | ⟨hbelow, hmade⟩
      · exact .unchanged hsame
      · exact .directory hbelow hmade
  | ok path =>
      obtain ⟨made, place, _, _, _, _, hbelow, hmade, hplace, hne, hnone, htree,
        ⟨reading, bits, rfl⟩, _⟩ := deployDomains_eq_ok hdomains
      exact .file hbelow hmade hplace hne hnone htree

end Job

end Dispatch
