import Dispatch.Proofs.Config
import Dispatch.Proofs.Deployment.Contents
import Dispatch.Proofs.Deployment.Failures

/-!
# Directories for artifacts

A directory for artifacts is checked twice.  A configuration is read only if its directory
is no absolute path and no part of it, between slashes of either kind, goes up.  A store
looks at the text of the relative path from its root instead.

The second check refuses some directories that the first lets through: those whose first
name begins with two dots and goes on.  `Config.directoryOutside_iff_beginsWithDots` says
that these are all, whatever the root is, and that a deployment fails in the words of the
second check for no other reason.
-/

namespace Dispatch

/-! ## Failures of other kinds -/

section

variable {root directory : String}

theorem Ledger.ne_directoryOutside_of_ofText {path text : String} {failure : Failure}
    (h : ofText path text = .error failure) : failure ≠ .directoryOutside root directory := by
  rw [ofText] at h
  split at h
  next =>
    cases h
    simp
  next =>
    rw [Schema.checkValue] at h
    split at h
    next => cases h
    next =>
      cases h
      simp

theorem LedgerStore.ne_directoryOutside_of_ledgerIn {store : LedgerStore} {tree : FileTree}
    {failure : Failure} (h : store.ledgerIn tree = .error failure) :
    failure ≠ .directoryOutside root directory := by
  rw [ledgerIn] at h
  split at h
  next => exact Ledger.ne_directoryOutside_of_ofText h
  next => cases h
  next =>
    cases h
    simp

theorem Ledger.eq_badOperand_of_recordList {value : Value} {failure : Failure}
    (h : recordList value = .error failure) : failure = .badOperand := by
  unfold recordList at h
  split at h <;> cases h
  rfl

theorem Ledger.eq_badOperand_of_recordsToSearch {value : Value} {failure : Failure}
    (h : recordsToSearch value = .error failure) : failure = .badOperand := by
  unfold recordsToSearch at h
  split at h
  next => cases h
  next => exact eq_badOperand_of_recordList h

theorem Ledger.eq_badOperand_of_sortByVersion {records : List Value} {failure : Failure}
    (h : sortByVersion records = .error failure) : failure = .badOperand := by
  rw [sortByVersion] at h
  split at h
  next =>
    cases h
    rfl
  next => split at h <;> cases h

/-- The newest record is not found only where records cannot be listed or compared. -/
theorem Ledger.eq_badOperand_of_search_latest {ledger : Value} {entry : StoreEntry}
    {subject : String} {failure : Failure}
    (h : search ledger entry subject .latest = .error failure) : failure = .badOperand := by
  rcases error_or_exists_of_bind_eq_error h with hlist | ⟨records, _, h⟩
  · exact eq_badOperand_of_recordsToSearch hlist
  rcases error_or_exists_of_bind_eq_error h with hsort | ⟨sorted, _, h⟩
  · exact eq_badOperand_of_sortByVersion hsort
  · cases h

theorem LedgerStore.ne_directoryOutside_of_search_latest {σ : Type} (store : LedgerStore)
    (subject : String) (entry : StoreEntry) :
    Operation.FailsOnly (· ≠ .directoryOutside root directory)
      (store.search subject entry .latest : Action σ (List Value)) := by
  intro world failure h
  rw [search_apply] at h
  rcases error_or_exists_of_bind_eq_error h with hledger | ⟨ledger, _, h⟩
  · exact ne_directoryOutside_of_ledgerIn hledger
  · rw [Ledger.eq_badOperand_of_search_latest h]
    simp

theorem ModelEntry.ne_directoryOutside_of_ofRecords {subject : String} {records : List Value}
    {failure : Failure} (h : ofRecords subject records = .error failure) :
    failure ≠ .directoryOutside root directory := by
  unfold ofRecords ofRecord at h
  (repeat' split at h) <;> cases h <;> simp

/-- A broker that fails does so in its own words. -/
theorem SampleTarget.ne_directoryOutside_of_ofLedgerStore {store : LedgerStore}
    {broker : Option Broker} {stageDir : Option String} {failure : Failure}
    (h : ofLedgerStore store broker stageDir = .error failure) :
    failure ≠ .directoryOutside root directory := by
  cases broker with
  | none => cases stageDir <;> cases h
  | some broker =>
      rcases error_or_exists_of_bind_eq_error h with hshown | ⟨settings, _, hreturn⟩
      · obtain ⟨message, _, rfl⟩ := Broker.exists_of_shown_eq_error hshown
        simp
      · cases hreturn

/-- Looking up models never fails for a directory. -/
theorem ModelObjects.ne_directoryOutside_of_build (store : LedgerStore) (broker : Option Broker)
    (names : List String) (stageDir : Option String) :
    Operation.FailsOnly (· ≠ .directoryOutside root directory)
      (build store.toDataStore broker names stageDir) := by
  rw [build, SampleTarget.choose_toDataStore]
  refine (Action.failsOnly_ofExcept fun failure =>
    SampleTarget.ne_directoryOutside_of_ofLedgerStore).bind fun target => ?_
  refine (Operation.failsOnly_mapM (fun subject => ?_) names).bind fun entries =>
    Operation.failsOnly_pure _
  exact (LedgerStore.ne_directoryOutside_of_search_latest store subject .models).bind
    fun records => Action.failsOnly_ofExcept fun failure =>
      ModelEntry.ne_directoryOutside_of_ofRecords

end

/-! ## When a directory is refused -/

section

variable {value : Value} {config : Config} {root directory : String}

/-- A store lets a directory that was read through unless it begins with two dots. -/
theorem Config.staysBelow_of_parse (h : parse value = .ok config) (root : List String) :
    Path.staysBelow (Path.relative root (Path.resolveFrom root config.artifactDir)) =
      !Path.beginsWithDots (Path.names config.artifactDir) := by
  have hinside := (isSafe_of_parse h).staysInside
  rw [hinside.resolveFrom_eq, Path.relative_append, Path.staysBelow_intercalate hinside.isComponent]

/-- A store refuses a directory that was read exactly if it begins with two dots. -/
theorem LedgerStore.makeDirectory_eq_directoryOutside_iff (h : Config.parse value = .ok config)
    (store : LedgerStore) (world : World Devices) :
    (store.makeDirectory config.artifactDir world).1 =
        .error (.directoryOutside root directory) ↔
      Path.beginsWithDots (Path.names config.artifactDir) = true ∧
        root = store.rootPath ∧ directory = config.artifactDir := by
  have hbelow := Config.staysBelow_of_parse h store.root
  rw [makeDirectory]
  cases hdots : Path.beginsWithDots (Path.names config.artifactDir) with
  | true =>
      rw [hdots] at hbelow
      rw [hbelow, if_neg (by simp)]
      constructor
      · rintro ⟨⟩
        exact ⟨rfl, rfl, rfl⟩
      · rintro ⟨_, rfl, rfl⟩
        rfl
  | false =>
      rw [hdots] at hbelow
      rw [hbelow, if_pos (by simp)]
      refine ⟨fun hrefused => ?_, fun hrefused => absurd hrefused.1 Bool.false_ne_true⟩
      have hmade : Operation.FailsOnly (· ≠ .directoryOutside root directory) (do
          Action.makeDirectory (Path.resolveFrom store.root config.artifactDir)
          return Path.ofComponents (Path.resolveFrom store.root config.artifactDir) :
          Action Devices String) :=
        (Action.failsOnly_onTree (by simp) _).bind fun _ => Operation.failsOnly_pure _
      exact absurd rfl (hmade world _ hrefused)

/-- After its directory is made, a deployment fails only on its document or its file. -/
theorem Job.ne_directoryOutside_of_made (objects : ModelObjects) (path : String) :
    Operation.FailsOnly (· ≠ .directoryOutside root directory) (do
      let name ← JobAction.ofAction LedgerStore.uniqueFilename
      let target := Path.join path (name ++ ".json")
      let text ← JobAction.ofAction (Action.ofExcept (Json.writeTable .compact objects.toTable))
      JobAction.ofAction (Action.writeNewText target text)
      JobAction.changeJob (·.withObjects target)
      return target) := by
  have hname : Operation.FailsOnly (· ≠ .directoryOutside root directory)
      LedgerStore.uniqueFilename := by
    intro world failure h
    cases h
  have htext : Operation.FailsOnly (· ≠ .directoryOutside root directory)
      (Action.ofExcept (Json.writeTable .compact objects.toTable) : Action Devices String) := by
    refine Action.failsOnly_ofExcept fun failure h => ?_
    rcases error_or_exists_of_bind_eq_error h with hwrite | ⟨text, _, h⟩
    · rw [Json.write] at hwrite
      split at hwrite <;> cases hwrite
      simp
    · cases h
  have hfile (target text : String) : Operation.FailsOnly (· ≠ .directoryOutside root directory)
      (Action.writeNewText target text : Action Devices Unit) := by
    intro world failure h
    obtain ⟨error, rfl⟩ := Action.writeNewText_eq_error (Prod.ext h rfl)
    simp
  have hjob (target : String) : Operation.FailsOnly (· ≠ .directoryOutside root directory)
      (JobAction.changeJob (·.withObjects target) : JobAction Devices Unit) := by
    intro state failure h
    cases h
  refine (JobAction.failsOnly_ofAction hname).bind fun name => ?_
  refine (JobAction.failsOnly_ofAction htext).bind fun text => ?_
  refine (JobAction.failsOnly_ofAction (hfile _ text)).bind fun _ => ?_
  exact (hjob _).bind fun _ => Operation.failsOnly_pure _

/-- A deployment of domains is refused its directory when it has found the models. -/
theorem Job.deployDomains_eq_directoryOutside_iff (config : Config) (names : List String)
    (stageDir : Option String) (store : LedgerStore) (broker : Option Broker)
    (world : World Devices) (job : Job) :
    (deployDomains names stageDir store.toDataStore broker config (world, job)).1 =
        .error (.directoryOutside root directory) ↔
      (∃ objects,
        (ModelObjects.build store.toDataStore broker names stageDir world).1 = .ok objects) ∧
      (store.makeDirectory config.artifactDir world).1 =
        .error (.directoryOutside root directory) := by
  rcases hbuild : ModelObjects.build store.toDataStore broker names stageDir world with
    ⟨failure | objects, found⟩
  · have hother : failure ≠ .directoryOutside root directory :=
      ModelObjects.ne_directoryOutside_of_build store broker names stageDir world failure
        (by rw [hbuild])
    rw [deployDomains, Operation.bind_of_error (JobAction.ofAction_of_run hbuild _)]
    constructor
    · rintro ⟨⟩
      exact absurd rfl hother
    · rintro ⟨⟨objects, hfound⟩, _⟩
      cases hfound
  obtain rfl := (keeps_build store broker names stageDir).eq_of_run hbuild
  rw [deployDomains, Operation.bind_of_ok (JobAction.ofAction_of_run hbuild _)]
  rcases hmake : store.makeDirectory config.artifactDir found with ⟨failure | path, made⟩
  · have hmade : store.toDataStore.makeDirectory config.artifactDir found =
        (.error failure, made) := hmake
    rw [Operation.bind_of_error (JobAction.ofAction_of_run hmade _)]
    exact ⟨fun h => ⟨⟨objects, rfl⟩, h⟩, fun h => h.2⟩
  · have hmade : store.toDataStore.makeDirectory config.artifactDir found = (.ok path, made) :=
      hmake
    rw [Operation.bind_of_ok (JobAction.ofAction_of_run hmade _)]
    constructor
    · intro h
      exact absurd rfl (ne_directoryOutside_of_made objects path (made, job) _ h)
    · rintro ⟨_, h⟩
      cases h

end

namespace Config

/--
The directory of a configuration that was read is refused as lying outside a root exactly if
its first name begins with two dots, whatever the root is.  A deployment with the
configuration is then refused in the same words once it has found the models of its domains.
-/
theorem directoryOutside_iff_beginsWithDots {value : Value} {config : Config}
    (h : parse value = .ok config) (store : LedgerStore) (broker : Option Broker)
    (world : World Devices) (job : Job) (root directory : String) :
    ((store.makeDirectory config.artifactDir world).1 =
        .error (.directoryOutside root directory) ↔
      Path.beginsWithDots (Path.names config.artifactDir) = true ∧
        root = store.rootPath ∧ directory = config.artifactDir) ∧
    ((Job.deploy store.toDataStore broker config (world, job)).1 =
        .error (.directoryOutside root directory) ↔
      (∃ names stageDir objectsPath objects, job.role = .domain names stageDir objectsPath ∧
        (ModelObjects.build store.toDataStore broker names stageDir world).1 = .ok objects) ∧
      Path.beginsWithDots (Path.names config.artifactDir) = true ∧
        root = store.rootPath ∧ directory = config.artifactDir) := by
  have hmakes : (store.makeDirectory config.artifactDir world).1 =
        .error (.directoryOutside root directory) ↔ _ :=
    LedgerStore.makeDirectory_eq_directoryOutside_iff h store world
  refine ⟨hmakes, ?_⟩
  rw [← hmakes]
  rcases Job.deploy_cases store.toDataStore broker config world job with
    ⟨hother, hrun⟩ | ⟨names, stageDir, objectsPath, result, state, hrole, hdomains, hrun⟩
  · rw [hrun]
    constructor
    · intro h
      cases h
    · rintro ⟨⟨names, stageDir, objectsPath, objects, hrole, _⟩, _⟩
      exact absurd hrole (hother _ _ _)
  have hdeploys : (Job.deployDomains names stageDir store.toDataStore broker config
      (world, job)).1 = .error (.directoryOutside root directory) ↔ _ :=
    Job.deployDomains_eq_directoryOutside_iff config names stageDir store broker world job
  have hresult : result.map some = .error (.directoryOutside root directory) ↔
      result = .error (.directoryOutside root directory) := by
    cases result with
    | error failure => simp [Except.map]
    | ok path => simp [Except.map]
  rw [hdomains] at hdeploys
  rw [hrun, hresult, hdeploys]
  constructor
  · rintro ⟨⟨objects, hbuild⟩, hrefused⟩
    exact ⟨⟨names, stageDir, objectsPath, objects, hrole, hbuild⟩, hrefused⟩
  · rintro ⟨⟨names', stageDir', objectsPath', objects, hrole', hbuild⟩, hrefused⟩
    cases hrole.symm.trans hrole'
    exact ⟨⟨objects, hbuild⟩, hrefused⟩

/-- A store with a root of its own refuses a directory whose name merely begins with two dots. -/
theorem directoryOutside_dottedName :
    parse (.table [("artifactDir", .text "..odd")]) = .ok { artifactDir := "..odd" } ∧
      ((⟨["store"]⟩ : LedgerStore).makeDirectory "..odd" World.fresh).1 =
        .error (.directoryOutside "/store" "..odd") ∧
      (Job.deploy (⟨["store"]⟩ : LedgerStore).toDataStore none { artifactDir := "..odd" }
        (World.fresh, Job.withNumber 1)).1 = .error (.directoryOutside "/store" "..odd") := by
  have hread : parse (.table [("artifactDir", .text "..odd")]) =
      .ok { artifactDir := "..odd" } := by rfl
  have hdots : Path.beginsWithDots (Path.names "..odd") = true := by decide
  have hroot : "/store" = (⟨["store"]⟩ : LedgerStore).rootPath := by decide
  have hfound : (ModelObjects.build (⟨["store"]⟩ : LedgerStore).toDataStore none ["a"] none
      World.fresh).1.isOk = true := by decide +kernel
  obtain ⟨objects, world', hbuild⟩ := Operation.exists_of_isOk hfound
  obtain ⟨hmakes, hdeploys⟩ := directoryOutside_iff_beginsWithDots hread ⟨["store"]⟩ none
    World.fresh (Job.withNumber 1) "/store" "..odd"
  exact ⟨hread, hmakes.mpr ⟨hdots, hroot, rfl⟩,
    hdeploys.mpr ⟨⟨["a"], none, none, objects, rfl, by rw [hbuild]⟩, hdots, hroot, rfl⟩⟩

/-- A directory that a configuration may name can be refused for leaving the root. -/
theorem not_forall_directory_inside :
    ¬ ∀ (value : Value) (config : Config) (store : LedgerStore) (world : World Devices)
      (root directory : String), parse value = .ok config →
        (store.makeDirectory config.artifactDir world).1 ≠
          .error (.directoryOutside root directory) := by
  intro hinside
  have hread : parse (.table [("artifactDir", .text "..odd")]) =
      .ok { artifactDir := "..odd" } := by rfl
  have hrefused : ((⟨["store"]⟩ : LedgerStore).makeDirectory "..odd" World.fresh).1 =
      .error (.directoryOutside "/store" "..odd") := by rfl
  exact hinside _ _ _ _ _ _ hread hrefused

end Config

end Dispatch
