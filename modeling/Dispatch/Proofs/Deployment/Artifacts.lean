import Dispatch.Proofs.Deployment.Contents
import Dispatch.Proofs.Store.Confinement

/-!
# Deployments that succeed

A deployment with a ledger store leaves one new file directly in the directory that the
settings name.  The file shows the objects that were built before, and the job points at it.
Nothing else of the job changes, and no other file does.
-/

namespace Dispatch

namespace Job

variable {store : LedgerStore} {broker : Option Broker} {config : Config} {names : List String}
  {stageDir objectsPath : Option String} {world world' : World Devices} {job job' : Job}
  {path : String}

/-! ## The job -/

/-- A domain job that was pointed at an objects file, and is otherwise as it was. -/
structure IsPointedAt (path : String) (job job' : Job) : Prop where
  role : ∃ names stageDir objectsPath, job.role = .domain names stageDir objectsPath ∧
    job'.role = .domain names stageDir (some path)
  objects : job'.environment.get? "AMS_OBJECTS" = some (.text path)
  logLevel : job'.environment.get? "AMS_LOG_LEVEL" =
    if job.amsLog then some (.text "debug") else job.environment.get? "AMS_LOG_LEVEL"
  /-- The rest of the environment is as it was. -/
  environment : ∀ name, name ≠ "AMS_OBJECTS" → name ≠ "AMS_LOG_LEVEL" →
    job'.environment.get? name = job.environment.get? name
  others : { job' with environment := job.environment, role := job.role } = job

theorem isPointedAt_withObjects (hrole : job.role = .domain names stageDir objectsPath)
    (path : String) : IsPointedAt path job (job.withObjects path) := by
  have henvironment (name : String) : (job.withObjects path).environment.get? name =
      if job.amsLog = true ∧ name = "AMS_LOG_LEVEL" then some (.text "debug")
      else if name = "AMS_OBJECTS" then some (.text path) else job.environment.get? name := by
    rw [withObjects]
    cases hlog : job.amsLog with
    | true => simp [Dict.get?_insert]
    | false => simp [Dict.get?_insert]
  constructor
  · exact ⟨names, stageDir, objectsPath, hrole, by simp only [withObjects, hrole]⟩
  · rw [henvironment, if_neg (by simp), if_pos rfl]
  · rw [henvironment]
    by_cases hlog : job.amsLog = true
    · simp [hlog]
    · simp [hlog]
  · intro name hobjects hlog
    rw [henvironment, if_neg fun h => hlog h.2, if_neg hobjects]
  · rfl

/-! ## The file -/

/-- A new file in the artifact directory shows what was built before it, and no file changes. -/
structure HasArtifact (store : LedgerStore) (broker : Option Broker) (config : Config)
    (job : Job) (world world' : World Devices) (path : String) : Prop where
  /-- The file is directly in the directory. -/
  place : ∃ name, Path.IsComponent (name ++ ".json") ∧
    Path.resolveFrom [] path =
      Path.resolveFrom store.root config.artifactDir ++ [name ++ ".json"] ∧
    path = Path.ofComponents (Path.resolveFrom [] path)
  /-- Whatever the directory is, the file is not taken for the ledger. -/
  apart : Path.resolveFrom [] path ≠ store.ledgerFile
  fresh : world.tree.get? (Path.resolveFrom [] path) = none
  content : ∃ names stageDir objectsPath objects text,
    job.role = .domain names stageDir objectsPath ∧
    ModelObjects.build store.toDataStore broker names stageDir world = (.ok objects, world) ∧
    Json.writeTable .compact objects.toTable = .ok text ∧
    world'.tree.read (Path.resolveFrom [] path) = .ok (Utf8.encode text) ∧
    -- What is read from the text is what the store has found for each of the domains.
    ((∀ b ∈ broker, b.ShowsRecord) → ∃ found shown,
      store.toDataStore.newestModels names world =
        found.map (fun answer => (answer.1, .ok answer.2)) ∧
      Json.read? text = some (.table shown) ∧
      ShowsObjects store broker stageDir names found shown)
  kept : ∀ other bytes, world.tree.get? other = some (.file bytes) →
    world'.tree.get? other = some (.file bytes)

section

variable (hnames : ∀ name ∈ store.root, Path.IsComponent name)

include hnames

theorem hasArtifact_of_deployDomains (hrole : job.role = .domain names stageDir objectsPath)
    (h : deployDomains names stageDir store.toDataStore broker config (world, job) =
      (.ok path, (world', job'))) :
    HasArtifact store broker config job world world' path := by
  obtain ⟨made, place, objects, text, hbuild, htext, hbelow, hmade, hplace, hne, hnone, htree,
    ⟨reading, bits, rfl⟩, _⟩ := deployDomains_eq_ok h
  obtain rfl := LedgerStore.eq_concat_of_locateText hnames hplace
  have htarget := Path.isComponent_of_mem_resolveFrom hnames config.artifactDir
  have hname := LedgerStore.isComponent_objectsName reading bits
  have hadds := FileTree.addsDirectories_of_makeDirectory hmade
  have hpath := Path.resolveFrom_ofComponents
    (LedgerStore.isComponent_of_mem_place hnames config.artifactDir reading bits) []
  rw [Path.join_ofComponents_eq htarget hname]
  constructor
  · exact ⟨stampedName reading bits, hname, hpath, by rw [hpath]⟩
  · rw [hpath]
    exact (LedgerStore.ledgerFile_ne_of_locateText store hplace).symm
  · rw [hpath, Option.eq_none_iff_forall_ne_some]
    intro node hnode
    rw [hadds.get?_eq hnode] at hnone
    cases hnone
  · have hdirectory := FileTree.isDirectory_of_makeDirectory
      (fun name hmem => (htarget name hmem).name) hmade
    refine ⟨names, stageDir, objectsPath, objects, text, hrole, hbuild, htext, ?_, fun hbroker =>
      ModelObjects.exists_read?_of_build hbroker hbuild htext⟩
    rw [hpath, htree]
    exact FileTree.read_eq_ok_iff.mpr
      ⟨hdirectory.put _, by rw [FileTree.get?_put_concat, if_pos rfl]⟩
  · intro other content hfile
    have hmadeFile := hadds.get?_eq hfile
    rw [htree, FileTree.get?_put_concat, if_neg, hmadeFile]
    rintro rfl
    rw [hnone] at hmadeFile
    cases hmadeFile

/-- A domain job that is deployed has a new objects file and points at it. -/
theorem hasArtifact_of_deploy {answer : Option String}
    (hrole : job.role = .domain names stageDir objectsPath)
    (h : deploy store.toDataStore broker config (world, job) = (.ok answer, (world', job'))) :
    ∃ path, answer = some path ∧ HasArtifact store broker config job world world' path ∧
      IsPointedAt path job job' := by
  rcases deploy_cases store.toDataStore broker config world job with
    ⟨hother, _⟩ | ⟨names', stageDir', objectsPath', result, state, hrole', hdomains, hrun⟩
  · exact absurd hrole (hother names stageDir objectsPath)
  rw [h] at hrun
  cases result with
  | error failure => cases hrun
  | ok path =>
      cases hrun
      obtain ⟨_, _, _, _, _, _, _, _, _, _, _, _, _, rfl⟩ := deployDomains_eq_ok hdomains
      exact ⟨path, rfl, hasArtifact_of_deployDomains hnames hrole' hdomains,
        isPointedAt_withObjects hrole' path⟩

end

end Job

end Dispatch
