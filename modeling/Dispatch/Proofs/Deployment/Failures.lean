import Dispatch.Proofs.Deployment.Requests
import Dispatch.Proofs.Job.Preparation

/-!
# Deployments that fail

A deployment asks its store for models, for a directory and for a name, and then writes
one file where nothing was.  Whichever of these fails, and whatever the store is, the job
stays as it was and so do all files.  What was asked of the store until then is a part of
one fixed list of requests, and a failure of the store is the failure of the deployment.
-/

namespace Dispatch

variable {σ : Type}

/-- A look into a list of operations: each result is that of one operation. -/
theorem Operation.exists_of_mem_mapM {σ α β : Type} {f : α → Operation σ β} {l : List α}
    {results : List β} {state state' : σ} (h : l.mapM f state = (.ok results, state')) {b : β}
    (hb : b ∈ results) : ∃ a ∈ l, ∃ before after, f a before = (.ok b, after) := by
  induction l generalizing results state with
  | nil =>
      cases h
      cases hb
  | cons a rest ih =>
      rw [List.mapM_cons] at h
      obtain ⟨first, between, hfirst, h⟩ := bind_eq_ok_iff.mp h
      obtain ⟨more, last, hmore, h⟩ := bind_eq_ok_iff.mp h
      cases h
      rcases List.mem_cons.mp hb with rfl | hb
      · exact ⟨a, by simp, state, between, hfirst⟩
      · obtain ⟨a', ha', before, after, hrun⟩ := ih hmore hb
        exact ⟨a', List.mem_cons_of_mem _ ha', before, after, hrun⟩

/-! ## Objects can be written -/

theorem Json.exists_writeTable {members : Dict Value} (style : Json.Style)
    (h : ∀ entry ∈ members, entry.2.isWritable = true) :
    ∃ text, Json.writeTable style members = .ok text := by
  rw [writeTable, write, if_pos (Value.isWritable_table h)]
  exact ⟨_, rfl⟩

/-- A broker that shows applications only texts and numbers. -/
def Broker.ShowsFields (broker : Broker) : Prop :=
  ∀ settings, broker.descriptor true = .ok settings → ∀ setting ∈ settings,
    (∃ text, setting.2 = .text text) ∨ ∃ x, setting.2 = .number x

theorem SampleTarget.isWritable_of_choose {store : DataStore σ} {broker : Option Broker}
    {stageDir : Option String} (hbroker : ∀ b ∈ broker, b.ShowsFields) {target : SampleTarget}
    {world world' : World σ} (h : choose store broker stageDir world = (.ok target, world')) :
    (Value.table target.toTable).isWritable = true := by
  have hfiles (path : String) : (Value.table (files path).toTable).isWritable = true := rfl
  cases broker with
  | none =>
      cases stageDir with
      | some directory =>
          cases h
          exact hfiles directory
      | none =>
          obtain ⟨path, between, _, h⟩ := Operation.bind_eq_ok_iff.mp h
          cases h
          exact hfiles path
  | some b =>
      obtain ⟨settings, between, hdescriptor, h⟩ := Operation.bind_eq_ok_iff.mp h
      cases h
      have hshown := Broker.shown_eq_ok_iff.mp (Action.ofExcept_eq_ok_iff.mp hdescriptor).1
      have hsettings : (Value.table settings).isWritable = true := by
        refine Value.isWritable_table fun setting hsetting => ?_
        rcases hbroker b rfl settings hshown setting hsetting with ⟨text, htext⟩ | ⟨x, hx⟩
        · rw [htext]
          rfl
        · rw [hx]
          rfl
      refine Value.isWritable_table fun field hfield => ?_
      simp only [toTable, List.mem_cons, List.not_mem_nil, or_false] at hfield
      rcases hfield with rfl | rfl | rfl
      · exact hsettings
      · rfl
      · rfl

theorem ModelEntry.isWritable_of_ofRecords {subject : String} {records : List Value}
    {entry : ModelEntry} (hrecords : ∀ record ∈ records, IsStoreRecord record)
    (h : ofRecords subject records = .ok entry) :
    (Value.table entry.toTable).isWritable = true := by
  rcases ofRecords_cases subject hrecords with
    ⟨_, hgathering⟩ | ⟨record, rest, _, hrecord, hfirst⟩
  · rw [hgathering] at h
    cases h
    rfl
  · rw [hfirst] at h
    obtain ⟨⟨hhasType, hhasThreshold⟩, rfl⟩ := ofRecord_eq_ok h
    obtain ⟨path, hpath⟩ := hrecord.file
    obtain ⟨name, hname⟩ := hrecord.uqType.resolve_left hhasType
    obtain ⟨x, hx⟩ := hrecord.threshold.resolve_left hhasThreshold
    simp [ModelEntry.toTable, hpath, hname, hx, Value.isWritable, Value.membersWritable]

/-- Objects that were built can be written. -/
theorem ModelObjects.exists_text_of_build {store : DataStore σ} (hstore : store.AnswersRecords)
    {broker : Option Broker} (hbroker : ∀ b ∈ broker, b.ShowsFields) {names : List String}
    {stageDir : Option String} {objects : ModelObjects} {world world' : World σ}
    (h : build store broker names stageDir world = (.ok objects, world')) :
    ∃ text, Json.writeTable .compact objects.toTable = .ok text := by
  obtain ⟨target, between, htarget, h⟩ := Operation.bind_eq_ok_iff.mp h
  obtain ⟨entries, last, hentries, h⟩ := Operation.bind_eq_ok_iff.mp h
  cases h
  have hdb := SampleTarget.isWritable_of_choose hbroker htarget
  have hentry : ∀ entry ∈ entries, (Value.table entry.toTable).isWritable = true := by
    intro entry hmem
    obtain ⟨subject, _, before, after, hlook⟩ := Operation.exists_of_mem_mapM hentries hmem
    obtain ⟨records, found, hsearch, hentry⟩ := Operation.bind_eq_ok_iff.mp hlook
    have hrecords := hstore _ _ _ _ _ _ hsearch
    exact ModelEntry.isWritable_of_ofRecords hrecords (Action.ofExcept_eq_ok_iff.mp hentry).1
  refine Json.exists_writeTable _ fun field hfield => ?_
  simp only [toTable, List.mem_cons, List.not_mem_nil, or_false] at hfield
  rcases hfield with rfl | rfl | rfl
  · exact hdb
  · refine Value.isWritable_table fun model hmodel => ?_
    obtain ⟨place, hplace, rfl⟩ := List.mem_mapIdx.mp hmodel
    exact hentry _ (List.getElem_mem hplace)
  · refine Value.isWritable_table fun name hname => ?_
    rcases Dict.mem_of_mem_assignAll hname with hnone | hbound
    · cases hnone
    · obtain ⟨place, hplace, rfl⟩ := List.mem_mapIdx.mp hbound
      rfl

/-! ## Where a deployment fails -/

/--
How a deployment fails once the models are found: the directory is not made, the file has
no name, or the file cannot be created.  The calls are those after the search.
-/
inductive FailsAfterSearch (config : Config) (world' : World σ) (failure : Failure) :
    List StoreCall → Prop
  | directory : FailsAfterSearch config world' failure
      [⟨.makeDirectory config.artifactDir, .error failure⟩]
  | name (directory : String) : FailsAfterSearch config world' failure
      [⟨.makeDirectory config.artifactDir, .ok (.text directory)⟩,
        ⟨.uniqueFilename, .error failure⟩]
  | file (directory name text : String)
      (hwrite : Action.writeNewText (Path.join directory (name ++ ".json")) text world' =
        (.error failure, world')) :
      FailsAfterSearch config world' failure
        [⟨.makeDirectory config.artifactDir, .ok (.text directory)⟩,
          ⟨.uniqueFilename, .ok (.text name)⟩]

section

variable {store : DataStore σ} {broker : Option Broker} {config : Config} {names : List String}
  {stageDir : Option String} {world world' : World σ} {job job' : Job} {failure : Failure}

/-- A deployment fails on its models, or after it has found them; the job stays. -/
theorem Job.deployDomains_error_calls (hadds : store.AddsDirectories)
    (hanswers : store.AnswersRecords) (hbroker : ∀ b ∈ broker, b.ShowsFields)
    (h : deployDomains names stageDir store broker config (world, job) =
      (.error failure, (world', job'))) :
    job' = job ∧ World.AddsDirectories world world' ∧ ∃ calls,
      deployDomains names stageDir store.recorded broker config (world.recording [], job) =
        (.error failure, (world'.recording calls, job)) ∧
      (StoreCall.Follow broker (buildRequests broker names stageDir)
          (.error failure : Except Failure ModelObjects) calls ∨
        ∃ objects found after, calls = found ++ after ∧
          StoreCall.Follow broker (buildRequests broker names stageDir)
            (.ok objects : Except Failure ModelObjects) found ∧
          FailsAfterSearch config world' failure after) := by
  obtain ⟨calls, hfollow, hrecorded⟩ :=
    records_build hanswers broker names stageDir world []
  have hbuilds := hadds.build broker names stageDir world
  rcases JobAction.ofAction_bind_eq_error h with ⟨hbuilt, rfl⟩ | ⟨objects, world₁, hbuilt, h₁⟩
  · rw [hbuilt] at hfollow hrecorded hbuilds
    exact ⟨rfl, hbuilds, calls,
      Operation.bind_of_error (JobAction.ofAction_of_run hrecorded _), Or.inl hfollow⟩
  rw [hbuilt] at hfollow hrecorded hbuilds
  rw [deployDomains, Operation.bind_of_ok (JobAction.ofAction_of_run hrecorded _)]
  have hmakes := hadds.makeDirectory config.artifactDir world₁
  rcases JobAction.ofAction_bind_eq_error h₁ with ⟨hmade, rfl⟩ | ⟨directory, world₂, hmade, h₂⟩
  · rw [hmade] at hmakes
    exact ⟨rfl, hbuilds.trans hmakes, _,
      Operation.bind_of_error
        (JobAction.ofAction_of_run (DataStore.recorded_makeDirectory hmade _) _),
      Or.inr ⟨objects, calls, _, rfl, hfollow, .directory⟩⟩
  rw [hmade] at hmakes
  rw [Operation.bind_of_ok
    (JobAction.ofAction_of_run (DataStore.recorded_makeDirectory hmade _) _)]
  have hnames := hadds.uniqueFilename world₂
  rcases JobAction.ofAction_bind_eq_error h₂ with ⟨hname, rfl⟩ | ⟨name, world₃, hname, h₃⟩
  · rw [hname] at hnames
    exact ⟨rfl, (hbuilds.trans hmakes).trans hnames, _,
      Operation.bind_of_error
        (JobAction.ofAction_of_run (DataStore.recorded_uniqueFilename hname _) _),
      Or.inr ⟨objects, calls, _, List.append_assoc _ _ _, hfollow, .name directory⟩⟩
  rw [hname] at hnames
  rw [Operation.bind_of_ok
    (JobAction.ofAction_of_run (DataStore.recorded_uniqueFilename hname _) _)]
  obtain ⟨text, htext⟩ := ModelObjects.exists_text_of_build hanswers hbroker hbuilt
  have hdocuments (state : World (σ × List StoreCall) × Job) :
      JobAction.ofAction (Action.ofExcept (.ok text)) state = (.ok text, state) := rfl
  rw [htext] at h₃ ⊢
  rw [Operation.bind_of_ok (hdocuments _)]
  rcases JobAction.ofAction_bind_eq_error h₃ with ⟨hdocument, _⟩ | ⟨_, world₄, hdocument, h₄⟩
  · cases hdocument
  cases hdocument
  rcases JobAction.ofAction_bind_eq_error h₄ with ⟨hwritten, rfl⟩ | ⟨done, world₅, _, h₅⟩
  · have hsame := Action.eq_of_onTree_error hwritten
    subst hsame
    exact ⟨rfl, (hbuilds.trans hmakes).trans hnames, _,
      Operation.bind_of_error
        (JobAction.ofAction_of_run (Action.writeNewText_recording hwritten _) _),
      Or.inr ⟨objects, calls, _, List.append_assoc _ _ _, hfollow,
        FailsAfterSearch.file directory name text hwritten⟩⟩
  · cases h₅

end

/-! ## Failures leave nothing behind -/

/-- What is asked of a store by a deployment that goes through, in this order. -/
def deploymentRequests (broker : Option Broker) (names : List String) (stageDir : Option String)
    (config : Config) : List StoreRequest :=
  buildRequests broker names stageDir ++ [.makeDirectory config.artifactDir, .uniqueFilename]

/-- A failed deployment, with the calls that it made, has left nothing but directories. -/
structure FailsCleanly (broker : Option Broker) (names : List String) (stageDir : Option String)
    (config : Config) (world world' : World σ) (calls : List StoreCall) (failure : Failure) :
    Prop where
  files : world.tree.SameFiles world'.tree
  requests : calls.map StoreCall.request <+: deploymentRequests broker names stageDir config
  /-- What a store fails with is what the deployment fails with. -/
  raised : ∀ call ∈ calls, ∀ raised, call.answer = .error raised → failure = raised
  explained : (∃ call ∈ calls, call.answer = .error failure) ∨
    (∃ model subject, failure = .incompleteModel model subject) ∨
    (∃ b ∈ broker, ∃ message, b.descriptor true = .error message ∧
      failure = .brokerReported message) ∨ ∃ error, failure = .file error
  /-- A directory is made only when every domain was searched and has a complete model or none. -/
  searched : .makeDirectory config.artifactDir ∈ calls.map StoreCall.request →
    (names.map (.search · .models .latest)).Sublist (calls.map StoreCall.request) ∧
      ∀ subject answer, ⟨.search subject .models .latest, answer⟩ ∈ calls →
        ∃ records, answer = .ok (.records records) ∧
          ∀ record ∈ records.head?, IsCompleteModel record
  /-- A file where the new one is to be is kept, and is why the deployment fails. -/
  occupied : ∀ directory name bytes,
    ⟨.makeDirectory config.artifactDir, .ok (.text directory)⟩ ∈ calls →
    ⟨.uniqueFilename, .ok (.text name)⟩ ∈ calls →
    world'.tree.readText world'.workingDirectory (Path.join directory (name ++ ".json")) =
      .ok bytes →
    failure = .file .occupied

theorem not_mem_buildRequests {request : StoreRequest} {broker : Option Broker}
    {names : List String} {stageDir : Option String}
    (h : (∃ directory, request = .makeDirectory directory) ∨ request = .uniqueFilename) :
    request ∉ buildRequests broker names stageDir := by
  intro hmem
  rcases List.mem_append.mp hmem with hmem | hmem
  · split at hmem
    · obtain rfl := List.mem_singleton.mp hmem
      rcases h with ⟨directory, h⟩ | h <;> cases h
    · cases hmem
  · obtain ⟨subject, _, rfl⟩ := List.mem_map.mp hmem
    rcases h with ⟨directory, h⟩ | h <;> cases h

/-- A new file is not written where one can be read. -/
theorem Action.writeNewText_of_readText {path text : String} {world : World σ}
    {bytes : List UInt8} (h : world.tree.readText world.workingDirectory path = .ok bytes) :
    writeNewText path text world = (.error (.file .occupied), world) := by
  obtain ⟨place, hplace, hread⟩ := exists_of_bind_eq_ok h
  obtain ⟨done, hparents, hnode⟩ := exists_of_bind_eq_ok hread
  have hoccupied : world.tree.writeNew place (Utf8.encode text) = .error .occupied := by
    rw [FileTree.writeNew, hparents]
    cases hnode' : world.tree.get? place with
    | none => simp [hnode'] at hnode
    | some node => rfl
  simp only [writeNewText, onTree, hplace, Bind.bind, Except.bind, hoccupied]

theorem Action.writeNewText_eq_error {path text : String} {world world' : World σ}
    {failure : Failure} (h : writeNewText path text world = (.error failure, world')) :
    ∃ error, failure = .file error := by
  simp only [writeNewText, onTree] at h
  split at h
  next => cases h
  next error _ =>
    cases h
    exact ⟨error, rfl⟩

section

variable {broker : Option Broker} {config : Config} {names : List String}
  {stageDir : Option String} {world world' : World σ} {failure : Failure}
  {objects : ModelObjects} {found after : List StoreCall}

theorem FailsAfterSearch.made (h : FailsAfterSearch config world' failure after) :
    after.map StoreCall.request <+: [.makeDirectory config.artifactDir, .uniqueFilename] := by
  cases h with
  | directory => exact ⟨[.uniqueFilename], rfl⟩
  | name => exact List.prefix_refl _
  | file => exact List.prefix_refl _

theorem FailsAfterSearch.raised (h : FailsAfterSearch config world' failure after) :
    ∀ call ∈ after, ∀ raised, call.answer = .error raised → failure = raised := by
  cases h <;> simp

theorem FailsAfterSearch.explained (h : FailsAfterSearch config world' failure after) :
    (∃ call ∈ after, call.answer = .error failure) ∨ ∃ error, failure = .file error := by
  cases h with
  | directory => exact Or.inl ⟨_, List.mem_singleton_self _, rfl⟩
  | name => exact Or.inl ⟨_, List.mem_cons_of_mem _ (List.mem_singleton_self _), rfl⟩
  | file directory name text hwrite => exact Or.inr (Action.writeNewText_eq_error hwrite)

theorem FailsAfterSearch.occupied (h : FailsAfterSearch config world' failure after)
    {directory name : String} {bytes : List UInt8}
    (hdirectory : ⟨.makeDirectory config.artifactDir, .ok (.text directory)⟩ ∈ after)
    (hname : ⟨.uniqueFilename, .ok (.text name)⟩ ∈ after)
    (hthere : world'.tree.readText world'.workingDirectory
      (Path.join directory (name ++ ".json")) = .ok bytes) : failure = .file .occupied := by
  cases h with
  | directory => simp at hname
  | name => simp at hname
  | file directory' name' text hwrite =>
      obtain rfl : directory = directory' := by simpa using hdirectory
      obtain rfl : name = name' := by simpa using hname
      rw [Action.writeNewText_of_readText hthere] at hwrite
      cases hwrite
      rfl

/-- The calls to build objects are neither for a directory nor for a name. -/
theorem StoreCall.Follow.not_mem_build {result : Except Failure ModelObjects}
    {calls : List StoreCall}
    (h : StoreCall.Follow broker (buildRequests broker names stageDir) result calls)
    {request : StoreRequest}
    (hrequest : (∃ directory, request = .makeDirectory directory) ∨ request = .uniqueFilename) :
    request ∉ calls.map StoreCall.request :=
  fun hmem => not_mem_buildRequests hrequest (h.made.subset hmem)

/-- A deployment that fails on its models fails cleanly. -/
theorem failsCleanly_of_build {calls : List StoreCall}
    (hadds : World.AddsDirectories world world')
    (h : StoreCall.Follow broker (buildRequests broker names stageDir)
      (.error failure : Except Failure ModelObjects) calls) :
    FailsCleanly broker names stageDir config world world' calls failure where
  files _ _ := hadds.tree.file_iff
  requests := h.made.trans (List.prefix_append _ _)
  raised call hcall raised hraised := Except.error.inj (h.raised call hcall raised hraised)
  explained := (h.explained failure rfl).imp_right fun hother => hother.imp_right Or.inl
  searched hmade := absurd hmade (h.not_mem_build (Or.inl ⟨_, rfl⟩))
  occupied directory name bytes hdirectory := by
    exact absurd (List.mem_map_of_mem hdirectory) (h.not_mem_build (Or.inl ⟨_, rfl⟩))

/-- A deployment that fails after the search fails cleanly. -/
theorem FailsAfterSearch.failsCleanly (hadds : World.AddsDirectories world world')
    (hfound : StoreCall.Follow broker (buildRequests broker names stageDir)
      (.ok objects : Except Failure ModelObjects) found)
    (h : FailsAfterSearch config world' failure after) :
    FailsCleanly broker names stageDir config world world' (found ++ after) failure := by
  obtain ⟨hrequests, husable⟩ := hfound.finished objects rfl
  have hdirectories := hfound.not_mem_build (Or.inl ⟨config.artifactDir, rfl⟩)
  have hunique := hfound.not_mem_build (Or.inr rfl)
  constructor
  · exact fun _ _ => hadds.tree.file_iff
  · rw [List.map_append, hrequests]
    exact (List.prefix_append_right_inj _).mpr h.made
  · intro call hcall raised hraised
    rcases List.mem_append.mp hcall with hcall | hcall
    · obtain ⟨answer, hanswer⟩ := (husable call hcall).exists_answer
      rw [hanswer] at hraised
      cases hraised
    · exact h.raised call hcall raised hraised
  · rcases h.explained with ⟨call, hcall, hfailed⟩ | hfile
    · exact Or.inl ⟨call, List.mem_append_right _ hcall, hfailed⟩
    · exact Or.inr (Or.inr (Or.inr hfile))
  · intro _
    refine ⟨?_, fun subject answer hcall => ?_⟩
    · rw [List.map_append, hrequests]
      exact (List.sublist_append_right _ _).trans (List.sublist_append_left _ _)
    · rcases List.mem_append.mp hcall with hcall | hcall
      · exact husable _ hcall
      · have hrequest := h.made.subset (List.mem_map_of_mem hcall)
        simp at hrequest
  · intro directory name bytes hdirectory hname hthere
    refine h.occupied ?_ ?_ hthere
    · exact (List.mem_append.mp hdirectory).resolve_left fun hcall =>
        hdirectories (List.mem_map_of_mem hcall)
    · exact (List.mem_append.mp hname).resolve_left fun hcall =>
        hunique (List.mem_map_of_mem hcall)

end

/--
A deployment that fails, with whatever store, leaves the job and all files as they were.
The calls that it made of the store are the beginning of one list of requests, and what
the store failed with is what the deployment fails with.
-/
theorem Job.failsCleanly_of_deploy_error {store : DataStore σ} (hadds : store.AddsDirectories)
    (hanswers : store.AnswersRecords) {broker : Option Broker}
    (hbroker : ∀ b ∈ broker, b.ShowsFields) {config : Config} {world world' : World σ}
    {job job' : Job} {failure : Failure}
    (h : deploy store broker config (world, job) = (.error failure, (world', job'))) :
    job' = job ∧ ∃ names stageDir objectsPath calls,
      job.role = .domain names stageDir objectsPath ∧
      deploy store.recorded broker config (world.recording [], job) =
        (.error failure, (world'.recording calls, job)) ∧
      FailsCleanly broker names stageDir config world world' calls failure := by
  rcases deploy_cases store broker config world job with
    ⟨_, hrun⟩ | ⟨names, stageDir, objectsPath, result, state, hrole, hdomains, hrun⟩
  · rw [hrun] at h
    cases h
  rw [hrun] at h
  cases result with
  | ok path => cases h
  | error failure' =>
      cases h
      obtain ⟨rfl, hworld, calls, hrecorded, hcalls⟩ :=
        deployDomains_error_calls hadds hanswers hbroker hdomains
      have hdeploy : deploy store.recorded broker config (world.recording [], job') =
          (.error failure, (world'.recording calls, job')) := by
        rcases deploy_cases store.recorded broker config (world.recording []) job' with
          ⟨hother, _⟩ | ⟨names', stageDir', objectsPath', result', state', hrole', hdomains', hrun'⟩
        · exact absurd hrole (hother _ _ _)
        · rw [hrole] at hrole'
          cases hrole'
          rw [hrecorded] at hdomains'
          cases hdomains'
          exact hrun'
      refine ⟨rfl, names, stageDir, objectsPath, calls, hrole, hdeploy, ?_⟩
      rcases hcalls with hbuild | ⟨objects, found, after, rfl, hfound, hafter⟩
      · exact failsCleanly_of_build hworld hbuild
      · exact hafter.failsCleanly hworld hfound

/-! ## A file in the way -/

namespace DataStore

/-- A store that always names the same file, with one model for every domain. -/
def withOneName : DataStore Unit where
  rootPath := "/"
  candidatePath := pure "/candidates"
  search subject _ _ := pure [.table [("domain_name", .text subject), ("file", .text "m.pt"),
    ("uq_type", .text "random"), ("threshold", .number 1)]]
  makeDirectory _ := do
    Action.makeDirectory ["store"]
    return "/store"
  uniqueFilename := pure "objects"

theorem addsDirectories_withOneName : withOneName.AddsDirectories where
  candidatePath := .of_keeps (Operation.keeps_pure _)
  search _ _ _ := .of_keeps (Operation.keeps_pure _)
  makeDirectory _ := by
    refine Action.AddsDirectories.bind ?_ fun _ => .of_keeps (Operation.keeps_pure _)
    intro world
    rcases hrun : Action.makeDirectory ["store"] world with ⟨_ | done, world'⟩
    · rw [Action.eq_of_onTree_error hrun]
      exact .refl world
    · obtain ⟨tree, htree, rfl⟩ := Action.onTree_eq_ok_iff.mp hrun
      exact ⟨FileTree.addsDirectories_of_makeDirectory htree, rfl⟩
  uniqueFilename := .of_keeps (Operation.keeps_pure _)

theorem answersRecords_withOneName : withOneName.AnswersRecords := by
  intro subject entry version world records world' h record hrecord
  cases h
  obtain rfl := List.mem_singleton.mp hrecord
  exact ⟨⟨_, _, rfl⟩, ⟨"m.pt", rfl⟩, Or.inr ⟨"random", rfl⟩, Or.inr ⟨1, rfl⟩⟩

end DataStore

/-- A world in which the one file that is named is there already. -/
def World.withOneFile : World Unit where
  tree := (FileTree.empty.put ["store"] .directory).put ["store", "objects.json"] (.file [])
  workingDirectory := []
  store := ()

theorem Job.failsCleanly_of_deploy_error_withOneFile :
    DataStore.withOneName.AddsDirectories ∧ DataStore.withOneName.AnswersRecords ∧
      (∀ b ∈ (none : Option Broker), b.ShowsFields) ∧ ∃ world' job',
      deploy DataStore.withOneName none {} (World.withOneFile, withNumber 1) =
        (.error (.file .occupied), (world', job')) ∧
      job' = withNumber 1 ∧ ∃ names stageDir objectsPath calls,
        (withNumber 1).role = .domain names stageDir objectsPath ∧
        deploy DataStore.withOneName.recorded none {}
            (World.withOneFile.recording [], withNumber 1) =
          (.error (.file .occupied), (world'.recording calls, withNumber 1)) ∧
        FailsCleanly none names stageDir {} World.withOneFile world' calls (.file .occupied) := by
  have hbroker : ∀ b ∈ (none : Option Broker), b.ShowsFields := by simp
  have hfails : (deploy DataStore.withOneName none {} (World.withOneFile, withNumber 1)).1 =
      .error (.file .occupied) := by decide +kernel
  rcases hrun : deploy DataStore.withOneName none {} (World.withOneFile, withNumber 1) with
    ⟨result, world', job'⟩
  rw [hrun] at hfails
  cases hfails
  exact ⟨DataStore.addsDirectories_withOneName, DataStore.answersRecords_withOneName, hbroker,
    world', job', rfl, failsCleanly_of_deploy_error DataStore.addsDirectories_withOneName
      DataStore.answersRecords_withOneName hbroker hrun⟩

end Dispatch
