import Dispatch.Proofs.Store.Interface

/-!
# What deployments ask of a store

A recorded store does what the store does, and keeps a list of what it was asked and what
it answered.  `Records` compares an operation on a store with the same operation on the
recorded one: the result is the same, and the calls follow a list of requests, in its
order and without a gap, up to the call that failed.
-/

namespace Dispatch

/-- What can be asked of a store. -/
inductive StoreRequest
  | candidatePath
  | search (subject : String) (entry : StoreEntry) (version : StoreVersion)
  | makeDirectory (directory : String)
  | uniqueFilename
deriving DecidableEq

/-- What a store can answer. -/
inductive StoreAnswer
  | text (content : String)
  | records (found : List Value)

/-- A request with what came of it. -/
structure StoreCall where
  request : StoreRequest
  answer : Except Failure StoreAnswer

variable {σ α β : Type}

/-- A world in which calls have been recorded. -/
def World.recording (world : World σ) (calls : List StoreCall) : World (σ × List StoreCall) where
  tree := world.tree
  workingDirectory := world.workingDirectory
  store := (world.store, calls)

/-- An operation of a store whose calls are recorded. -/
def Action.recorded (action : Action σ α) (request : StoreRequest) (answer : α → StoreAnswer) :
    Action (σ × List StoreCall) α :=
  fun world =>
    let (result, world') := action ⟨world.tree, world.workingDirectory, world.store.1⟩
    (result, world'.recording (world.store.2 ++ [⟨request, result.map answer⟩]))

/-- A store that does the same and records its calls. -/
def DataStore.recorded (store : DataStore σ) : DataStore (σ × List StoreCall) where
  rootPath := store.rootPath
  candidatePath := store.candidatePath.recorded .candidatePath .text
  search subject entry version :=
    (store.search subject entry version).recorded (.search subject entry version) .records
  makeDirectory directory :=
    (store.makeDirectory directory).recorded (.makeDirectory directory) .text
  uniqueFilename := store.uniqueFilename.recorded .uniqueFilename .text

theorem Action.recorded_of_run {action : Action σ α} {world world' : World σ}
    {result : Except Failure α} (h : action world = (result, world')) (request : StoreRequest)
    (answer : α → StoreAnswer) (calls : List StoreCall) :
    action.recorded request answer (world.recording calls) =
      (result, world'.recording (calls ++ [⟨request, result.map answer⟩])) := by
  have hsame : (⟨world.tree, world.workingDirectory, world.store⟩ : World σ) = world := rfl
  simp only [Action.recorded, World.recording, hsame, h]

/-- Writing a new file does not depend on the store. -/
theorem Action.writeNewText_recording {path text : String} {world world' : World σ}
    {result : Except Failure Unit} (h : writeNewText path text world = (result, world'))
    (calls : List StoreCall) :
    writeNewText path text (world.recording calls) = (result, world'.recording calls) := by
  simp only [writeNewText, onTree, World.recording] at h ⊢
  split at h
  next =>
    cases h
    rfl
  next =>
    cases h
    rfl

namespace DataStore

variable {store : DataStore σ} {world world' : World σ}

theorem recorded_search {subject : String} {entry : StoreEntry} {version : StoreVersion}
    {result : Except Failure (List Value)}
    (h : store.search subject entry version world = (result, world')) (calls : List StoreCall) :
    store.recorded.search subject entry version (world.recording calls) =
      (result, world'.recording
        (calls ++ [⟨.search subject entry version, result.map .records⟩])) :=
  Action.recorded_of_run h _ _ calls

theorem recorded_makeDirectory {directory : String} {result : Except Failure String}
    (h : store.makeDirectory directory world = (result, world')) (calls : List StoreCall) :
    store.recorded.makeDirectory directory (world.recording calls) =
      (result, world'.recording (calls ++ [⟨.makeDirectory directory, result.map .text⟩])) :=
  Action.recorded_of_run h _ _ calls

theorem recorded_uniqueFilename {result : Except Failure String}
    (h : store.uniqueFilename world = (result, world')) (calls : List StoreCall) :
    store.recorded.uniqueFilename (world.recording calls) =
      (result, world'.recording (calls ++ [⟨.uniqueFilename, result.map .text⟩])) :=
  Action.recorded_of_run h _ _ calls

end DataStore

/-! ## Following a list of requests -/

/-- A record that says how the uncertainty of a model is found and what the threshold is. -/
def IsCompleteModel (record : Value) : Prop :=
  record.member "uq_type" ≠ .missing ∧ record.member "threshold" ≠ .missing

namespace Broker

variable {broker : Broker}

theorem shown_eq_ok_iff {settings : Dict Value} :
    broker.shown = .ok settings ↔ broker.descriptor true = .ok settings := by
  rw [shown]
  cases broker.descriptor true <;> simp [Except.mapError]

/-- A broker that cannot say what it shows reports so in its own words. -/
theorem exists_of_shown_eq_error {failure : Failure} (h : broker.shown = .error failure) :
    ∃ message, broker.descriptor true = .error message ∧ failure = .brokerReported message := by
  rw [shown] at h
  cases hdescriptor : broker.descriptor true with
  | error message =>
      rw [hdescriptor] at h
      cases h
      exact ⟨message, rfl, rfl⟩
  | ok settings =>
      rw [hdescriptor] at h
      cases h

end Broker

namespace StoreCall

/-- A call that was answered, a search with records of which the first is of a complete model. -/
def IsUsable (call : StoreCall) : Prop :=
  match call.request with
  | .search _ _ _ => ∃ records, call.answer = .ok (.records records) ∧
      ∀ record ∈ records.head?, IsCompleteModel record
  | _ => ∃ content, call.answer = .ok (.text content)

theorem IsUsable.exists_answer {call : StoreCall} (h : call.IsUsable) :
    ∃ answer, call.answer = .ok answer := by
  unfold IsUsable at h
  split at h
  next => exact ⟨_, h.choose_spec.1⟩
  next => exact ⟨_, h.choose_spec⟩

/-- Calls that were made for requests, with a broker at hand, and that led to a result. -/
structure Follow (broker : Option Broker) (requests : List StoreRequest)
    (result : Except Failure α) (calls : List StoreCall) : Prop where
  made : calls.map request <+: requests
  /-- The failure of a call is the failure of the whole. -/
  raised : ∀ call ∈ calls, ∀ failure, call.answer = .error failure → result = .error failure
  /-- No other failure is possible than that of a call, for want of a complete model, or of the
  broker. -/
  explained : ∀ failure, result = .error failure →
    (∃ call ∈ calls, call.answer = .error failure) ∨
      (∃ model subject, failure = .incompleteModel model subject) ∨
        ∃ b ∈ broker, ∃ message, b.descriptor true = .error message ∧
          failure = .brokerReported message
  finished : ∀ a, result = .ok a → calls.map request = requests ∧ ∀ call ∈ calls, call.IsUsable

variable {broker : Option Broker}

theorem follow_nil (a : α) : Follow broker [] (.ok a : Except Failure α) [] where
  made := List.prefix_refl _
  raised := by simp
  explained := by simp
  finished := by simp

/-- A broker is not asked through the store. -/
theorem follow_shown {b : Broker} (hb : b ∈ broker) :
    Follow broker [] b.shown [] where
  made := List.prefix_refl _
  raised := by simp
  explained _ hfailure := Or.inr (Or.inr ⟨b, hb, Broker.exists_of_shown_eq_error hfailure⟩)
  finished := by simp

theorem Follow.of_error {requests more : List StoreRequest} {failure : Failure}
    {calls : List StoreCall}
    (h : Follow broker requests (.error failure : Except Failure α) calls) :
    Follow broker (requests ++ more) (.error failure : Except Failure β) calls where
  made := h.made.trans (List.prefix_append _ _)
  raised call hcall failure' hfailed := by
    rw [Except.error.inj (h.raised call hcall failure' hfailed)]
  explained failure' hresult := by
    obtain rfl := Except.error.inj hresult
    exact h.explained failure rfl
  finished _ hresult := nomatch hresult

theorem Follow.append {requests more : List StoreRequest} {a : α} {result : Except Failure β}
    {calls calls' : List StoreCall} (h : Follow broker requests (.ok a : Except Failure α) calls)
    (h' : Follow broker more result calls') :
    Follow broker (requests ++ more) result (calls ++ calls') := by
  obtain ⟨hrequests, husable⟩ := h.finished a rfl
  constructor
  · rw [List.map_append, hrequests]
    exact (List.prefix_append_right_inj requests).mpr h'.made
  · intro call hcall failure hfailed
    rcases List.mem_append.mp hcall with hcall | hcall
    · obtain ⟨answer, hanswer⟩ := (husable call hcall).exists_answer
      rw [hanswer] at hfailed
      cases hfailed
    · exact h'.raised call hcall failure hfailed
  · intro failure hresult
    rcases h'.explained failure hresult with ⟨call, hcall, hfailed⟩ | hother
    · exact Or.inl ⟨call, List.mem_append_right _ hcall, hfailed⟩
    · exact Or.inr hother
  · intro b hresult
    obtain ⟨hrequests', husable'⟩ := h'.finished b hresult
    rw [List.map_append, hrequests, hrequests']
    exact ⟨rfl, fun call hcall => (List.mem_append.mp hcall).elim (husable call) (husable' call)⟩

/-- The one call of an operation that answers a text. -/
theorem follow_singleton {request : StoreRequest}
    (hrequest : ∀ subject entry version, request ≠ .search subject entry version)
    (result : Except Failure String) :
    Follow broker [request] result [⟨request, result.map .text⟩] := by
  constructor
  · exact List.prefix_refl _
  · intro call hcall failure hfailed
    rw [List.mem_singleton.mp hcall] at hfailed
    cases result with
    | error failure' => exact congrArg _ (Except.error.inj hfailed)
    | ok content => cases hfailed
  · rintro failure rfl
    exact Or.inl ⟨_, List.mem_singleton_self _, rfl⟩
  · rintro content rfl
    refine ⟨rfl, List.forall_mem_singleton.mpr ?_⟩
    cases request with
    | search subject entry version => exact absurd rfl (hrequest subject entry version)
    | _ => exact ⟨content, rfl⟩

end StoreCall

/-! ## Operations of recorded stores -/

open StoreCall (Follow follow_nil follow_shown follow_singleton)

/-- The second operation does what the first does, and records calls for the requests. -/
def Records (broker : Option Broker) (requests : List StoreRequest) (action : Action σ α)
    (recorded : Action (σ × List StoreCall) α) : Prop :=
  ∀ world log, ∃ calls, Follow broker requests (action world).1 calls ∧
    recorded (world.recording log) = ((action world).1, (action world).2.recording (log ++ calls))

variable {broker : Option Broker}

theorem records_pure (a : α) : Records broker [] (pure a : Action σ α) (pure a) := by
  intro world log
  exact ⟨[], follow_nil a, by rw [List.append_nil]; rfl⟩

theorem records_shown {b : Broker} (hb : b ∈ broker) :
    Records broker [] (Action.ofExcept b.shown : Action σ (Dict Value))
      (Action.ofExcept b.shown) := by
  intro world log
  exact ⟨[], follow_shown hb, by rw [List.append_nil]; rfl⟩

theorem Records.bind {requests more : List StoreRequest} {first : Action σ α}
    {next : α → Action σ β} {first' : Action (σ × List StoreCall) α}
    {next' : α → Action (σ × List StoreCall) β} (hfirst : Records broker requests first first')
    (hnext : ∀ a, Records broker more (next a) (next' a)) :
    Records broker (requests ++ more) (first >>= next) (first' >>= next') := by
  intro world log
  obtain ⟨calls, hcalls, hrun'⟩ := hfirst world log
  rcases hrun : first world with ⟨failure | a, world'⟩
  · rw [hrun] at hcalls hrun'
    rw [Operation.bind_of_error hrun, Operation.bind_of_error hrun']
    exact ⟨calls, hcalls.of_error, rfl⟩
  · rw [hrun] at hcalls hrun'
    obtain ⟨calls', hcalls', hnext'⟩ := hnext a world' (log ++ calls)
    rw [Operation.bind_of_ok hrun, Operation.bind_of_ok hrun', hnext', List.append_assoc]
    exact ⟨calls ++ calls', hcalls.append hcalls', rfl⟩

theorem records_mapM {request : α → StoreRequest} {f : α → Action σ β}
    {f' : α → Action (σ × List StoreCall) β}
    (hf : ∀ a, Records broker [request a] (f a) (f' a)) (l : List α) :
    Records broker (l.map request) (l.mapM f) (l.mapM f') := by
  induction l with
  | nil => exact records_pure []
  | cons a rest ih =>
      have hrest (b : β) : Records broker (rest.map request) (do return b :: (← rest.mapM f))
          (do return b :: (← rest.mapM f')) := by
        have hreturn := ih.bind fun bs => records_pure (σ := σ) (b :: bs)
        rwa [List.append_nil] at hreturn
      rw [List.mapM_cons, List.mapM_cons]
      exact (hf a).bind hrest

/-! ## Looking up models -/

/-- A record as stores are to answer it. -/
structure IsStoreRecord (record : Value) : Prop where
  object : ∃ kind members, record = .object kind members
  file : ∃ path, record.member "file" = .text path
  uqType : record.member "uq_type" = .missing ∨ ∃ name, record.member "uq_type" = .text name
  threshold : record.member "threshold" = .missing ∨ ∃ x, record.member "threshold" = .number x

/-- A store that answers searches with records, if it answers them. -/
def DataStore.AnswersRecords (store : DataStore σ) : Prop :=
  ∀ subject entry version world records world',
    store.search subject entry version world = (.ok records, world') →
    ∀ record ∈ records, IsStoreRecord record

namespace ModelEntry

theorem ofRecord_eq_ok {subject : String} {record : Value} {entry : ModelEntry}
    (h : ofRecord subject record = .ok entry) :
    IsCompleteModel record ∧ entry =
      ⟨record.member "uq_type", record.member "file", record.member "threshold", subject⟩ := by
  rw [ofRecord] at h
  split at h
  next => split at h <;> cases h
  next => split at h <;> cases h
  next huqType hthreshold =>
    cases h
    exact ⟨⟨huqType, hthreshold⟩, rfl⟩

/-- Only a record without a complete model has no entry, and the failure names its file. -/
theorem ofRecord_eq_error {subject : String} {record : Value} {failure : Failure}
    (hrecord : IsStoreRecord record) (h : ofRecord subject record = .error failure) :
    ¬IsCompleteModel record ∧ ∃ file, record.member "file" = .text file ∧
      failure = .incompleteModel file subject := by
  obtain ⟨file, hfile⟩ := hrecord.file
  have htext : (record.member "file").text? = some file := by rw [hfile]; rfl
  rw [ofRecord] at h
  simp only [htext] at h
  split at h
  next hmissing => exact ⟨fun hcomplete => hcomplete.1 hmissing, file, hfile, by cases h; rfl⟩
  next hmissing _ => exact ⟨fun hcomplete => hcomplete.2 hmissing, file, hfile, by cases h; rfl⟩
  next => cases h

/-- Without a record an entry is that of data gathering, and otherwise of the first record. -/
theorem ofRecords_cases (subject : String) {records : List Value}
    (hrecords : ∀ record ∈ records, IsStoreRecord record) :
    (records = [] ∧ ofRecords subject records = .ok (dataGathering subject)) ∨
      ∃ record rest, records = record :: rest ∧ IsStoreRecord record ∧
        ofRecords subject records = ofRecord subject record := by
  cases records with
  | nil => exact Or.inl ⟨rfl, rfl⟩
  | cons record rest =>
      have hrecord := hrecords record (by simp)
      obtain ⟨kind, members, rfl⟩ := hrecord.object
      exact Or.inr ⟨_, rest, rfl, hrecord, rfl⟩

end ModelEntry

/-- The call of a search whose records have been made an entry, or could not be. -/
theorem follow_ofRecords {subject : String} {records : List Value}
    (hrecords : ∀ record ∈ records, IsStoreRecord record) (entry : StoreEntry)
    (version : StoreVersion) :
    Follow broker [.search subject entry version] (ModelEntry.ofRecords subject records)
      [⟨.search subject entry version, .ok (.records records)⟩] := by
  constructor
  · exact List.prefix_refl _
  · intro call hcall failure hfailed
    rw [List.mem_singleton.mp hcall] at hfailed
    cases hfailed
  · intro failure hfailure
    refine Or.inr (Or.inl ?_)
    rcases ModelEntry.ofRecords_cases subject hrecords with
      ⟨_, hgathering⟩ | ⟨record, rest, _, hrecord, hfirst⟩
    · rw [hgathering] at hfailure
      cases hfailure
    · rw [hfirst] at hfailure
      obtain ⟨_, file, _, hnamed⟩ := ModelEntry.ofRecord_eq_error hrecord hfailure
      exact ⟨file, subject, hnamed⟩
  · intro found hfound
    refine ⟨rfl, List.forall_mem_singleton.mpr ⟨records, rfl, ?_⟩⟩
    rcases ModelEntry.ofRecords_cases subject hrecords with
      ⟨rfl, _⟩ | ⟨record, rest, rfl, _, hfirst⟩
    · simp
    · rw [hfirst] at hfound
      rintro first ⟨⟩
      exact (ModelEntry.ofRecord_eq_ok hfound).1

/-- The entry of a domain from the newest model that a store has for it. -/
def ModelObjects.lookUp (store : DataStore σ) (name : String) : Action σ ModelEntry := do
  let records ← store.search name .models .latest
  Action.ofExcept (ModelEntry.ofRecords name records)

section

variable {store : DataStore σ} (hstore : store.AnswersRecords)

include hstore

theorem records_lookUp (subject : String) : Records broker [.search subject .models .latest]
    (ModelObjects.lookUp store subject) (ModelObjects.lookUp store.recorded subject) := by
  intro world log
  rw [ModelObjects.lookUp, ModelObjects.lookUp]
  rcases hrun : store.search subject .models .latest world with ⟨failure | records, world'⟩
  · rw [Operation.bind_of_error hrun,
      Operation.bind_of_error (DataStore.recorded_search hrun log)]
    refine ⟨_, ⟨List.prefix_refl _, ?_, ?_, fun a ha => nomatch ha⟩, rfl⟩
    · intro call hcall failure' hfailed
      rw [List.mem_singleton.mp hcall] at hfailed
      rw [Except.error.inj hfailed]
    · rintro failure' ⟨⟩
      exact Or.inl ⟨_, List.mem_singleton_self _, rfl⟩
  · rw [Operation.bind_of_ok hrun, Operation.bind_of_ok (DataStore.recorded_search hrun log)]
    exact ⟨_, follow_ofRecords (hstore _ _ _ _ _ _ hrun) .models .latest, rfl⟩

/-- What is asked of a store to build the objects for domains, in this order. -/
def buildRequests (broker : Option Broker) (names : List String) (stageDir : Option String) :
    List StoreRequest :=
  (if broker.isNone ∧ stageDir.isNone then [.candidatePath] else []) ++
    names.map (.search · .models .latest)

theorem records_build (broker : Option Broker) (names : List String) (stageDir : Option String) :
    Records broker (buildRequests broker names stageDir)
      (ModelObjects.build store broker names stageDir)
      (ModelObjects.build store.recorded broker names stageDir) := by
  have hentries : Records broker (names.map (.search · .models .latest))
      (names.mapM (ModelObjects.lookUp store)) (names.mapM (ModelObjects.lookUp store.recorded)) :=
    records_mapM (records_lookUp hstore) names
  have htarget : Records broker (if broker.isNone ∧ stageDir.isNone then [.candidatePath] else [])
      (SampleTarget.choose store broker stageDir)
      (SampleTarget.choose store.recorded broker stageDir) := by
    cases broker with
    | some b => exact (records_shown rfl).bind fun settings => records_pure _
    | none =>
        cases stageDir with
        | some directory => exact records_pure _
        | none =>
            have hpath : Records none [.candidatePath] store.candidatePath
                store.recorded.candidatePath := fun world log =>
              ⟨_, follow_singleton (by simp) _, Action.recorded_of_run rfl _ _ log⟩
            exact hpath.bind fun path => records_pure _
  refine htarget.bind fun target => ?_
  have hreturn := hentries.bind fun entries => records_pure (ModelObjects.mk target entries)
  rwa [List.append_nil] at hreturn

end

end Dispatch
