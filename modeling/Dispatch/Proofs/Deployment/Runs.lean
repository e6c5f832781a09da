import Dispatch.Proofs.Deployment.Artifacts
import Dispatch.Proofs.Job.Preparation

/-!
# Deployments along a session

A session that starts without a ledger adds models and deploys jobs in any order.  Each
deployment leaves a file of its own that shows the newest models of the moment, and it is
never touched again, whatever is added or deployed later.

The invariant is `HoldsAdditions`: as long as the ledger can be loaded, it holds the
documents of all records that were added.  Nothing is asked of the records' thresholds, of
the names of domains, or of how many records there are; an addition that leaves the ledger
unreadable makes the deployments after it fail.
-/

namespace Dispatch

open Ledger

namespace LedgerStore

/-! ## What spares the ledger -/

/-- The second tree has the directories of the first, and its ledger if that is a file. -/
structure SparesLedger (store : LedgerStore) (tree tree' : FileTree) : Prop where
  ledger : ∀ bytes, tree'.get? store.ledgerFile = some (.file bytes) ↔
    tree.get? store.ledgerFile = some (.file bytes)
  kept : ∀ path, tree.get? path = some .directory → tree'.get? path = some .directory

section

variable {store : LedgerStore} {tree tree' tree'' : FileTree}

theorem SparesLedger.of_addsDirectories (h : FileTree.AddsDirectories tree tree') :
    store.SparesLedger tree tree' where
  ledger _ := h.file_iff
  kept _ hdirectory := h.get?_eq hdirectory

theorem SparesLedger.refl (store : LedgerStore) (tree : FileTree) :
    store.SparesLedger tree tree :=
  .of_addsDirectories (.refl tree)

theorem SparesLedger.trans (h : store.SparesLedger tree tree')
    (h' : store.SparesLedger tree' tree'') : store.SparesLedger tree tree'' where
  ledger bytes := (h'.ledger bytes).trans (h.ledger bytes)
  kept path hdirectory := h'.kept path (h.kept path hdirectory)

theorem sparesLedger_put {place : List String} (hne : place ≠ [])
    (hnone : tree.get? place = none) (hother : store.ledgerFile ≠ place) (node : FileNode) :
    store.SparesLedger tree (tree.put place node) where
  ledger bytes := by rw [FileTree.get?_put tree place node _ hne, if_neg hother]
  kept path hdirectory := by
    rw [FileTree.get?_put tree place node _ hne, if_neg, hdirectory]
    rintro rfl
    rw [hnone] at hdirectory
    cases hdirectory

end

/-- A deployment spares the ledger, whichever directory it is made in. -/
theorem sparesLedger_deploy (store : LedgerStore) (broker : Option Broker) (config : Config)
    (world : World Devices) (job : Job) :
    store.SparesLedger world.tree
      (Job.deploy store.toDataStore broker config (world, job)).2.1.tree := by
  cases Job.leavesFiles_deploy store broker config world job with
  | unchanged hsame =>
      rw [hsame]
      exact .refl store _
  | directory _ hmade =>
      exact .of_addsDirectories (FileTree.addsDirectories_of_makeDirectory hmade)
  | file _ hmade hplace hne hnone htree =>
      have hadds := FileTree.addsDirectories_of_makeDirectory hmade
      rw [htree]
      exact (SparesLedger.of_addsDirectories hadds).trans
        (sparesLedger_put hne hnone (ledgerFile_ne_of_locateText store hplace) _)

theorem addsDirectories_of_save_error {store : LedgerStore} {ledger : Value}
    {world world' : World Devices} {failure : Failure}
    (h : store.save ledger world = (.error failure, world')) :
    FileTree.AddsDirectories world.tree world'.tree := by
  rcases Operation.bind_eq_error_iff.mp h with hmade | ⟨done, between, hmade, hrest⟩
  · rw [Action.eq_of_onTree_error hmade]
    exact .refl _
  obtain ⟨made, hmakes, rfl⟩ := Action.onTree_eq_ok_iff.mp hmade
  have hadds := FileTree.addsDirectories_of_makeDirectory hmakes
  rcases Operation.bind_eq_error_iff.mp hrest with htext | ⟨text, last, htext, hwrite⟩
  · rw [(Action.keeps_ofExcept _).eq_of_run htext]
    exact hadds
  · obtain ⟨_, rfl⟩ := Action.ofExcept_eq_ok_iff.mp htext
    rw [Action.eq_of_onTree_error hwrite]
    exact hadds

/-- An addition that fails has at most made the root. -/
theorem sparesLedger_of_add_error {store : LedgerStore} {entry : StoreEntry} {subject : String}
    {record : Dict Value} {world world' : World Devices} {failure : Failure}
    (h : store.add entry subject record world = (.error failure, world')) :
    store.SparesLedger world.tree world'.tree := by
  rcases Operation.bind_eq_error_iff.mp h with hprepare | ⟨prepared, between, hprepare, hrest⟩
  · have hkept := (store.prepareAdd_keeps_tree entry subject record world).1
    rw [hprepare] at hkept
    rw [hkept]
    exact .refl store _
  have hkept := (store.prepareAdd_keeps_tree entry subject record world).1
  rw [hprepare] at hkept
  rw [← hkept]
  rcases Operation.bind_eq_error_iff.mp hrest with hsave | ⟨done, last, _, hanswer⟩
  · exact .of_addsDirectories (addsDirectories_of_save_error hsave)
  · cases hanswer

end LedgerStore

namespace Session

/-! ## The invariant -/

/-- As long as the ledger can be loaded, it holds the documents of the additions. -/
structure HoldsAdditions (session : Session) : Prop where
  names : ∀ name ∈ session.store.root, Path.IsComponent name
  ascending : IsAscendingLog session.added
  /-- The file of the ledger is in the root and holds the documents, if it is a ledger. -/
  held : ∀ bytes, session.world.tree.get? session.store.ledgerFile = some (.file bytes) →
    session.world.tree.IsDirectory session.store.root ∧
      ∀ ledger, ofText session.store.ledgerPath (Utf8.decode bytes) = .ok ledger →
        HoldsDocuments ledger session.added
  /-- Without that file nothing was added. -/
  empty : (∀ bytes, session.world.tree.get? session.store.ledgerFile ≠ some (.file bytes)) →
    session.added = fun _ _ => []

variable {session session' : Session}

/-- What is loaded holds the documents of the additions. -/
theorem HoldsAdditions.holdsDocuments (h : session.HoldsAdditions) {ledger : Value}
    (hledger : session.store.ledgerIn session.world.tree = .ok ledger) :
    HoldsDocuments ledger session.added := by
  rw [LedgerStore.ledgerIn] at hledger
  split at hledger
  next bytes hread => exact (h.held bytes (FileTree.read_eq_ok_iff.mp hread).2).2 ledger hledger
  next hread =>
    cases hledger
    rw [h.empty fun bytes hfile => ?_]
    · exact holdsDocuments_empty
    · have hthere := FileTree.read_eq_ok_iff.mpr ⟨(h.held bytes hfile).1, hfile⟩
      rw [LedgerStore.ledgerFile, hthere] at hread
      cases hread
  next => cases hledger

theorem HoldsAdditions.of_sparesLedger (h : session.HoldsAdditions)
    (hstore : session'.store = session.store) (hadded : session'.added = session.added)
    (hspares : session.store.SparesLedger session.world.tree session'.world.tree) :
    session'.HoldsAdditions := by
  constructor
  · rw [hstore]
    exact h.names
  · rw [hadded]
    exact h.ascending
  · rw [hstore, hadded]
    intro bytes hfile
    obtain ⟨hroot, hheld⟩ := h.held bytes ((hspares.ledger bytes).mp hfile)
    exact ⟨fun above habove => hspares.kept above (hroot above habove), hheld⟩
  · rw [hstore, hadded]
    intro hnone
    exact h.empty fun bytes hfile => hnone bytes ((hspares.ledger bytes).mpr hfile)

/-- An addition that fails leaves the log as it was. -/
theorem added_perform_add_error {entry : StoreEntry} {subject : String} {given : Dict Value}
    {failure : Failure} {world' : World Devices}
    (hadd : session.store.add entry subject given session.world = (.error failure, world')) :
    (session.perform (.add entry subject given)).added = session.added := by
  funext other name
  simp [added, perform, hadd, Except.toOption]

/-- After an addition the ledger holds one more document, or what it held before. -/
theorem HoldsAdditions.perform_add (h : session.HoldsAdditions) (entry : StoreEntry)
    (subject : String) {given : Dict Value} (hgiven : IsNewRecord given) :
    (session.perform (.add entry subject given)).HoldsAdditions := by
  rcases hadd : session.store.add entry subject given session.world with
    ⟨failure | record, world'⟩
  · have hworld : (session.perform (.add entry subject given)).world = world' := by
      simp only [perform, hadd]
    refine h.of_sparesLedger rfl (added_perform_add_error hadd) ?_
    rw [hworld]
    exact LedgerStore.sparesLedger_of_add_error hadd
  have hworld : (session.perform (.add entry subject given)).world = world' := by
    simp only [perform, hadd]
  have hadded := added_perform_add hadd
  obtain ⟨ledger, records, version, instant, hledger, hrecords, hversion, _, rfl, hsave⟩ :=
    (LedgerStore.add_eq_ok_iff session.store).mp hadd
  have hholds := h.holdsDocuments hledger
  obtain rfl := hholds.eq_documents hrecords
  have hascending := (h.ascending entry subject).concat hgiven hversion instant.isoText
  have hcompleted := hascending.completed _ (List.mem_append_right _ (List.mem_singleton_self _))
  have hvalid := LedgerStore.isLedger_of_ledgerIn hledger
  have htables := hvalid.hasTables.setRecords entry subject _ (isPlain_of_mem_added hvalid
    hrecords hgiven version instant.isoText)
  obtain ⟨reduced, hreduced⟩ := htables.exists_serial
  have hreducedHolds := hholds.concat h.ascending hvalid.hasTables hcompleted hreduced
  obtain ⟨made, text, written, hmade, htext, hwritten, rfl⟩ :=
    (LedgerStore.save_eq_ok_iff session.store).mp hsave
  obtain ⟨text', htext', hread⟩ := ofText_fileText htables.plain hreduced session.store.ledgerPath
  rw [htext] at htext'
  cases htext'
  obtain ⟨hroot, _, rfl⟩ := FileTree.write_eq_ok_iff.mp hwritten
  have hfile (bytes : List UInt8) : (made.put session.store.ledgerFile
      (.file (Utf8.encode text))).get? session.store.ledgerFile = some (.file bytes) ↔
        Utf8.encode text = bytes := by
    rw [LedgerStore.ledgerFile, FileTree.get?_put_concat, if_pos rfl]
    simp
  constructor
  · exact h.names
  · rw [hadded]
    intro other name
    rw [Log.concat]
    split
    next hsame =>
      obtain ⟨rfl, rfl⟩ := hsame
      exact hascending
    next => exact h.ascending other name
  · rw [hworld, hadded]
    intro bytes hbytes
    obtain rfl := (hfile bytes).mp hbytes
    refine ⟨hroot.put _, fun loaded hloaded => ?_⟩
    have hloaded : ofText session.store.ledgerPath (Utf8.decode (Utf8.encode text)) =
        .ok loaded := hloaded
    rw [Utf8.decode_encode, hread] at hloaded
    obtain ⟨_, rfl⟩ := Schema.accepts_of_checkValue hloaded
    exact hreducedHolds
  · rw [hworld]
    intro hnone
    exact absurd ((hfile _).mpr rfl) (hnone _)

/-- Every operation keeps the invariant. -/
theorem HoldsAdditions.perform {operation : StoreOperation} (h : session.HoldsAdditions)
    (hopens : session.Reopens [operation])
    (hnew : ∀ entry subject record, operation = .add entry subject record → IsNewRecord record) :
    (session.perform operation).HoldsAdditions := by
  cases operation with
  | add entry subject record => exact h.perform_add entry subject (hnew _ _ _ rfl)
  | search subject entry version =>
      have hworld : (session.perform (.search subject entry version)).world = session.world := by
        simp only [Session.perform, LedgerStore.search_apply]
      exact h.of_sparesLedger rfl rfl (hworld ▸ .refl _ _)
  | load =>
      have hworld : (session.perform .load).world = session.world := by
        simp only [Session.perform, LedgerStore.load_apply]
      exact h.of_sparesLedger rfl rfl (hworld ▸ .refl _ _)
  | reopen root devices =>
      exact h.of_sparesLedger (hopens root devices (List.mem_singleton_self _)) rfl (.refl _ _)
  | makeDirectory directory =>
      have hadds := session.store.addsDirectories_makeDirectory directory session.world
      exact h.of_sparesLedger rfl rfl (.of_addsDirectories hadds.tree)
  | deploy job broker config =>
      exact h.of_sparesLedger rfl rfl (session.store.sparesLedger_deploy broker config _ job)

end Session

/-! ## Deployments -/

/-- A deployment that succeeded. -/
structure Deployment where
  /-- The path of the objects file. -/
  path : String
  broker : Option Broker
  names : List String
  stageDir : Option String
  /-- The models that had been added for each domain by then. -/
  models : String → List (Dict Value)

namespace Deployment

/-- Where the objects file is. -/
def place (deployment : Deployment) : List String :=
  Path.resolveFrom [] deployment.path

/-- A text shows the domains of the job, each with the newest model that had been added for it. -/
def IsShownBy (deployment : Deployment) (store : LedgerStore) (text : String) : Prop :=
  (∀ b ∈ deployment.broker, b.ShowsRecord) → ∃ shown, Json.read? text = some (.table shown) ∧
    ShowsObjects store deployment.broker deployment.stageDir deployment.names
      (newestOf deployment.models deployment.names) shown

/-- The objects file is in a directory, is not the ledger, and has a text that shows it. -/
structure IsKept (deployment : Deployment) (store : LedgerStore) (tree : FileTree)
    (text : String) : Prop where
  place : ∃ directory name, deployment.place = directory ++ [name]
  apart : deployment.place ≠ store.ledgerFile
  read : tree.read deployment.place = .ok (Utf8.encode text)
  shown : deployment.IsShownBy store text

theorem IsKept.of_confines {deployment : Deployment} {store : LedgerStore}
    {tree tree' : FileTree} {text : String} (h : deployment.IsKept store tree text)
    (hconfines : store.Confines tree tree') : deployment.IsKept store tree' text := by
  obtain ⟨directory, name, hplace⟩ := h.place
  have hread := h.read
  have hapart := h.apart
  rw [hplace] at hread hapart
  exact { h with read := hplace ▸ hconfines.read_eq hapart hread }

end Deployment

namespace Session

/-- The deployment that an operation is, if it is one of a domain job and succeeds. -/
def deployment? (session : Session) : StoreOperation → Option Deployment
  | .deploy job broker config =>
    match job.role,
      (Job.deploy session.store.toDataStore broker config (session.world, job)).1 with
    | .domain names stageDir _, .ok (some path) =>
      some ⟨path, broker, names, stageDir, session.added .models⟩
    | _, _ => none
  | _ => none

/-- The deployments among some operations. -/
def deployments (session : Session) : List StoreOperation → List Deployment
  | [] => []
  | operation :: rest =>
    (session.deployment? operation).toList ++ (session.perform operation).deployments rest

theorem deployment?_of_run {session : Session} {job : Job} {broker : Option Broker}
    {config : Config} {names : List String} {stageDir objectsPath : Option String} {path : String}
    {state : World Devices × Job} (hrole : job.role = .domain names stageDir objectsPath)
    (hrun : Job.deploy session.store.toDataStore broker config (session.world, job) =
      (.ok (some path), state)) : session.deployment? (.deploy job broker config) =
        some ⟨path, broker, names, stageDir, session.added .models⟩ := by
  simp only [deployment?, hrole, hrun]

theorem deployment?_add (session : Session) (entry : StoreEntry) (subject : String)
    (record : Dict Value) : session.deployment? (.add entry subject record) = none :=
  rfl

theorem deployments_append (session : Session) (earlier later : List StoreOperation) :
    session.deployments (earlier ++ later) =
      session.deployments earlier ++ (session.run earlier).deployments later := by
  induction earlier generalizing session with
  | nil => rfl
  | cons operation rest ih =>
      rw [List.cons_append, deployments, deployments, ih, List.append_assoc]
      rfl

variable {session : Session} {operation : StoreOperation} {deployment : Deployment}

/-- A deployment leaves a file of its own that shows the newest models. -/
theorem HoldsAdditions.isKept_of_deployment? (h : session.HoldsAdditions)
    (hdeployment : session.deployment? operation = some deployment) :
    session.world.tree.get? deployment.place = none ∧
      ∃ text, deployment.IsKept session.store (session.perform operation).world.tree text := by
  cases operation with
  | deploy job broker config =>
      rcases hrun : Job.deploy session.store.toDataStore broker config (session.world, job) with
        ⟨result, world', job'⟩
      have hworld : (session.perform (.deploy job broker config)).world = world' := by
        simp only [Session.perform, hrun]
      simp only [deployment?, hrun] at hdeployment
      split at hdeployment
      next names stageDir objectsPath path hrole =>
        cases hdeployment
        obtain ⟨_, hpath, hartifact, _⟩ := Job.hasArtifact_of_deploy h.names hrole hrun
        cases hpath
        obtain ⟨names', stageDir', objectsPath', objects, text, hrole', hbuild, htext, hread,
          hshown⟩ := hartifact.content
        rw [hrole] at hrole'
        cases hrole'
        obtain ⟨name, _, hplace, _⟩ := hartifact.place
        refine ⟨hartifact.fresh, text, ⟨_, _, hplace⟩, hartifact.apart, hworld ▸ hread,
          fun hbroker => ?_⟩
        obtain ⟨found, shown, hfound, hobjects, hshows⟩ := hshown hbroker
        exact ⟨shown, hobjects,
          hshows.newestOf (fun ledger => h.holdsDocuments) h.ascending hfound⟩
      next => cases hdeployment
  | _ => cases hdeployment

/-- Each deployment leaves a file of its own, and the file is kept until the end. -/
theorem HoldsAdditions.isKept_run {operations : List StoreOperation}
    (h : session.HoldsAdditions) (hopens : session.Reopens operations)
    (hnew : ∀ entry subject record, .add entry subject record ∈ operations →
      IsNewRecord record) :
    (∀ d ∈ session.deployments operations, session.world.tree.get? d.place = none ∧
      ∃ text, d.IsKept session.store (session.run operations).world.tree text) ∧
    ((session.deployments operations).map Deployment.place).Nodup := by
  induction operations generalizing session with
  | nil => exact ⟨by simp [deployments], List.nodup_nil⟩
  | cons operation rest ih =>
      obtain ⟨hopensFirst, hopensRest⟩ := hopens.of_cons h.names
      obtain ⟨hstore, hfirst, _⟩ := confines_perform h.names hopensFirst
      have hnext := h.perform hopensFirst fun entry subject record hadd =>
        hnew entry subject record (hadd ▸ List.mem_cons_self)
      obtain ⟨hlater, hnodup⟩ := ih hnext hopensRest fun entry subject record hadd =>
        hnew entry subject record (List.mem_cons_of_mem _ hadd)
      have hrest := (confines_run hnext.names hopensRest).2.1
      rw [hstore] at hlater hrest
      have hbefore : ∀ d ∈ (session.perform operation).deployments rest,
          session.world.tree.get? d.place = none ∧
            ∃ text, d.IsKept session.store (session.run (operation :: rest)).world.tree text :=
        fun d hd => ⟨hfirst.get?_eq_none (hlater d hd).1, (hlater d hd).2⟩
      rw [deployments]
      cases hdeployment : session.deployment? operation with
      | none => exact ⟨hbefore, hnodup⟩
      | some deployment =>
          obtain ⟨hfresh, text, hkept⟩ := h.isKept_of_deployment? hdeployment
          refine ⟨List.forall_mem_cons.mpr ⟨⟨hfresh, text, hkept.of_confines hrest⟩, hbefore⟩, ?_⟩
          refine List.nodup_cons.mpr ⟨fun hmem => ?_, hnodup⟩
          -- The file is there already when the others are still missing.
          obtain ⟨d, hd, hsame⟩ := List.mem_map.mp hmem
          have hmissing := (hlater d hd).1
          have hread := hkept.read
          obtain ⟨directory, name, hplace⟩ := hkept.place
          rw [hplace] at hread hsame
          rw [hsame, (FileTree.read_eq_ok_iff.mp hread).2] at hmissing
          cases hmissing

/-- Without a ledger and without additions there is nothing to hold. -/
theorem IsOpened.holdsAdditions (h : session.IsOpened)
    (hmissing : session.world.tree.get? session.store.ledgerFile = none)
    (hadditions : session.additions = []) : session.HoldsAdditions := by
  have hadded : session.added = fun _ _ => [] := by
    funext entry subject
    simp [added, hadditions]
  constructor
  · exact h.names_root
  · rw [hadded]
    exact fun _ subject => isAscending_nil subject
  · intro bytes hfile
    rw [hmissing] at hfile
    cases hfile
  · exact fun _ => hadded

theorem search_eq_found (session : Session) (subject : String) (entry : StoreEntry)
    (version : StoreVersion) :
    session.store.toDataStore.search subject entry version session.world =
      (session.found entry subject version, session.world) := by
  change session.store.search subject entry version session.world = _
  rw [found, LedgerStore.search_apply]

/--
A domain job that is deployed has a new objects file and points at it.  Where there was no
ledger at first, each deployment of a session has a file of its own.  An application reads
from it the newest models that had been added before, and its text never changes again.
-/
theorem IsOpened.deployments_run_append (h : session.IsOpened) :
    (∀ broker config job names stageDir objectsPath answer world' job',
      job.role = .domain names stageDir objectsPath →
      Job.deploy session.store.toDataStore broker config (session.world, job) =
        (.ok answer, (world', job')) →
      ∃ path, answer = some path ∧
        Job.HasArtifact session.store broker config job session.world world' path ∧
        Job.IsPointedAt path job job') ∧
    (session.world.tree.get? session.store.ledgerFile = none → session.additions = [] →
      ∀ earlier later, session.Reopens (earlier ++ later) →
      (∀ entry subject record, .add entry subject record ∈ earlier ++ later →
        IsNewRecord record) →
      ((session.deployments (earlier ++ later)).map Deployment.place).Nodup ∧
      ∀ d ∈ session.deployments earlier, ∃ text, d.IsShownBy session.store text ∧
        (session.run earlier).world.tree.read d.place = .ok (Utf8.encode text) ∧
        (session.run (earlier ++ later)).world.tree.read d.place = .ok (Utf8.encode text)) := by
  constructor
  · intro broker config job names stageDir objectsPath answer world' job' hrole hdeploy
    exact Job.hasArtifact_of_deploy h.names_root hrole hdeploy
  · intro hmissing hadditions earlier later hopens hnew
    have hheld := h.holdsAdditions hmissing hadditions
    refine ⟨(hheld.isKept_run hopens hnew).2, fun d hd => ?_⟩
    have hopensEarlier : session.Reopens earlier := fun root devices hroot =>
      hopens root devices (List.mem_append_left _ hroot)
    obtain ⟨_, text, hkept⟩ := (hheld.isKept_run hopensEarlier fun entry subject record hadd =>
      hnew entry subject record (List.mem_append_left _ hadd)).1 d hd
    have hconfines := (confines_later h.names_root hopens).2
    exact ⟨text, hkept.shown, hkept.read, (hkept.of_confines hconfines).read⟩

/-- A session with nothing but a directory for a store, in which no two draws are the same. -/
def withDraws : Session where
  store := ⟨["store"]⟩
  world := { inDirectory.world with
    store := { World.fresh.store with random := fun draw => BitVec.ofNat 64 draw } }
  additions := []

/-- The number one half. -/
def half : Number :=
  .ofDecimal false ⟨5, -1⟩

theorem isFinite_half : half.isFinite = true := by
  decide +kernel

theorem settled_half : half.settled = half := by
  decide +kernel

/-- A record of a model that can be used. -/
def usableModel : Dict Value :=
  [("file", .text "model.pt"), ("uq_type", .text "faiss"), ("threshold", .number half)]

/-- A broker with the settings that an application needs and no others. -/
def libraryBroker : Broker :=
  RmqBroker.toBroker ⟨RmqBroker.settingsWith []⟩

/-- A text shows a target, and one model for the domain `a`. -/
def ShowsModel (text : String) (db : Dict Value) (uqType modelPath threshold : Value) : Prop :=
  ∃ models domains model, Json.read? text = some (.table [("db", .table db),
      ("ml_models", .table models), ("domain_models", .table domains)]) ∧
    models.keys = ["model_0"] ∧ models.get? "model_0" = some (.table model) ∧
    domains.get? "a" = some (.text "model_0") ∧ model.get? "db_label" = some (.text "a") ∧
    (Value.table model).member "uq_type" = uqType ∧
    (Value.table model).member "model_path" = modelPath ∧
    (Value.table model).member "threshold" = threshold

/-- What is shown of a job on the domain `a` is one model. -/
theorem exists_showsModel {d : Deployment} {store : LedgerStore} {text : String}
    (h : d.IsShownBy store text) (hbroker : ∀ b ∈ d.broker, b.ShowsRecord)
    (hnames : d.names = ["a"]) : ∃ db model, ShowsTarget store d.broker d.stageDir db ∧
      ModelEntry.Shows "a" (((d.models "a").getLast?.toList.map .table).map Value.asRead) model ∧
      ShowsModel text db ((Value.table model).member "uq_type")
        ((Value.table model).member "model_path") ((Value.table model).member "threshold") := by
  obtain ⟨_, hread, db, models, domains, rfl, htarget, hindexed⟩ := h hbroker
  rw [hnames] at hindexed
  obtain ⟨model, hmodel, hshows⟩ := hindexed.shows 0 "a" _ rfl
  refine ⟨db, model, htarget, hshows, models, domains, model, hread, hindexed.keys_eq, hmodel,
    hindexed.bound "a" 0 (by decide) ⟨rfl, fun later hlater hsome => ?_⟩, hshows.label, rfl, rfl,
    rfl⟩
  rw [List.getElem?_eq_none (Nat.succ_le_of_lt hlater)] at hsome
  cases hsome

theorem showsRecord_libraryBroker : libraryBroker.ShowsRecord :=
  RmqBroker.showsRecord_toBroker
    (RmqBroker.ofValue_eq_ok_iff.mpr ⟨by decide +kernel, rfl⟩)

theorem isFresh_withDraws : withDraws.IsFresh :=
  ⟨isFresh_inDirectory.opened, isFresh_inDirectory.names, isFresh_inDirectory.root,
    isFresh_inDirectory.empty, rfl⟩

theorem isNewRecord_usableModel : IsNewRecord usableModel where
  ordered := Dict.isOrdered_of_keys_eq (d := [("file", ()), ("uq_type", ()), ("threshold", ())])
    rfl (by decide)
  file := ⟨"model.pt", by simp [usableModel]⟩
  fields := by
    simp only [usableModel, List.forall_mem_cons, List.not_mem_nil, false_implies, implies_true,
      and_true]
    exact ⟨.file _, .uqType _, .threshold _⟩

/-- The session after a deployment and the addition of a model. -/
def withModel : Session :=
  (withDraws.perform (.deploy (Job.withNumber 1) none {})).perform (.add .models "a" usableModel)

/-- The model is added, and it is found. -/
theorem exists_added_withModel : ∃ version createdAt,
    let record := completeRecord usableModel "a" version createdAt
    withModel.added .models "a" = [record] ∧
      withModel.found .models "a" .latest = .ok [.table (keptRecord record)] := by
  have hthreshold : HasFiniteThreshold usableModel := by
    intro x hx
    have hsame : Value.number x = .number half := by simpa [usableModel] using hx
    rw [Value.number.inj hsame]
    exact isFinite_half
  have hpermits : withDraws.Permits (.deploy (Job.withNumber 1) none {}) :=
    show ¬withDraws.store.ledgerFile <+: Path.resolveFrom withDraws.store.root "tmp" by decide
  have hdeployed := isFresh_withDraws.isTracked.perform hpermits (by decide)
  have htracked : withModel.IsTracked := hdeployed.perform_add
    ⟨isNewRecord_usableModel, hthreshold, by decide, by decide +kernel⟩ (by decide)
  have hadds : (withDraws.store.add .models "a" usableModel
      (withDraws.perform (.deploy (Job.withNumber 1) none {})).world).1.isOk = true := by
    decide +kernel
  obtain ⟨record, world', hadd⟩ := Operation.exists_of_isOk hadds
  obtain ⟨_, _, version, instant, _, _, _, _, rfl, _⟩ := (LedgerStore.add_eq_ok_iff _).mp hadd
  have hadded : withModel.added .models "a" = [_] :=
    congrFun (congrFun (added_perform_add hadd) .models) "a"
  refine ⟨version, instant.isoText, hadded, ?_⟩
  rw [htracked.found_eq .models (by decide), hadded]
  rfl

/-- What the application of a second deployment is told. -/
def newObjects : ModelObjects where
  target := .broker (RmqBroker.descriptor ⟨RmqBroker.settingsWith []⟩ true)
  entries := [⟨.text "faiss", .text "model.pt", .number half, "a"⟩]

theorem build_withModel : ModelObjects.build withModel.store.toDataStore (some libraryBroker) ["a"]
    none withModel.world = (.ok newObjects, withModel.world) := by
  obtain ⟨version, createdAt, _, hfound⟩ := exists_added_withModel
  have hsearch := search_eq_found withModel "a" .models .latest
  have hentry (x : Number) : ModelEntry.ofRecords "a" [.table (keptRecord (completeRecord
      [("file", .text "model.pt"), ("uq_type", .text "faiss"), ("threshold", .number x)] "a"
        version createdAt))] = .ok ⟨.text "faiss", .text "model.pt", .number x.settled, "a"⟩ := rfl
  rw [hfound] at hsearch
  -- What is left does not depend on what the session has done.
  generalize withModel.world = world, withModel.store = store at hsearch ⊢
  have hlook : ModelObjects.lookUp store.toDataStore "a" world =
      (.ok ⟨.text "faiss", .text "model.pt", .number half, "a"⟩, world) := by
    rw [ModelObjects.lookUp, Operation.bind_of_ok hsearch, usableModel, hentry, settled_half]
    rfl
  have htarget : SampleTarget.choose store.toDataStore (some libraryBroker) none world =
      (.ok newObjects.target, world) := rfl
  rw [ModelObjects.build_of_target htarget, List.mapM_cons, bind_assoc,
    Operation.bind_of_ok hlook]
  rfl

/-- A second deployment goes through. -/
theorem exists_deploy_withModel : ∃ path world' job',
    Job.deploy withModel.store.toDataStore (some libraryBroker) {}
      (withModel.world, Job.withNumber 1) = (.ok (some path), (world', job')) := by
  have hmade : withModel.store.toDataStore.makeDirectory "tmp" withModel.world =
      (.ok "/store/tmp", (withModel.store.makeDirectory "tmp" withModel.world).2) :=
    Prod.ext (by decide +kernel) rfl
  have hname : withModel.store.toDataStore.uniqueFilename
      (withModel.store.makeDirectory "tmp" withModel.world).2 =
        (.ok "19700101-000000-0000000000000001", (LedgerStore.uniqueFilename
          (withModel.store.makeDirectory "tmp" withModel.world).2).2) :=
    Prod.ext (by decide +kernel) rfl
  have hruns : (Job.deployDomains ["a"] none withModel.store.toDataStore (some libraryBroker) {}
      (withModel.world, Job.withNumber 1)).1.isOk = true := by
    rw [Job.deployDomains, Operation.bind_of_ok (JobAction.ofAction_of_run build_withModel _),
      Operation.bind_of_ok (JobAction.ofAction_of_run hmade _),
      Operation.bind_of_ok (JobAction.ofAction_of_run hname _)]
    decide +kernel
  obtain ⟨path, ⟨world', job'⟩, hdeployed⟩ := Operation.exists_of_isOk hruns
  refine ⟨path, world', job', ?_⟩
  rcases Job.deploy_cases withModel.store.toDataStore (some libraryBroker) {} withModel.world
    (Job.withNumber 1) with
    ⟨hother, _⟩ | ⟨names, stageDir, objectsPath, result, state, hrole, hrun, h⟩
  · exact absurd rfl (hother ["a"] none none)
  · cases hrole
    rw [hdeployed] at hrun
    cases hrun
    exact h

/-- What an application reads of the settings of the broker. -/
def readSettings : Dict Value :=
  [("service-host", .text "broker.example"), ("service-port", .number 5671),
    ("rabbitmq-user", .text "ams"), ("rabbitmq-password", .text "pass"),
    ("rabbitmq-vhost", .text "/ams"), ("rabbitmq-outbound-queue", .text "out"),
    ("rabbitmq-exchange", .text "exchange"), ("rabbitmq-routing-key", .text "training")]

theorem asRead_librarySettings :
    (Value.table (RmqBroker.descriptor ⟨RmqBroker.settingsWith []⟩ true)).asRead =
      .table readSettings := by
  have hsmall : 5671 ≤ 2 ^ 53 := by omega
  have hport : (Value.number 5671).asRead = .number 5671 :=
    Value.asRead_number (Number.isFinite_ofInt hsmall) (Number.settled_ofInt hsmall)
  have hsettings : RmqBroker.descriptor ⟨RmqBroker.settingsWith []⟩ true = readSettings := rfl
  rw [hsettings, Value.asRead, Value.asReadMembers_eq_map, readSettings]
  simp only [List.map_cons, List.map_nil, hport]
  rfl

/-- The file of the first deployment shows that samples are gathered. -/
theorem showsModel_gathering {path text : String} (h : Deployment.IsShownBy
    ⟨path, none, ["a"], none, withDraws.added .models⟩ withDraws.store text) :
    ShowsModel text [("fs_path", .text "/store/candidates"), ("dbType", .text "hdf5")]
      (.text "random") (.text "") (.number 1) := by
  obtain ⟨db, model, htarget, hmodel, hfields⟩ := exists_showsModel h (by simp) rfl
  obtain ⟨huqType, hpath, hthreshold⟩ := hmodel.gathering rfl
  have hcandidates : withDraws.store.candidatePath = "/store/candidates" := by decide
  simp only [Value.member_table, huqType, hpath, hthreshold, Option.getD_some] at hfields
  cases htarget
  rwa [hcandidates] at hfields

/-- The file of the second deployment shows the model that was added in between. -/
theorem showsModel_usable {path text : String} (h : Deployment.IsShownBy
    ⟨path, some libraryBroker, ["a"], none, withModel.added .models⟩ withDraws.store text) :
    ShowsModel text [("rmq_config", .table readSettings), ("dbType", .text "rmq"),
        ("update_surrogate", .bool false)]
      (.text "faiss") (.text "model.pt") (.number half) := by
  obtain ⟨version, createdAt, hadded, _⟩ := exists_added_withModel
  obtain ⟨db, model, htarget, hmodel, hfields⟩ := exists_showsModel h
    (by simpa using showsRecord_libraryBroker) rfl
  dsimp only at hmodel
  rw [hadded] at hmodel
  obtain ⟨_, huqType, hpath, hthreshold⟩ :=
    hmodel.first (Value.table (completeRecord usableModel "a" version createdAt)).asRead rfl
  have hfield (x : Number) : let record := completeRecord [("file", .text "model.pt"),
        ("uq_type", .text "faiss"), ("threshold", .number x)] "a" version createdAt
      (Value.table record).member "uq_type" = .text "faiss" ∧
        (Value.table record).member "file" = .text "model.pt" ∧
        (Value.table record).member "threshold" = .number x := ⟨rfl, rfl, rfl⟩
  obtain ⟨huqType', hpath', hthreshold'⟩ := hfield half
  have hhalf := Value.asRead_number isFinite_half settled_half
  rw [huqType, hpath, hthreshold, Value.member_asRead, Value.member_asRead, Value.member_asRead,
    usableModel, huqType', hpath', hthreshold', hhalf] at hfields
  cases htarget with
  | broker _ hsettings =>
      cases hsettings
      rwa [asRead_librarySettings] at hfields

/-- The two deployments are the ones of the session. -/
theorem deployments_withDraws {path path' : String} {state state' : World Devices × Job}
    (hrun : Job.deploy withDraws.store.toDataStore none {} (withDraws.world, Job.withNumber 1) =
      (.ok (some path), state))
    (hrun' : Job.deploy withModel.store.toDataStore (some libraryBroker) {}
      (withModel.world, Job.withNumber 1) = (.ok (some path'), state')) :
    withDraws.deployments [.deploy (Job.withNumber 1) none {}, .add .models "a" usableModel,
        .deploy (Job.withNumber 1) (some libraryBroker) {}] =
      [⟨path, none, ["a"], none, withDraws.added .models⟩,
        ⟨path', some libraryBroker, ["a"], none, withModel.added .models⟩] := by
  have hrole : (Job.withNumber 1).role = .domain ["a"] none none := rfl
  have hmodel : (withDraws.perform (.deploy (Job.withNumber 1) none {})).perform
      (.add .models "a" usableModel) = withModel := rfl
  rw [deployments, deployment?_of_run hrole hrun, deployments, deployment?_add, hmodel,
    deployments, deployment?_of_run hrole hrun', deployments]
  rfl

theorem deployments_run_append_withDraws :
    let earlier := [StoreOperation.deploy (Job.withNumber 1) none {},
      .add .models "a" usableModel, .deploy (Job.withNumber 1) (some libraryBroker) {}]
    let later := [.add .models "a" [("file", .text "model.pt"), ("threshold", .number .nan)]]
    withDraws.IsOpened ∧
      (∃ path world' job',
        Job.deploy withDraws.store.toDataStore none {} (withDraws.world, Job.withNumber 1) =
          (.ok (some path), (world', job')) ∧
        Job.HasArtifact withDraws.store none {} (Job.withNumber 1) withDraws.world world' path ∧
        Job.IsPointedAt path (Job.withNumber 1) job') ∧
      withDraws.world.tree.get? withDraws.store.ledgerFile = none ∧
      withDraws.additions = [] ∧ withDraws.Reopens (earlier ++ later) ∧
      (∀ entry subject record, .add entry subject record ∈ earlier ++ later →
        IsNewRecord record) ∧
      ∃ first second, withDraws.deployments earlier = [first, second] ∧
        withDraws.deployments (earlier ++ later) = [first, second] ∧ first.place ≠ second.place ∧
        (∃ text, ShowsModel text [("fs_path", .text "/store/candidates"), ("dbType", .text "hdf5")]
            (.text "random") (.text "") (.number 1) ∧
          (withDraws.run earlier).world.tree.read first.place = .ok (Utf8.encode text) ∧
          (withDraws.run (earlier ++ later)).world.tree.read first.place =
            .ok (Utf8.encode text)) ∧
        ∃ text, ShowsModel text [("rmq_config", .table readSettings), ("dbType", .text "rmq"),
            ("update_surrogate", .bool false)]
            (.text "faiss") (.text "model.pt") (.number half) ∧
          (withDraws.run earlier).world.tree.read second.place = .ok (Utf8.encode text) ∧
          (withDraws.run (earlier ++ later)).world.tree.read second.place =
            .ok (Utf8.encode text) := by
  intro earlier later
  have hopened : withDraws.IsOpened := ⟨⟨"store", by decide⟩, by
    simp [withDraws, inDirectory, World.fresh]⟩
  have hmissing : withDraws.world.tree.get? withDraws.store.ledgerFile = none := by decide
  have hopens : withDraws.Reopens (earlier ++ later) := by
    intro root devices hroot
    simp [earlier, later] at hroot
  have hnew : ∀ entry subject record, .add entry subject record ∈ earlier ++ later →
      IsNewRecord record := by
    intro entry subject record hadd
    have hrecord : record = usableModel ∨
        record = [("file", .text "model.pt"), ("threshold", .number .nan)] := by
      simp only [earlier, later, List.mem_append, List.mem_cons, StoreOperation.add.injEq,
        reduceCtorEq, false_or, or_false, List.not_mem_nil] at hadd
      tauto
    rcases hrecord with rfl | rfl
    · exact isNewRecord_usableModel
    · exact LedgerStore.isNewRecord_threshold _
  obtain ⟨answer, ⟨world', job'⟩, hrun⟩ := Operation.exists_of_isOk
    (show (Job.deploy withDraws.store.toDataStore none {}
      (withDraws.world, Job.withNumber 1)).1.isOk = true by decide +kernel)
  obtain ⟨path', world'', job'', hrun'⟩ := exists_deploy_withModel
  obtain ⟨hdeployed, hshown⟩ := hopened.deployments_run_append
  obtain ⟨path, rfl, hartifact, hpointed⟩ := hdeployed _ _ _ _ _ _ _ _ _ rfl hrun
  obtain ⟨hnodup, hfiles⟩ := hshown hmissing rfl earlier later hopens hnew
  have hearlier := deployments_withDraws hrun hrun'
  have hlater : withDraws.deployments (earlier ++ later) = withDraws.deployments earlier := by
    have hnone (session : Session) : session.deployments later = [] := rfl
    rw [deployments_append, hnone, List.append_nil]
  rw [hlater, hearlier] at hnodup
  rw [hearlier] at hfiles
  obtain ⟨⟨text, hshows, hread, hstays⟩, ⟨text', hshows', hread', hstays'⟩, _⟩ :=
    List.forall_mem_cons.mp hfiles |>.imp_right List.forall_mem_cons.mp
  refine ⟨hopened, ⟨path, world', job', hrun, hartifact, hpointed⟩, hmissing, rfl, hopens, hnew, _,
    _, hearlier, hlater.trans hearlier, fun hsame => ?_,
    ⟨text, showsModel_gathering hshows, hread, hstays⟩,
    text', showsModel_usable hshows', hread', hstays'⟩
  exact (List.nodup_cons.mp hnodup).1 (List.mem_singleton.mpr hsame)

end Session

end Dispatch
