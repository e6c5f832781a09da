import Dispatch.Proofs.Store.Interface
import Dispatch.Proofs.Store.Sessions

/-!
# What a store can touch

Whatever is done with a store, and whatever directories are asked for, files are created
and rewritten strictly below its root, directories only there and on the way to it, and
nothing disappears.  The ledger is the only file whose content ever changes.

`LedgerStore.Confines` says so of two file trees.  It holds before and after every
operation, so it holds between any two moments of a session.
-/

namespace Dispatch

namespace LedgerStore

/-- What the operations on a store may do to a file tree. -/
structure Confines (store : LedgerStore) (tree tree' : FileTree) : Prop where
  /-- Files are created and rewritten strictly below the root. -/
  files : ∀ path bytes, tree'.get? path = some (.file bytes) →
    tree.get? path ≠ some (.file bytes) → store.root <+: path ∧ path ≠ store.root
  /-- Directories are created below the root, at the root, or on the way to it. -/
  directories : ∀ path, tree'.get? path = some .directory → tree.get? path ≠ some .directory →
    store.root <+: path ∨ path <+: store.root
  /-- Files other than the ledger stay as they are. -/
  unchanged : ∀ path bytes, path ≠ store.ledgerFile → tree.get? path = some (.file bytes) →
    tree'.get? path = some (.file bytes)
  /-- The ledger may be rewritten, but it stays a file. -/
  ledger : ∀ bytes, tree.get? store.ledgerFile = some (.file bytes) →
    ∃ bytes', tree'.get? store.ledgerFile = some (.file bytes')
  kept : ∀ path, tree.get? path = some .directory → tree'.get? path = some .directory

section

variable {store : LedgerStore} {tree tree' tree'' : FileTree}

theorem Confines.refl (store : LedgerStore) (tree : FileTree) : store.Confines tree tree where
  files _ _ hfile hother := absurd hfile hother
  directories _ hdirectory hother := absurd hdirectory hother
  unchanged _ _ _ hfile := hfile
  ledger bytes hfile := ⟨bytes, hfile⟩
  kept _ hdirectory := hdirectory

theorem Confines.trans (h : store.Confines tree tree') (h' : store.Confines tree' tree'') :
    store.Confines tree tree'' where
  files path bytes hfile hother := by
    by_cases hbetween : tree'.get? path = some (.file bytes)
    · exact h.files path bytes hbetween hother
    · exact h'.files path bytes hfile hbetween
  directories path hdirectory hother := by
    by_cases hbetween : tree'.get? path = some .directory
    · exact h.directories path hbetween hother
    · exact h'.directories path hdirectory hbetween
  unchanged path bytes hpath hfile :=
    h'.unchanged path bytes hpath (h.unchanged path bytes hpath hfile)
  ledger bytes hfile := by
    obtain ⟨bytes', hfile'⟩ := h.ledger bytes hfile
    exact h'.ledger bytes' hfile'
  kept path hdirectory := h'.kept path (h.kept path hdirectory)

/-- Nothing disappears. -/
theorem Confines.get?_eq_none (h : store.Confines tree tree') {path : List String}
    (hnone : tree'.get? path = none) : tree.get? path = none := by
  rw [Option.eq_none_iff_forall_ne_some] at hnone ⊢
  intro node hnode
  cases node with
  | directory => exact hnone _ (h.kept path hnode)
  | file bytes =>
      by_cases hledger : path = store.ledgerFile
      · subst hledger
        obtain ⟨bytes', hfile⟩ := h.ledger bytes hnode
        exact hnone _ hfile
      · exact hnone _ (h.unchanged path bytes hledger hnode)

theorem Confines.isDirectory (h : store.Confines tree tree') {path : List String}
    (hpath : tree.IsDirectory path) : tree'.IsDirectory path :=
  fun above habove => h.kept above (hpath above habove)

/-- Files other than the ledger are read as before. -/
theorem Confines.read_eq (h : store.Confines tree tree') {directory : List String}
    {name : String} {bytes : List UInt8} (hledger : directory ++ [name] ≠ store.ledgerFile)
    (hread : tree.read (directory ++ [name]) = .ok bytes) :
    tree'.read (directory ++ [name]) = .ok bytes := by
  obtain ⟨hdirectory, hfile⟩ := FileTree.read_eq_ok_iff.mp hread
  exact FileTree.read_eq_ok_iff.mpr
    ⟨h.isDirectory hdirectory, h.unchanged _ bytes hledger hfile⟩

/-- Creating a directory at the root or below it is confined. -/
theorem confines_of_makeDirectory {target : List String}
    (htarget : ∀ name ∈ target, FileTree.IsName name) (hbelow : store.root <+: target)
    (hmade : tree.makeDirectory target = .ok tree') : store.Confines tree tree' := by
  have hadds := FileTree.addsDirectories_of_makeDirectory hmade
  constructor
  · intro path bytes hfile hother
    exact absurd (hadds.file_iff.mp hfile) hother
  · intro path hdirectory hother
    by_cases hway : path <+: target
    · exact List.prefix_or_prefix_of_prefix hbelow hway
    · rw [FileTree.get?_of_makeDirectory htarget hmade hway] at hdirectory
      exact absurd hdirectory hother
  · exact fun _ _ _ hfile => hadds.get?_eq hfile
  · exact fun bytes hfile => ⟨bytes, hadds.get?_eq hfile⟩
  · exact fun _ hdirectory => hadds.get?_eq hdirectory

/-- Putting a file strictly below the root is confined, where nothing is or at the ledger. -/
theorem confines_put {place : List String} (hbelow : store.root <+: place)
    (hstrict : place ≠ store.root) (hplace : tree.get? place ≠ some .directory)
    (hfree : tree.get? place = none ∨ place = store.ledgerFile) (bytes : List UInt8) :
    store.Confines tree (tree.put place (.file bytes)) := by
  have hne : place ≠ [] := by
    rintro rfl
    exact hstrict (List.prefix_nil.mp hbelow).symm
  have hget (path : List String) := FileTree.get?_put tree place (.file bytes) path hne
  have hothers {path : List String} {node : FileNode} (hnode : tree.get? path = some node)
      (hpath : path ≠ store.ledgerFile ∨ node = .directory) :
      (tree.put place (.file bytes)).get? path = some node := by
    rw [hget, if_neg, hnode]
    rintro rfl
    rcases hfree with hnone | hledger
    · simp [hnone] at hnode
    · rcases hpath with hpath | hnode'
      · exact hpath hledger
      · exact hplace (hnode' ▸ hnode)
  constructor
  · intro path content hfile hother
    rw [hget] at hfile
    split at hfile
    next hpath =>
      rw [hpath]
      exact ⟨hbelow, hstrict⟩
    next => exact absurd hfile hother
  · intro path hdirectory hother
    rw [hget] at hdirectory
    split at hdirectory
    next => cases hdirectory
    next => exact absurd hdirectory hother
  · intro path content hpath hfile
    exact hothers hfile (Or.inl hpath)
  · intro content hfile
    rw [hget]
    split
    next => exact ⟨bytes, rfl⟩
    next => exact ⟨content, hfile⟩
  · intro path hdirectory
    exact hothers hdirectory (Or.inr rfl)

end

/-! ## Operations of the store -/

section

variable {σ α β : Type} {store : LedgerStore}

/-- The changes of the tree are confined, and the working directory stays. -/
def ConfinesWorld (store : LedgerStore) (world world' : World σ) : Prop :=
  store.Confines world.tree world'.tree ∧ world'.workingDirectory = world.workingDirectory

theorem ConfinesWorld.refl (store : LedgerStore) (world : World σ) :
    store.ConfinesWorld world world :=
  ⟨.refl store _, rfl⟩

theorem ConfinesWorld.trans {world world' world'' : World σ}
    (h : store.ConfinesWorld world world') (h' : store.ConfinesWorld world' world'') :
    store.ConfinesWorld world world'' :=
  ⟨h.1.trans h'.1, h'.2.trans h.2⟩

/-- An operation with confined changes only, whether it succeeds or fails. -/
abbrev IsConfined (store : LedgerStore) (action : Action σ α) : Prop :=
  Operation.Leads store.ConfinesWorld action

theorem IsConfined.bind {first : Action σ α} {next : α → Action σ β}
    (hfirst : store.IsConfined first) (hnext : ∀ a, store.IsConfined (next a)) :
    store.IsConfined (first >>= next) :=
  Operation.Leads.bind .trans hfirst hnext

theorem IsConfined.of_keeps {action : Action σ α} (h : Operation.Keeps action) :
    store.IsConfined action := by
  intro world
  rw [h world]
  exact .refl store world

theorem isConfined_onTree {change : FileTree → Except FileError FileTree}
    (h : ∀ {tree tree' : FileTree}, change tree = .ok tree' → store.Confines tree tree') :
    store.IsConfined (Action.onTree change : Action σ Unit) := by
  intro world
  rcases hrun : Action.onTree change world with ⟨_ | done, world'⟩
  · rw [Action.eq_of_onTree_error hrun]
    exact .refl store world
  · obtain ⟨tree, htree, rfl⟩ := Action.onTree_eq_ok_iff.mp hrun
    exact ⟨h htree, rfl⟩

theorem isConfined_load (store : LedgerStore) :
    store.IsConfined (store.load : Action σ Value) :=
  .of_keeps fun world => by rw [load_apply]

theorem isConfined_search (store : LedgerStore) (subject : String) (entry : StoreEntry)
    (version : StoreVersion) :
    store.IsConfined (store.search subject entry version : Action σ (List Value)) :=
  .of_keeps fun world => by rw [search_apply]

end

section

variable {store : LedgerStore} (hnames : ∀ name ∈ store.root, FileTree.IsName name)

include hnames

/-- Saving creates at most the root, and writes the ledger. -/
theorem isConfined_save (ledger : Value) :
    store.IsConfined (store.save ledger : Action Devices Unit) := by
  refine (isConfined_onTree fun hmade => ?_).bind fun _ => ?_
  · exact confines_of_makeDirectory hnames (List.prefix_refl _) hmade
  refine (IsConfined.of_keeps (Action.keeps_ofExcept _)).bind fun text => ?_
  refine isConfined_onTree fun hwritten => ?_
  obtain ⟨_, hfile, rfl⟩ := FileTree.write_eq_ok_iff.mp hwritten
  exact confines_put (List.prefix_append _ _) (by simp) hfile (Or.inr rfl) _

theorem isConfined_add (entry : StoreEntry) (subject : String) (record : Dict Value) :
    store.IsConfined (store.add entry subject record) := by
  have hprepared : store.IsConfined (store.prepareAdd entry subject record) := by
    intro world
    obtain ⟨htree, hdirectory⟩ := store.prepareAdd_keeps_tree entry subject record world
    exact ⟨htree ▸ .refl store _, hdirectory⟩
  refine hprepared.bind fun prepared => ?_
  exact (isConfined_save hnames prepared.1).bind fun _ => .of_keeps (Operation.keeps_pure _)

end

/-! ## Directories and deployments -/

/--
Asked for a directory, a store makes it at its root or below and finds it there again,
or it changes nothing.
-/
def AnswersDirectory (store : LedgerStore) (directory : String) (world : World Devices) : Prop :=
  let target := Path.resolveFrom store.root directory
  (∃ world', store.makeDirectory directory world =
      (.ok (Path.resolve store.rootPath directory), world') ∧
    Path.resolve store.rootPath directory = Path.ofComponents target ∧
    store.root <+: target ∧ world'.tree.IsDirectory target ∧
    store.makeDirectory directory world' =
      (.ok (Path.resolve store.rootPath directory), world')) ∨
  ∃ failure, store.makeDirectory directory world = (.error failure, world)

section

variable {store : LedgerStore}

/-- A directory that was made is answered again when the tree has it already. -/
theorem makeDirectory_again {directory path : String} {world world' : World Devices}
    (hrun : store.makeDirectory directory world = (.ok path, world'))
    (hthere : world'.tree.makeDirectory (Path.resolveFrom store.root directory) =
      .ok world'.tree) : store.makeDirectory directory world' = (.ok path, world') := by
  simp only [makeDirectory] at hrun ⊢
  split at hrun
  next hbelow =>
    obtain ⟨done, made, _, hanswer⟩ := Operation.bind_eq_ok_iff.mp hrun
    cases hanswer
    have hagain : (Action.makeDirectory (Path.resolveFrom store.root directory) :
        Action Devices Unit) world' = (.ok (), world') :=
      Action.onTree_eq_ok_iff.mpr ⟨world'.tree, hthere, rfl⟩
    rw [if_pos hbelow, Operation.bind_of_ok hagain]
    rfl
  next => cases hrun

variable (hnames : ∀ name ∈ store.root, Path.IsComponent name)

include hnames

theorem answersDirectory (directory : String) (world : World Devices) :
    store.AnswersDirectory directory world := by
  have hresolve : Path.resolve store.rootPath directory =
      Path.ofComponents (Path.resolveFrom store.root directory) := by
    rw [Path.resolve, rootPath, Path.resolveFrom_ofComponents hnames]
  rcases hrun : store.makeDirectory directory world with ⟨failure | path, world'⟩
  · rw [eq_of_makeDirectory_error hrun] at hrun
    exact Or.inr ⟨failure, hrun⟩
  · obtain ⟨hbelow, tree, hmade, rfl, rfl⟩ := makeDirectory_eq_ok hrun
    have htarget := fun name hname =>
      (Path.isComponent_of_mem_resolveFrom hnames directory name hname).name
    have hthere := FileTree.isDirectory_of_makeDirectory htarget hmade
    have hagain := FileTree.makeDirectory_eq_self htarget hthere
    rw [← hresolve] at hrun
    exact Or.inl ⟨_, hrun, hresolve, hbelow, hthere, makeDirectory_again hrun hagain⟩

theorem isConfined_makeDirectory (directory : String) :
    store.IsConfined (store.makeDirectory directory : Action Devices String) := by
  intro world
  rcases hrun : store.makeDirectory directory world with ⟨_ | path, world'⟩
  · rw [eq_of_makeDirectory_error hrun]
    exact .refl store world
  · obtain ⟨hbelow, tree, hmade, _, rfl⟩ := makeDirectory_eq_ok hrun
    exact ⟨confines_of_makeDirectory (fun name hname =>
      (Path.isComponent_of_mem_resolveFrom hnames directory name hname).name) hbelow hmade, rfl⟩

omit hnames in
theorem isComponent_objectsName (reading : Option Instant) (bits : BitVec 64) :
    Path.IsComponent (stampedName reading bits ++ ".json") :=
  ⟨isName_objectsName reading bits, slash_not_mem_objectsName reading bits⟩

theorem isComponent_of_mem_place (directory : String) (reading : Option Instant)
    (bits : BitVec 64) : ∀ name ∈ Path.resolveFrom store.root directory ++
      [stampedName reading bits ++ ".json"], Path.IsComponent name := by
  intro name hname
  rcases List.mem_append.mp hname with hname | hname
  · exact Path.isComponent_of_mem_resolveFrom hnames directory name hname
  · rw [List.mem_singleton.mp hname]
    exact isComponent_objectsName reading bits

/-- The path of a deployment leads to a file directly in the directory that was made. -/
theorem eq_concat_of_locateText {made : FileTree} {workingDirectory place : List String}
    {directory : String} {reading : Option Instant} {bits : BitVec 64}
    (hplace : made.locateText workingDirectory
      (Path.join (Path.ofComponents (Path.resolveFrom store.root directory))
        (stampedName reading bits ++ ".json")) = .ok place) :
    place = Path.resolveFrom store.root directory ++ [stampedName reading bits ++ ".json"] := by
  have htarget := Path.isComponent_of_mem_resolveFrom hnames directory
  rw [Path.join_ofComponents_eq htarget (isComponent_objectsName reading bits)] at hplace
  exact FileTree.eq_of_locateText (by simp)
    (isComponent_of_mem_place hnames directory reading bits) hplace

theorem confines_deploy (broker : Option Broker) (config : Config) (world : World Devices)
    (job : Job) : store.Confines world.tree
      (Job.deploy store.toDataStore broker config (world, job)).2.1.tree := by
  have htarget := fun name hname =>
    (Path.isComponent_of_mem_resolveFrom hnames config.artifactDir name hname).name
  cases Job.leavesFiles_deploy store broker config world job with
  | unchanged hsame =>
      rw [hsame]
      exact Confines.refl store _
  | directory hbelow hmade => exact confines_of_makeDirectory htarget hbelow hmade
  | file hbelow hmade hplace _ hnone htree =>
      obtain rfl := eq_concat_of_locateText hnames hplace
      rw [htree]
      refine (confines_of_makeDirectory htarget hbelow hmade).trans ?_
      refine confines_put (hbelow.trans (List.prefix_append _ _)) (fun hroot => ?_) ?_
        (Or.inl hnone) _
      · have hlength := congrArg List.length hroot
        rw [List.length_append, List.length_singleton] at hlength
        exact absurd hbelow.length_le (by omega)
      · rw [hnone]
        exact (Option.some_ne_none _).symm

end

end LedgerStore

/-! ## Sessions -/

namespace Session

/-- The session after some operations. -/
def run (session : Session) (operations : List StoreOperation) : Session :=
  operations.foldl perform session

theorem run_append (session : Session) (earlier later : List StoreOperation) :
    session.run (earlier ++ later) = (session.run earlier).run later :=
  List.foldl_append

/-- A session with a store that was opened at some path in a working directory. -/
structure IsOpened (session : Session) : Prop where
  opened : ∃ root, session.store = .openAt session.world.workingDirectory root
  names : ∀ name ∈ session.world.workingDirectory, Path.IsComponent name

/-- Every opening among some operations is of the same root. -/
def Reopens (session : Session) (operations : List StoreOperation) : Prop :=
  ∀ root devices, .reopen root devices ∈ operations →
    LedgerStore.openAt session.world.workingDirectory root = session.store

theorem IsOpened.names_root {session : Session} (h : session.IsOpened) :
    ∀ name ∈ session.store.root, Path.IsComponent name := by
  obtain ⟨root, hroot⟩ := h.opened
  rw [hroot]
  exact Path.isComponent_of_mem_resolveFrom h.names root

/-- One operation is confined, and keeps the store. -/
theorem confines_perform {session : Session} {operation : StoreOperation}
    (hnames : ∀ name ∈ session.store.root, Path.IsComponent name)
    (hopens : session.Reopens [operation]) :
    (session.perform operation).store = session.store ∧
      session.store.ConfinesWorld session.world (session.perform operation).world := by
  have hroot := fun name hname => (hnames name hname).name
  cases operation with
  | add entry subject record =>
      exact ⟨rfl, LedgerStore.isConfined_add hroot entry subject record session.world⟩
  | search subject entry version =>
      exact ⟨rfl, LedgerStore.isConfined_search _ subject entry version session.world⟩
  | load => exact ⟨rfl, LedgerStore.isConfined_load _ session.world⟩
  | reopen root devices =>
      exact ⟨hopens root devices (List.mem_singleton_self _), .refl _ _, rfl⟩
  | makeDirectory directory =>
      exact ⟨rfl, LedgerStore.isConfined_makeDirectory hnames directory session.world⟩
  | deploy job broker config =>
      exact ⟨rfl, LedgerStore.confines_deploy hnames broker config session.world job,
        (LedgerStore.addsDirectories_toDataStore _).workingDirectory_deploy broker config _ job⟩

/-- Openings of the same root are of the same root after an operation. -/
theorem Reopens.of_cons {session : Session} {operation : StoreOperation}
    {rest : List StoreOperation} (hnames : ∀ name ∈ session.store.root, Path.IsComponent name)
    (hopens : session.Reopens (operation :: rest)) :
    session.Reopens [operation] ∧ (session.perform operation).Reopens rest := by
  have hfirst : session.Reopens [operation] := fun root devices h =>
    hopens root devices (List.mem_cons.mpr (Or.inl (List.mem_singleton.mp h)))
  obtain ⟨hstore, _, hstays⟩ := confines_perform hnames hfirst
  refine ⟨hfirst, fun root devices h => ?_⟩
  rw [hstore, hstays]
  exact hopens root devices (List.mem_cons_of_mem _ h)

/-- Everything that is done in a session is confined. -/
theorem confines_run {session : Session} {operations : List StoreOperation}
    (hnames : ∀ name ∈ session.store.root, Path.IsComponent name)
    (hopens : session.Reopens operations) :
    (session.run operations).store = session.store ∧
      session.store.ConfinesWorld session.world (session.run operations).world := by
  induction operations generalizing session with
  | nil => exact ⟨rfl, .refl _ _⟩
  | cons operation rest ih =>
      obtain ⟨hopensFirst, hopensRest⟩ := hopens.of_cons hnames
      obtain ⟨hstore, hfirst⟩ := confines_perform hnames hopensFirst
      have hnext := ih (by rwa [hstore]) hopensRest
      rw [hstore] at hnext
      exact ⟨hnext.1, hfirst.trans hnext.2⟩

/-- What a session does after a moment is confined, too. -/
theorem confines_later {session : Session} {earlier later : List StoreOperation}
    (hnames : ∀ name ∈ session.store.root, Path.IsComponent name)
    (hopens : session.Reopens (earlier ++ later)) :
    (session.run earlier).store = session.store ∧
      session.store.Confines (session.run earlier).world.tree
        (session.run (earlier ++ later)).world.tree := by
  obtain ⟨hstore, _, hstays⟩ := confines_run hnames fun root devices hroot =>
    hopens root devices (List.mem_append_left _ hroot)
  have hlater : (session.run earlier).Reopens later := by
    intro root devices hroot
    rw [hstore, hstays]
    exact hopens root devices (List.mem_append_right _ hroot)
  have hconfined := (confines_run (by rwa [hstore]) hlater).2.1
  rw [← run_append, hstore] at hconfined
  exact ⟨hstore, hconfined⟩

/--
Whatever is done in a session, its changes between any two moments are confined, and at
any moment the store answers for directories at its root or below.
-/
theorem IsOpened.confines_run_append {session : Session} (h : session.IsOpened)
    {earlier later : List StoreOperation} (hopens : session.Reopens (earlier ++ later)) :
    session.store.Confines (session.run earlier).world.tree
        (session.run (earlier ++ later)).world.tree ∧
      (session.run earlier).store = session.store ∧
      ∀ directory, session.store.AnswersDirectory directory (session.run earlier).world := by
  obtain ⟨hstore, hconfined⟩ := confines_later h.names_root hopens
  exact ⟨hconfined, hstore,
    fun directory => LedgerStore.answersDirectory h.names_root directory _⟩

theorem confines_run_append_inDirectory :
    let earlier := [StoreOperation.makeDirectory "../store//a/./b/"]
    let later := [.makeDirectory "/storefront", .reopen "/store/" World.fresh.store]
    inDirectory.IsOpened ∧ inDirectory.Reopens (earlier ++ later) ∧
      inDirectory.store.Confines (inDirectory.run earlier).world.tree
        (inDirectory.run (earlier ++ later)).world.tree ∧
      (inDirectory.run earlier).store = inDirectory.store ∧
      ∀ directory,
        inDirectory.store.AnswersDirectory directory (inDirectory.run earlier).world := by
  intro earlier later
  have hopened : inDirectory.IsOpened := ⟨⟨"store", by decide⟩, by simp [inDirectory, World.fresh]⟩
  have hopens : inDirectory.Reopens (earlier ++ later) := by
    intro root devices hroot
    obtain ⟨rfl, rfl⟩ : root = "/store/" ∧ devices = World.fresh.store := by
      simpa [earlier, later] using hroot
    decide
  exact ⟨hopened, hopens, hopened.confines_run_append hopens⟩

end Session

end Dispatch
