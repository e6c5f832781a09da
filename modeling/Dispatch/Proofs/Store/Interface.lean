import Dispatch.Proofs.Deployment

/-!
# Stores that create at most directories

Stores differ in where they look and in how they fail.  What deployments rely on is that
no operation of a store creates, rewrites or removes a file: whatever is asked of it, and
whether it succeeds or fails, a store at most adds directories, and it leaves the working
directory alone.  A ledger store is such a store.
-/

namespace Dispatch

namespace World

variable {σ : Type} {world world' world'' : World σ}

/-- Directories may have been added from the first world to the second, and no more. -/
structure AddsDirectories (world world' : World σ) : Prop where
  tree : FileTree.AddsDirectories world.tree world'.tree
  workingDirectory : world'.workingDirectory = world.workingDirectory

theorem AddsDirectories.refl (world : World σ) : AddsDirectories world world where
  tree := .refl _
  workingDirectory := rfl

theorem AddsDirectories.trans (h : AddsDirectories world world')
    (h' : AddsDirectories world' world'') : AddsDirectories world world'' where
  tree := h.tree.trans h'.tree
  workingDirectory := h'.workingDirectory.trans h.workingDirectory

end World

namespace Action

variable {σ α β : Type}

/-- An operation that at most adds directories. -/
abbrev AddsDirectories (action : Action σ α) : Prop :=
  Operation.Leads World.AddsDirectories action

theorem AddsDirectories.bind {first : Action σ α} {next : α → Action σ β}
    (hfirst : first.AddsDirectories) (hnext : ∀ a, (next a).AddsDirectories) :
    AddsDirectories (first >>= next) :=
  Operation.Leads.bind .trans hfirst hnext

theorem AddsDirectories.of_keeps {action : Action σ α} (h : Operation.Keeps action) :
    action.AddsDirectories := by
  intro world
  rw [h world]
  exact .refl world

end Action

/-- A store that creates at most directories. -/
structure DataStore.AddsDirectories {σ : Type} (store : DataStore σ) : Prop where
  candidatePath : store.candidatePath.AddsDirectories
  search : ∀ subject entry version, (store.search subject entry version).AddsDirectories
  makeDirectory : ∀ directory, (store.makeDirectory directory).AddsDirectories
  uniqueFilename : store.uniqueFilename.AddsDirectories

namespace LedgerStore

theorem addsDirectories_makeDirectory (store : LedgerStore) (directory : String) :
    (store.makeDirectory directory : Action Devices String).AddsDirectories := by
  intro world
  rcases hrun : store.makeDirectory directory world with ⟨_ | path, world'⟩
  · rw [eq_of_makeDirectory_error hrun]
    exact .refl world
  · obtain ⟨_, tree, htree, _, rfl⟩ := makeDirectory_eq_ok hrun
    exact ⟨FileTree.addsDirectories_of_makeDirectory htree, rfl⟩

theorem addsDirectories_toDataStore (store : LedgerStore) : store.toDataStore.AddsDirectories where
  candidatePath := .of_keeps (Operation.keeps_pure _)
  search subject entry version := .of_keeps (keeps_search store subject entry version)
  makeDirectory := store.addsDirectories_makeDirectory
  uniqueFilename _ := ⟨.refl _, rfl⟩

end LedgerStore

section

variable {σ : Type} {store : DataStore σ} (hstore : store.AddsDirectories)

include hstore

theorem DataStore.AddsDirectories.choose (broker : Option Broker) (stageDir : Option String) :
    (SampleTarget.choose store broker stageDir).AddsDirectories := by
  cases broker with
  | some broker =>
      exact .of_keeps ((Action.keeps_ofExcept _).bind fun _ => Operation.keeps_pure _)
  | none =>
      cases stageDir with
      | some directory => exact .of_keeps (Operation.keeps_pure _)
      | none => exact hstore.candidatePath.bind fun _ => .of_keeps (Operation.keeps_pure _)

theorem DataStore.AddsDirectories.build (broker : Option Broker) (names : List String)
    (stageDir : Option String) :
    (ModelObjects.build store broker names stageDir).AddsDirectories := by
  apply (hstore.choose broker stageDir).bind
  intro target
  refine Action.AddsDirectories.bind ?_ fun entries => .of_keeps (Operation.keeps_pure _)
  refine Operation.leads_mapM .refl .trans (fun subject => ?_) names
  exact (hstore.search subject .models .latest).bind fun records =>
    .of_keeps (Action.keeps_ofExcept _)

/-- A deployment never leaves the working directory. -/
theorem DataStore.AddsDirectories.workingDirectory_deploy (broker : Option Broker)
    (config : Config) (world : World σ) (job : Job) :
    (Job.deploy store broker config (world, job)).2.1.workingDirectory =
      world.workingDirectory := by
  let stays (world world' : World σ) : Prop := world'.workingDirectory = world.workingDirectory
  have hadds {α : Type} {action : Action σ α} (h : action.AddsDirectories) :
      Operation.Leads stays action := fun world => (h world).workingDirectory
  have hwrites (path text : String) : Operation.Leads stays (Action.writeNewText path text) := by
    intro world
    simp only [Action.writeNewText, Action.onTree]
    split <;> rfl
  have hdomains (names : List String) (stageDir : Option String) :
      Operation.Leads (fun state state' : World σ × Job => stays state.1 state'.1)
        (Job.deployDomains names stageDir store broker config) := by
    have htrans {s s' s'' : World σ × Job} (h : stays s.1 s'.1) (h' : stays s'.1 s''.1) :
        stays s.1 s''.1 := h'.trans h
    refine (JobAction.leads_ofAction (hadds (hstore.build _ _ _))).bind htrans fun objects => ?_
    refine (JobAction.leads_ofAction (hadds (hstore.makeDirectory _))).bind htrans
      fun directory => ?_
    refine (JobAction.leads_ofAction (hadds hstore.uniqueFilename)).bind htrans
      fun name => ?_
    refine (JobAction.leads_ofAction (hadds (.of_keeps (Action.keeps_ofExcept _)))).bind htrans
      fun text => ?_
    refine (JobAction.leads_ofAction (hwrites _ text)).bind htrans fun _ => ?_
    exact Operation.Leads.bind htrans (fun _ => rfl) fun _ => fun _ => rfl
  rcases Job.deploy_cases store broker config world job with
    ⟨_, hrun⟩ | ⟨names, stageDir, _, result, state, _, hrun, hdeploy⟩
  · rw [hrun]
  · have hstate := hdomains names stageDir (world, job)
    rw [hrun] at hstate
    rw [hdeploy]
    exact hstate

end

end Dispatch
