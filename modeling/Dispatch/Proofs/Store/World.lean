import Dispatch.Store.World
import Dispatch.Proofs.Results

/-!
# Running operations

An operation answers a result together with the state it leaves.  One operation after
another fails where the first fails, and leaves what that had changed until then.
-/

namespace Dispatch

/-- What operations with failures are, whatever they act on. -/
abbrev Operation (σ α : Type) := ExceptT Failure (StateM σ) α

namespace Operation

variable {σ α β : Type} {first : Operation σ α} {next : α → Operation σ β} {state : σ}

theorem bind_apply (first : Operation σ α) (next : α → Operation σ β) (state : σ) :
    (first >>= next) state =
      match first state with
      | (.ok a, state') => next a state'
      | (.error failure, state') => (.error failure, state') := by
  change (match first state with
    | (result, state') => (ExceptT.bindCont next result : StateM σ (Except Failure β)) state') = _
  cases first state with
  | mk result state' => cases result <;> rfl

theorem bind_of_ok {a : α} {state' : σ} (h : first state = (.ok a, state')) :
    (first >>= next) state = next a state' := by
  rw [bind_apply, h]

theorem bind_of_error {failure : Failure} {state' : σ}
    (h : first state = (.error failure, state')) :
    (first >>= next) state = (.error failure, state') := by
  rw [bind_apply, h]

/-- Two operations succeed when each does, one from the state that the other leaves. -/
theorem bind_eq_ok_iff {b : β} {state'' : σ} :
    (first >>= next) state = (.ok b, state'') ↔
      ∃ a state', first state = (.ok a, state') ∧ next a state' = (.ok b, state'') := by
  constructor
  · intro h
    rcases hfirst : first state with ⟨_ | a, state'⟩
    · rw [bind_of_error hfirst] at h
      cases h
    · rw [bind_of_ok hfirst] at h
      exact ⟨a, state', rfl, h⟩
  · rintro ⟨a, state', hfirst, hnext⟩
    rw [bind_of_ok hfirst, hnext]

/-- Two operations fail when the first does, or the second after it. -/
theorem bind_eq_error_iff {failure : Failure} {state'' : σ} :
    (first >>= next) state = (.error failure, state'') ↔
      first state = (.error failure, state'') ∨
        ∃ a state', first state = (.ok a, state') ∧ next a state' = (.error failure, state'') := by
  constructor
  · intro h
    rcases hfirst : first state with ⟨_ | a, state'⟩
    · rw [bind_of_error hfirst] at h
      cases h
      exact Or.inl rfl
    · rw [bind_of_ok hfirst] at h
      exact Or.inr ⟨a, state', rfl, h⟩
  · rintro (hfirst | ⟨a, state', hfirst, hnext⟩)
    · exact bind_of_error hfirst
    · rw [bind_of_ok hfirst, hnext]

/-- An operation that leads from every state to a related one, whether it succeeds or fails. -/
def Leads (related : σ → σ → Prop) (op : Operation σ α) : Prop :=
  ∀ state, related state (op state).2

section

variable {r : σ → σ → Prop}

theorem leads_pure (hrefl : ∀ state, r state state) (a : α) :
    Leads r (pure a : Operation σ α) :=
  hrefl

theorem Leads.bind (htrans : ∀ {s s' s''}, r s s' → r s' s'' → r s s'')
    (hfirst : Leads r first) (hnext : ∀ a, Leads r (next a)) :
    Leads r (first >>= next) := by
  intro state
  have hstate := hfirst state
  rcases hrun : first state with ⟨_ | a, state'⟩
  · rw [hrun] at hstate
    rw [bind_of_error hrun]
    exact hstate
  · rw [hrun] at hstate
    rw [bind_of_ok hrun]
    exact htrans hstate (hnext a state')

theorem leads_mapM (hrefl : ∀ state, r state state)
    (htrans : ∀ {s s' s''}, r s s' → r s' s'' → r s s'')
    {f : α → Operation σ β} (hf : ∀ a, Leads r (f a)) (l : List α) :
    Leads r (l.mapM f) := by
  induction l with
  | nil => exact leads_pure hrefl []
  | cons a rest ih =>
      rw [List.mapM_cons]
      exact (hf a).bind htrans fun b => ih.bind htrans fun bs => leads_pure hrefl _

end

/-- An operation that never changes the state. -/
def Keeps (op : Operation σ α) : Prop :=
  ∀ state, (op state).2 = state

theorem keeps_pure (a : α) : Keeps (pure a : Operation σ α) :=
  fun _ => rfl

theorem Keeps.bind (hfirst : Keeps first) (hnext : ∀ a, Keeps (next a)) :
    Keeps (first >>= next) :=
  Leads.bind (r := fun state state' => state' = state) (fun h h' => h'.trans h) hfirst hnext

theorem keeps_mapM {f : α → Operation σ β} (hf : ∀ a, Keeps (f a)) (l : List α) :
    Keeps (l.mapM f) :=
  leads_mapM (r := fun state state' => state' = state) (fun _ => rfl)
    (fun h h' => h'.trans h) hf l

theorem Keeps.eq_of_run {op : Operation σ α} (h : Keeps op) {state state' : σ}
    {result : Except Failure α} (hrun : op state = (result, state')) : state' = state := by
  have hstate := h state
  rw [hrun] at hstate
  exact hstate

/-- An operation whose failures all have a property. -/
def FailsOnly (p : Failure → Prop) (op : Operation σ α) : Prop :=
  ∀ state failure, (op state).1 = .error failure → p failure

section

variable {p : Failure → Prop}

theorem failsOnly_pure (a : α) : FailsOnly p (pure a : Operation σ α) := by
  intro state failure h
  cases h

theorem FailsOnly.bind (hfirst : FailsOnly p first) (hnext : ∀ a, FailsOnly p (next a)) :
    FailsOnly p (first >>= next) := by
  intro state failure h
  rcases hrun : first state with ⟨_ | a, between⟩
  · rw [bind_of_error hrun] at h
    cases h
    exact hfirst state failure (by rw [hrun])
  · rw [bind_of_ok hrun] at h
    exact hnext a between failure h

theorem failsOnly_mapM {f : α → Operation σ β} (hf : ∀ a, FailsOnly p (f a)) (l : List α) :
    FailsOnly p (l.mapM f) := by
  induction l with
  | nil => exact failsOnly_pure []
  | cons a rest ih =>
      rw [List.mapM_cons]
      exact (hf a).bind fun b => ih.bind fun bs => failsOnly_pure _

end

/-- An operation that succeeds has an answer and leaves a state. -/
theorem exists_of_isOk {op : Operation σ α} {state : σ} (h : (op state).1.isOk = true) :
    ∃ a state', op state = (.ok a, state') := by
  rcases hrun : op state with ⟨_ | a, state'⟩
  · rw [hrun] at h
    cases h
  · exact ⟨a, state', rfl⟩

end Operation

/-- A world without files, in which the clock stands at the start of 1970. -/
def World.fresh : World Devices where
  tree := .empty
  workingDirectory := []
  store := { clock := fun _ => some ⟨0, by decide⟩, random := fun _ => 0 }

namespace Action

variable {σ α : Type}

theorem keeps_ofExcept (result : Except Failure α) :
    Operation.Keeps (ofExcept result : Action σ α) :=
  fun _ => rfl

theorem ofExcept_eq_ok_iff {result : Except Failure α} {world world' : World σ} {a : α} :
    ofExcept result world = (.ok a, world') ↔ result = .ok a ∧ world' = world := by
  constructor
  · intro h
    cases h
    exact ⟨rfl, rfl⟩
  · rintro ⟨rfl, rfl⟩
    rfl

theorem tryRead_apply (path : List String) (world : World σ) :
    tryRead path world = (.ok (world.tree.read path), world) :=
  rfl

/-- A change of the tree succeeds with the changed tree. -/
theorem onTree_eq_ok_iff {change : FileTree → Except FileError FileTree} {world world' : World σ}
    {done : Unit} : onTree change world = (.ok done, world') ↔
      ∃ tree, change world.tree = .ok tree ∧ world' = { world with tree := tree } := by
  constructor
  · intro h
    cases hchange : change world.tree with
    | ok tree =>
        simp only [onTree, hchange] at h
        cases h
        exact ⟨tree, rfl, rfl⟩
    | error error =>
        simp only [onTree, hchange] at h
        cases h
  · rintro ⟨tree, hchange, rfl⟩
    simp only [onTree, hchange]

/-- A change of the tree that fails leaves the world as it was. -/
theorem eq_of_onTree_error {change : FileTree → Except FileError FileTree} {world world' : World σ}
    {failure : Failure} (h : onTree change world = (.error failure, world')) : world' = world := by
  cases hchange : change world.tree with
  | ok tree =>
      simp only [onTree, hchange] at h
      cases h
  | error error =>
      simp only [onTree, hchange] at h
      cases h
      rfl

theorem failsOnly_ofExcept {p : Failure → Prop} {result : Except Failure α}
    (h : ∀ failure, result = .error failure → p failure) :
    Operation.FailsOnly p (ofExcept result : Action σ α) :=
  fun _ failure hresult => h failure hresult

theorem failsOnly_onTree {p : Failure → Prop} (hfile : ∀ error, p (.file error))
    (change : FileTree → Except FileError FileTree) :
    Operation.FailsOnly p (onTree change : Action σ Unit) := by
  intro world failure h
  rw [onTree] at h
  split at h
  next => cases h
  next error _ =>
    cases h
    exact hfile error

end Action

end Dispatch
