import Dispatch.Proofs.Store.Interference
import Dispatch.Proofs.Store.Log

/-!
# Sessions with a store

A session is one operation after the other on one store: additions, searches, loads,
openings of the same root, directories and deployments next to the ledger.  It keeps
the answers of its additions.  Every operation keeps the invariant `IsTracked`: no
addition has failed, and the ledger in the root holds the log of the additions.

`Reaches.answersLog` says what this means for those who search: at any time the store
answers as an append-only log would, for every kind of entry and every domain.
-/

namespace Dispatch

/-- What is done with a store and its directory. -/
inductive StoreOperation
  | add (entry : StoreEntry) (subject : String) (record : Dict Value)
  | search (subject : String) (entry : StoreEntry) (version : StoreVersion)
  | load
  /-- Opens a store at a path, with a clock and random bits of its own. -/
  | reopen (root : String) (devices : Devices)
  | makeDirectory (directory : String)
  | deploy (job : Job) (broker : Option Broker) (config : Config)

/-- What was answered to an addition. -/
structure Addition where
  entry : StoreEntry
  subject : String
  answer : Except Failure (Dict Value)

/-- A store, the world that it is in, and the additions so far. -/
structure Session where
  store : LedgerStore
  world : World Devices
  additions : List Addition

namespace Session

open Ledger

/-- The session after one operation, whether that succeeds or fails. -/
def perform (session : Session) : StoreOperation → Session
  | .add entry subject record =>
    let result := session.store.add entry subject record session.world
    { session with
      world := result.2
      additions := session.additions ++ [⟨entry, subject, result.1⟩] }
  | .search subject entry version =>
    { session with world := (session.store.search subject entry version session.world).2 }
  | .load => { session with world := (session.store.load session.world).2 }
  | .reopen root devices =>
    { session with
      store := .openAt session.world.workingDirectory root
      world := { session.world with store := devices } }
  | .makeDirectory directory =>
    { session with world := (session.store.makeDirectory directory session.world).2 }
  | .deploy job broker config =>
    let deployed := Job.deploy session.store.toDataStore broker config (session.world, job)
    { session with world := deployed.2.1 }

/--
Additions are of new records with finite thresholds, at a time that the clock can tell
and under a name that no table carries.  Stores are opened at the same root.  Directories
are made, and jobs deployed, off the ledger.
-/
def Permits (session : Session) : StoreOperation → Prop
  | .add _ subject record =>
    IsNewRecord record ∧ HasFiniteThreshold record ∧ subject ∉ Dict.builtinNames ∧
      session.world.store.now.1.isSome = true
  | .search _ _ _ | .load => True
  | .reopen root _ =>
    LedgerStore.openAt session.world.workingDirectory root = session.store
  | .makeDirectory directory =>
    ¬session.store.ledgerFile <+: Path.resolveFrom session.store.root directory
  | .deploy _ _ config =>
    ¬session.store.ledgerFile <+: Path.resolveFrom session.store.root config.artifactDir

/-- The sessions that lead on from a session. -/
inductive Reaches (start : Session) : Session → Prop
  | refl : Reaches start start
  | step {session : Session} (operation : StoreOperation) (h : Reaches start session)
      (hpermits : session.Permits operation) : Reaches start (session.perform operation)

/-- A session that begins with a store opened at an empty directory. -/
structure IsFresh (session : Session) : Prop where
  opened : ∃ root, session.store = .openAt session.world.workingDirectory root
  names : ∀ name ∈ session.world.workingDirectory, FileTree.IsName name
  root : session.world.tree.IsDirectory session.store.root
  empty : ∀ name rest, session.world.tree.get? (session.store.root ++ name :: rest) = none
  additions : session.additions = []

/-- The records that the additions for a kind of entry and a domain have answered. -/
def added (session : Session) : Log :=
  fun entry subject => session.additions.filterMap fun addition =>
    if addition.entry = entry ∧ addition.subject = subject then addition.answer.toOption
    else none

/-- What searching would answer now. -/
def found (session : Session) (entry : StoreEntry) (subject : String) (version : StoreVersion) :
    Except Failure (List Value) :=
  (session.store.search subject entry version session.world).1

/-- What a session keeps: its ledger holds the log of its additions, none of which failed. -/
structure IsTracked (session : Session) : Prop where
  names : ∀ name ∈ session.store.root, FileTree.IsName name
  root : session.world.tree.IsDirectory session.store.root
  answered : ∀ addition ∈ session.additions, ∃ record, addition.answer = .ok record
  numbered : IsNumberedLog session.added
  held : ∃ ledger, session.store.ledgerIn session.world.tree = .ok ledger ∧
    Holds ledger session.added

theorem length_added_le (session : Session) (entry : StoreEntry) (subject : String) :
    (session.added entry subject).length ≤ session.additions.length :=
  List.length_filterMap_le _ _

/-! ## Fresh sessions -/

theorem IsFresh.isTracked {session : Session} (h : session.IsFresh) : session.IsTracked where
  names := by
    obtain ⟨root, hroot⟩ := h.opened
    rw [hroot]
    exact Path.isName_of_mem_resolveFrom h.names root
  root := h.root
  answered := by simp [h.additions]
  numbered := by
    intro entry subject
    simp [added, h.additions, isNumbered_nil]
  held := by
    have hadded : session.added = fun _ _ => [] := by
      funext entry subject
      simp [added, h.additions]
    have hread := FileTree.read_eq_notFound h.root (h.empty "ams_store.json" [])
    refine ⟨Ledger.empty, ?_, ?_⟩
    · rw [LedgerStore.ledgerIn, LedgerStore.ledgerFile, hread]
    · rw [hadded]
      exact holds_empty

/-! ## One operation -/

section

variable {session : Session} {operation : StoreOperation}

theorem length_additions_le (session : Session) (operation : StoreOperation) :
    session.additions.length ≤ (session.perform operation).additions.length := by
  cases operation with
  | add entry subject record => simp [perform]
  | _ => exact Nat.le_refl _

/-- What is not an addition keeps the store, its ledger and the log. -/
theorem perform_of_ne_add (hnames : ∀ name ∈ session.store.root, FileTree.IsName name)
    (hpermits : session.Permits operation)
    (hother : ∀ entry subject record, operation ≠ .add entry subject record) :
    (session.perform operation).store = session.store ∧
      (session.perform operation).additions = session.additions ∧
      session.store.KeepsLedger session.world.tree (session.perform operation).world.tree := by
  cases operation with
  | add entry subject record => exact absurd rfl (hother entry subject record)
  | search subject entry version =>
      have hworld : (session.perform (.search subject entry version)).world = session.world := by
        simp only [perform, LedgerStore.search_apply]
      rw [hworld]
      exact ⟨rfl, rfl, .refl _ _⟩
  | load =>
      have hworld : (session.perform .load).world = session.world := by
        simp only [perform, LedgerStore.load_apply]
      rw [hworld]
      exact ⟨rfl, rfl, .refl _ _⟩
  | reopen root devices => exact ⟨hpermits, rfl, .refl _ _⟩
  | makeDirectory directory =>
      exact ⟨rfl, rfl, LedgerStore.keepsLedger_makeDirectory hnames hpermits session.world⟩
  | deploy job broker config =>
      exact ⟨rfl, rfl, LedgerStore.keepsLedger_deploy hnames hpermits broker session.world job⟩

theorem IsTracked.of_keepsLedger {session' : Session} (h : session.IsTracked)
    (hstore : session'.store = session.store) (hadditions : session'.additions = session.additions)
    (hkeeps : session.store.KeepsLedger session.world.tree session'.world.tree) :
    session'.IsTracked := by
  have hadded : session'.added = session.added := by
    funext entry subject
    simp only [added, hadditions]
  obtain ⟨ledger, hledger, hholds⟩ := h.held
  constructor
  · rw [hstore]
    exact h.names
  · rw [hstore]
    exact hkeeps.root h.root
  · rw [hadditions]
    exact h.answered
  · rw [hadded]
    exact h.numbered
  · rw [hstore, hadded]
    exact ⟨ledger, (hkeeps.ledgerIn_eq h.root).trans hledger, hholds⟩

/-- The log after an addition that was answered has its record at the end. -/
theorem added_perform_add {entry : StoreEntry} {subject : String} {given record : Dict Value}
    {world' : World Devices}
    (hadd : session.store.add entry subject given session.world = (.ok record, world')) :
    (session.perform (.add entry subject given)).added =
      session.added.concat entry subject record := by
  funext other name
  simp only [added, perform, hadd, Log.concat, List.filterMap_append, List.filterMap_cons,
    List.filterMap_nil]
  by_cases hsame : other = entry ∧ name = subject
  · obtain ⟨rfl, rfl⟩ := hsame
    simp [Except.toOption]
  · rw [if_neg hsame, if_neg fun h => hsame ⟨h.1.symm, h.2.symm⟩, List.append_nil]

/-- An addition is answered, and the ledger holds the log with its record. -/
theorem IsTracked.perform_add {entry : StoreEntry} {subject : String} {given : Dict Value}
    (h : session.IsTracked) (hpermits : session.Permits (.add entry subject given))
    (hfew : session.additions.length + 1 < 2 ^ 53) :
    (session.perform (.add entry subject given)).IsTracked := by
  obtain ⟨hgiven, hthreshold, hsubject, hclock⟩ := hpermits
  obtain ⟨instant, hinstant⟩ := Option.isSome_iff_exists.mp hclock
  obtain ⟨ledger, hledger, hholds⟩ := h.held
  have hlength : (session.added entry subject).length + 1 < 2 ^ 53 :=
    Nat.lt_of_le_of_lt (Nat.succ_le_succ (session.length_added_le entry subject)) hfew
  obtain ⟨record, world', reduced, hadd, hrecord, hroot, hload, hreduced⟩ :=
    LedgerStore.add_of_holds h.names h.root hledger hholds h.numbered entry hsubject hlength
      hgiven hthreshold hinstant
  have hworld : (session.perform (.add entry subject given)).world = world' := by
    simp only [perform, hadd]
  have hadded := added_perform_add hadd
  constructor
  · exact h.names
  · rw [hworld]
    exact hroot
  · intro addition haddition
    simp only [perform, hadd] at haddition
    rcases List.mem_append.mp haddition with hbefore | hlast
    · exact h.answered addition hbefore
    · rw [List.mem_singleton.mp hlast]
      exact ⟨record, rfl⟩
  · rw [hadded, hrecord]
    exact h.numbered.concat entry subject hlength hgiven hthreshold instant.isoText
  · rw [hworld, hadded]
    exact ⟨reduced, hload, hreduced⟩

/-- Every operation keeps the invariant. -/
theorem IsTracked.perform (h : session.IsTracked) (hpermits : session.Permits operation)
    (hfew : (session.perform operation).additions.length < 2 ^ 53) :
    (session.perform operation).IsTracked := by
  by_cases hadd : ∃ entry subject record, operation = .add entry subject record
  · obtain ⟨entry, subject, record, rfl⟩ := hadd
    apply h.perform_add hpermits
    simpa [Session.perform] using hfew
  · obtain ⟨hstore, hadditions, hkeeps⟩ := perform_of_ne_add h.names hpermits
      fun entry subject record hop => hadd ⟨entry, subject, record, hop⟩
    exact h.of_keepsLedger hstore hadditions hkeeps

end

/-! ## Whole sessions -/

/-- The invariant holds at any time after a fresh start. -/
theorem Reaches.isTracked {start session : Session} (h : start.Reaches session)
    (hfresh : start.IsFresh) (hfew : session.additions.length < 2 ^ 53) : session.IsTracked := by
  induction h with
  | refl => exact hfresh.isTracked
  | @step session operation _ hpermits ih =>
      have hbefore := Nat.lt_of_le_of_lt (session.length_additions_le operation) hfew
      exact (ih hbefore).perform hpermits hfew

/-- Searching selects among the records that were answered, in the order of the additions. -/
theorem IsTracked.found_eq {session : Session} (h : session.IsTracked) (entry : StoreEntry)
    {subject : String} (hsubject : subject ∉ Dict.builtinNames) (version : StoreVersion) :
    session.found entry subject version =
      select version (keptRecords (session.added entry subject)) := by
  obtain ⟨ledger, hledger, hholds⟩ := h.held
  rw [found, LedgerStore.search_apply, hledger]
  exact hholds.search_eq hsubject h.numbered entry version

/-- The log of a kind of entry and a domain is that of the additions for them. -/
theorem added_perform_of_ne {session : Session} {operation : StoreOperation}
    {entry : StoreEntry} {subject : String}
    (hother : ∀ record, operation ≠ .add entry subject record) :
    (session.perform operation).added entry subject = session.added entry subject := by
  cases operation with
  | add entry' subject' record =>
      have hdiffer : ¬(entry' = entry ∧ subject' = subject) := by
        rintro ⟨rfl, rfl⟩
        exact hother record rfl
      simp only [added, perform, List.filterMap_append, List.filterMap_cons, List.filterMap_nil]
      rw [if_neg hdiffer, List.append_nil]
  | _ => rfl

/-- A session answers for a kind of entry and a domain as an append-only log does. -/
structure AnswersLog (session : Session) (entry : StoreEntry) (subject : String) : Prop where
  /-- No addition has failed. -/
  answered : ∀ addition ∈ session.additions, ∃ record, addition.answer = .ok record
  /-- The additions have answered records with the versions one, two and so on. -/
  versions : ∀ n (record : Dict Value), (session.added entry subject)[n]? = some record →
    record.get? "version" = some (.number (.ofInt (n + 1 : Nat)))
  /-- The records are all found, in the order of the additions. -/
  all : session.found entry subject .all = .ok (keptRecords (session.added entry subject))
  latest : session.found entry subject .latest =
    .ok (keptRecords (session.added entry subject).getLast?.toList)
  /-- A version finds the record at its place. -/
  place : ∀ n (record : Dict Value) version, (session.added entry subject)[n]? = some record →
    (Number.ofInt (n + 1 : Nat)).equal version = true →
    session.found entry subject (.number version) = .ok [.table (keptRecord record)]
  noPlace : ∀ version,
    (∀ n < (session.added entry subject).length,
      (Number.ofInt (n + 1 : Nat)).equal version = false) →
    session.found entry subject (.number version) = .ok []
  /-- No other operation changes what is found. -/
  unrelated : ∀ operation, session.Permits operation →
    (session.perform operation).additions.length < 2 ^ 53 →
    (∀ record, operation ≠ .add entry subject record) → ∀ version,
    (session.perform operation).found entry subject version = session.found entry subject version

/--
After a fresh start, and with fewer than `2 ^ 53` additions, a store answers for every kind
of entry and every domain as the log of its additions.
-/
theorem Reaches.answersLog {start session : Session} (h : start.Reaches session)
    (hfresh : start.IsFresh) (hfew : session.additions.length < 2 ^ 53) (entry : StoreEntry)
    {subject : String} (hsubject : subject ∉ Dict.builtinNames) :
    session.AnswersLog entry subject := by
  have htracked := h.isTracked hfresh hfew
  obtain ⟨hnumbered, hshort⟩ := htracked.numbered entry subject
  have hlength := Nat.le_of_lt hshort
  constructor
  · exact htracked.answered
  · intro n record hrecord
    exact hnumbered.get?_version hrecord
  · rw [htracked.found_eq entry hsubject]
    rfl
  · rw [htracked.found_eq entry hsubject]
    exact select_latest_kept
  · intro n record version hrecord hversion
    rw [htracked.found_eq entry hsubject]
    exact hnumbered.select_number hlength hrecord hversion
  · intro version hversion
    rw [htracked.found_eq entry hsubject]
    exact hnumbered.select_number_eq_nil hlength hversion
  · intro operation hpermits hmore hother version
    have hafter := htracked.perform hpermits hmore
    rw [hafter.found_eq entry hsubject, htracked.found_eq entry hsubject,
      added_perform_of_ne hother]

/-- A session with nothing but a directory for a store. -/
def inDirectory : Session where
  store := ⟨["store"]⟩
  world := { World.fresh with tree := FileTree.empty.put ["store"] .directory }
  additions := []

theorem isFresh_inDirectory : inDirectory.IsFresh where
  opened := ⟨"store", by decide⟩
  names := by simp [inDirectory, World.fresh]
  root := by
    intro above habove
    rcases List.prefix_cons_iff.mp habove with rfl | ⟨rest, rfl, hrest⟩
    · rfl
    · rw [List.prefix_nil.mp hrest]
      rfl
  empty name rest := by
    rw [inDirectory, FileTree.get?_put _ _ _ _ (by simp), if_neg (by simp)]
    rfl
  additions := rfl

theorem answersLog_after_additions :
    let first : Dict Value :=
      [("file", .text "model.pt"), ("threshold", .number (.finite true .zero))]
    let second : Dict Value := [("file", .text "model.pt"), ("threshold", .number 1)]
    let session := ((inDirectory.perform (.add .models "a" first)).perform
      (.makeDirectory "a/b")).perform (.add .models "a" second)
    inDirectory.IsFresh ∧ inDirectory.Reaches session ∧ session.additions.length < 2 ^ 53 ∧
      (∃ one two, session.additions = [⟨.models, "a", .ok one⟩, ⟨.models, "a", .ok two⟩]) ∧
      "a" ∉ Dict.builtinNames ∧ session.AnswersLog .models "a" := by
  intro first second session
  have hthreshold {x : Number} (hx : x.isFinite = true) :
      HasFiniteThreshold [("file", .text "model.pt"), ("threshold", .number x)] := by
    intro y hy
    have hsame : y = x := by simpa using hy
    rw [hsame, hx]
  have hreaches : inDirectory.Reaches session := by
    refine .step _ (.step _ (.step _ .refl ?_) ?_) ?_
    · exact ⟨LedgerStore.isNewRecord_threshold _, hthreshold rfl, by decide, rfl⟩
    · show ¬inDirectory.store.ledgerFile <+: Path.resolveFrom inDirectory.store.root "a/b"
      decide
    · exact ⟨LedgerStore.isNewRecord_threshold _, hthreshold (by decide +kernel), by decide,
        by decide +kernel⟩
  have hfew : session.additions.length < 2 ^ 53 := by
    simp [session, perform, inDirectory]
  have hlog : session.AnswersLog .models "a" :=
    hreaches.answersLog isFresh_inDirectory hfew .models (by decide)
  have hadditions : ∃ one two,
      session.additions = [⟨.models, "a", .ok one⟩, ⟨.models, "a", .ok two⟩] := by
    obtain ⟨answer, answer', hboth⟩ : ∃ answer answer',
        session.additions = [⟨.models, "a", answer⟩, ⟨.models, "a", answer'⟩] := ⟨_, _, rfl⟩
    have hanswered := hlog.answered
    rw [hboth] at hanswered
    obtain ⟨one, rfl⟩ := hanswered ⟨.models, "a", answer⟩ (by simp)
    obtain ⟨two, rfl⟩ := hanswered ⟨.models, "a", answer'⟩ (by simp)
    exact ⟨one, two, hboth⟩
  exact ⟨isFresh_inDirectory, hreaches, hfew, hadditions, by decide, hlog⟩

end Session

end Dispatch
