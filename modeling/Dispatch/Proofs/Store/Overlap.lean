import Dispatch.Proofs.Store.Log
import Dispatch.Proofs.Store.Schedules
import Mathlib.Data.Fintype.Card

/-!
# Additions that overlap

Several clients can add records to stores with one root.  An addition loads the ledger and
decides the version of its record, and then saves the ledger that it has in hand.  Nothing
locks the ledger in between, so that the turns of several calls may come in any order.

A run of calls follows the trace of its schedule.  The ledger lists the records of just the
calls that the trace says are held, after the records from before, and the version of each
is the one after those that its call has found.  What is not held in the end is lost:
`LedgerStore.lists_answers_iff_isSerial` says that this happens as soon as two calls overlap.
-/

namespace Dispatch

open Ledger

/-- A call that adds a record. -/
structure AddCall where
  entry : StoreEntry
  subject : String
  record : Dict Value

/-- How far a call has come. -/
inductive AddCall.Progress
  | begun
  /-- The ledger was loaded; the ledger to save and the record to answer are decided. -/
  | prepared (ledger : Value) (record : Dict Value)
  | answered (record : Dict Value)
  | failed (failure : Failure)

/-- What comes of a call, by the result of its last operation. -/
def AddCall.Progress.ofResult : Except Failure (Dict Value) → Progress
  | .ok record => .answered record
  | .error failure => .failed failure

/-- A world with calls under way. -/
structure CallState (ι : Type) where
  world : World Devices
  progress : ι → AddCall.Progress

namespace LedgerStore

section

variable {ι : Type} [DecidableEq ι] (store : LedgerStore) (calls : ι → AddCall)

/-- The next turn of a call: it loads the ledger and decides what to save, or it saves that. -/
def turn (state : CallState ι) (i : ι) : CallState ι :=
  match state.progress i with
  | .begun =>
    match store.prepareAdd (calls i).entry (calls i).subject (calls i).record state.world with
    | (.ok (ledger, record), world) =>
      ⟨world, Function.update state.progress i (.prepared ledger record)⟩
    | (.error failure, world) => ⟨world, Function.update state.progress i (.failed failure)⟩
  | .prepared ledger record =>
    let (result, world) := store.save ledger state.world
    ⟨world, Function.update state.progress i (.ofResult (result.map fun _ => record))⟩
  | .answered _ | .failed _ => state

/-- The turns of a schedule, from a world in which no call has had one. -/
def runCalls (world : World Devices) (schedule : List ι) : CallState ι :=
  schedule.foldl (store.turn calls) ⟨world, fun _ => .begun⟩

theorem runCalls_concat (world : World Devices) (schedule : List ι) (i : ι) :
    store.runCalls calls world (schedule ++ [i]) =
      store.turn calls (store.runCalls calls world schedule) i := by
  rw [runCalls, List.foldl_append]
  rfl

variable {store calls} {state : CallState ι} {i : ι}

theorem turn_of_begun {ledger : Value} {record : Dict Value} {world : World Devices}
    (h : state.progress i = .begun)
    (hrun : store.prepareAdd (calls i).entry (calls i).subject (calls i).record state.world =
      (.ok (ledger, record), world)) :
    store.turn calls state i =
      ⟨world, Function.update state.progress i (.prepared ledger record)⟩ := by
  simp only [turn, h, hrun]

theorem turn_of_begun_error {failure : Failure} {world : World Devices}
    (h : state.progress i = .begun)
    (hrun : store.prepareAdd (calls i).entry (calls i).subject (calls i).record state.world =
      (.error failure, world)) :
    store.turn calls state i = ⟨world, Function.update state.progress i (.failed failure)⟩ := by
  simp only [turn, h, hrun]

theorem turn_of_prepared {ledger : Value} {record : Dict Value} {world : World Devices}
    {result : Except Failure Unit} (h : state.progress i = .prepared ledger record)
    (hrun : store.save ledger state.world = (result, world)) :
    store.turn calls state i =
      ⟨world, Function.update state.progress i (.ofResult (result.map fun _ => record))⟩ := by
  simp only [turn, h, hrun]

/-- Two turns of a call, with none of another call between them, are one addition. -/
theorem turn_turn_eq_add (h : state.progress i = .begun) :
    store.turn calls (store.turn calls state i) i =
      let (result, world) :=
        store.add (calls i).entry (calls i).subject (calls i).record state.world
      ⟨world, Function.update state.progress i (.ofResult result)⟩ := by
  rcases hprepare : store.prepareAdd (calls i).entry (calls i).subject (calls i).record
    state.world with ⟨failure | ⟨ledger, record⟩, between⟩
  · rw [turn_of_begun_error h hprepare, add, Operation.bind_of_error hprepare]
    simp [turn, AddCall.Progress.ofResult]
  rcases hsave : store.save ledger between with ⟨result, world⟩
  have hadd : store.add (calls i).entry (calls i).subject (calls i).record state.world =
      (result.map fun _ => record, world) := by
    rw [add, Operation.bind_of_ok hprepare]
    cases result with
    | error failure => exact Operation.bind_of_error hsave
    | ok done => exact Operation.bind_of_ok hsave
  have hprepared : Function.update state.progress i (.prepared ledger record) i =
      .prepared ledger record := Function.update_self _ _ _
  rw [turn_of_begun h hprepare, turn_of_prepared hprepared hsave, hadd, Function.update_idem]

end

end LedgerStore

/-! ## Calls that are answered in the end -/

/-- A call that is not over can still answer a record. -/
def AddCall.Progress.MayAnswer (record : Dict Value) : Progress → Prop
  | .begun => True
  | .prepared _ ready => ready = record
  | .answered answer => answer = record
  | .failed _ => False

/-- How many turns a call that has not failed has had. -/
def AddCall.Progress.turns : Progress → Nat
  | .begun | .failed _ => 0
  | .prepared _ _ => 1
  | .answered _ => 2

namespace LedgerStore

section

variable {ι : Type} [DecidableEq ι] {store : LedgerStore} {calls : ι → AddCall}

theorem progress_turn_of_ne {state : CallState ι} {i j : ι} (h : i ≠ j) :
    (store.turn calls state j).progress i = state.progress i := by
  rw [turn]
  split
  · split <;> exact Function.update_of_ne h _ _
  · exact Function.update_of_ne h _ _
  · rfl
  · rfl

/-- What a call can answer after a turn of any call it could answer before. -/
theorem mayAnswer_of_turn {state : CallState ι} {record : Dict Value} {i j : ι}
    (h : ((store.turn calls state j).progress i).MayAnswer record) :
    (state.progress i).MayAnswer record := by
  by_cases hsame : i = j
  · subst hsame
    cases hprogress : state.progress i with
    | begun => trivial
    | prepared ledger ready =>
        rcases hsave : store.save ledger state.world with ⟨result, world⟩
        rw [turn_of_prepared hprogress hsave] at h
        simp only [Function.update_self] at h
        cases result with
        | error failure => exact h.elim
        | ok done => exact h
    | answered answer => simpa only [turn, hprogress] using h
    | failed failure => simpa only [turn, hprogress] using h
  · rwa [progress_turn_of_ne hsame] at h

variable (store calls) in
/-- A call has answered only after two turns of its own. -/
theorem turns_le_count (world : World Devices) (schedule : List ι) (i : ι) :
    ((store.runCalls calls world schedule).progress i).turns ≤ schedule.count i := by
  induction schedule using List.reverseRecOn with
  | nil => exact Nat.le_refl 0
  | append_singleton front j ih =>
      rw [runCalls_concat, List.count_append]
      by_cases hsame : i = j
      · subst hsame
        rw [List.count_singleton_self]
        refine Nat.le_trans ?_ (Nat.add_le_add_right ih 1)
        cases hprogress : (store.runCalls calls world front).progress i with
        | begun =>
            rcases hprepare : store.prepareAdd (calls i).entry (calls i).subject
              (calls i).record (store.runCalls calls world front).world with
              ⟨failure | ⟨ledger, record⟩, between⟩
            · rw [turn_of_begun_error hprogress hprepare]
              simp [AddCall.Progress.turns]
            · rw [turn_of_begun hprogress hprepare]
              simp [AddCall.Progress.turns]
        | prepared ledger record =>
            rcases hsave : store.save ledger (store.runCalls calls world front).world with
              ⟨failure | done, after⟩
            · rw [turn_of_prepared hprogress hsave]
              simp [AddCall.Progress.turns, AddCall.Progress.ofResult, Except.map]
            · rw [turn_of_prepared hprogress hsave]
              simp [AddCall.Progress.turns, AddCall.Progress.ofResult, Except.map]
        | answered record => simp [turn, hprogress]
        | failed failure => simp [turn, hprogress]
      · rw [progress_turn_of_ne hsame]
        exact Nat.le_trans ih (Nat.le_add_right _ _)

end

end LedgerStore

/-! ## What a ledger holds of overlapping calls -/

section

variable {ι : Type} (calls : ι → AddCall) (records : ι → Dict Value)
  (versions : StoreEntry → String → List Nat)

/-- The calls among some that are for a domain. -/
def callsFor (entry : StoreEntry) (subject : String) (held : List ι) : List ι :=
  held.filter fun i => (calls i).entry = entry ∧ (calls i).subject = subject

/-- The version of a call that has found the records of others. -/
def callNumber (i : ι) (found : List ι) : Nat :=
  (versions (calls i).entry (calls i).subject).foldl max 0 +
    (callsFor calls (calls i).entry (calls i).subject found).length + 1

/-- A ledger has records with known versions in the domain of a call, and those of calls behind. -/
def Ledger.HoldsCalls (ledger : Value) (held : List ι) : Prop :=
  ∀ i, ∃ olds, HasVersions olds (versions (calls i).entry (calls i).subject) ∧
    recordList (stored (entryTable ledger (calls i).entry) (calls i).subject) =
      .ok (olds ++ keptRecords
        ((callsFor calls (calls i).entry (calls i).subject held).map records))

/-- The record of every call that has loaded is an added one with the version of the call. -/
def AreNumbered (found : ι → Option (List ι)) : Prop :=
  ∀ i before, found i = some before →
    IsAdded (calls i).subject (callNumber calls versions i before) (records i) ∧
      callNumber calls versions i before ≤ 2 ^ 53

variable {calls records versions}

theorem callsFor_concat (entry : StoreEntry) (subject : String) (held : List ι) (i : ι) :
    callsFor calls entry subject (held ++ [i]) =
      if (calls i).entry = entry ∧ (calls i).subject = subject then
        callsFor calls entry subject held ++ [i]
      else callsFor calls entry subject held := by
  rw [callsFor, List.filter_append, List.filter_singleton]
  by_cases hfor : (calls i).entry = entry ∧ (calls i).subject = subject
  · simp [hfor, callsFor]
  · simp [hfor, callsFor]

/-- The records of calls for a domain are numbered on from those before. -/
theorem AreNumbered.hasVersions {found : ι → Option (List ι)}
    (h : AreNumbered calls records versions found) {held : List ι}
    (hheld : Trace.FoundBefore found held) (entry : StoreEntry) (subject : String) :
    HasVersions (keptRecords ((callsFor calls entry subject held).map records))
      ((List.range (callsFor calls entry subject held).length).map
        ((versions entry subject).foldl max 0 + 1 + ·)) := by
  induction held using List.reverseRecOn with
  | nil => rfl
  | append_singleton front i ih =>
      have hfront := ih hheld.of_append
      rw [callsFor_concat]
      split
      next hfor =>
        obtain ⟨rfl, rfl⟩ := hfor
        obtain ⟨hadded, hbound⟩ := h i front (hheld front i [] rfl)
        have hlast : HasVersions (keptRecords [records i]) [callNumber calls versions i front] :=
          congrArg (fun version => [version]) (hadded.member_version hbound)
        have hall := hfront.append hlast
        rw [List.length_append, List.length_singleton, List.range_succ, List.map_append,
          List.map_append, keptRecords, List.map_append]
        rw [callNumber, Nat.add_right_comm] at hall
        exact hall
      next => exact hfront

/-- The next version in the domain of a call is the one that the call gives. -/
theorem AreNumbered.nextVersion {found : ι → Option (List ι)}
    (h : AreNumbered calls records versions found) {held : List ι}
    (hheld : Trace.FoundBefore found held) {i : ι}
    (hbound : callNumber calls versions i held ≤ 2 ^ 53) {olds : List Value}
    (holds : HasVersions olds (versions (calls i).entry (calls i).subject)) :
    nextVersion (olds ++ keptRecords
        ((callsFor calls (calls i).entry (calls i).subject held).map records)) =
      .ok (.ofInt (callNumber calls versions i held : Nat)) := by
  refine (holds.append (h.hasVersions hheld _ _)).nextVersion ?_ hbound
  rw [List.foldl_append, foldl_max_range]

end

/-! ## One more record -/

/-- What a domain lists it lists, reduced, after its dictionary was written and read. -/
theorem Ledger.recordList_serialMembers {ledger : Value} (hledger : IsLedger ledger)
    {entry : StoreEntry} {subject : String} {listed : List Value}
    (h : recordList (stored (entryTable ledger entry) subject) = .ok listed) {table : Dict Value}
    (hnodup : table.keys.Nodup)
    (hsame : table.get? subject = (entryTable ledger entry).get? subject) :
    recordList (stored (Value.serialMembers table) subject) = .ok (Value.serialItems listed) := by
  have hchecked : ∀ name ∈ Dict.builtinNames, Schema.isCheckedKey name = true := by decide
  rw [stored] at h
  rw [stored, Value.get?_serialMembers hnodup, hsame]
  cases hget : (entryTable ledger entry).get? subject with
  | none =>
      rw [hget] at h
      by_cases hbuiltin : subject ∈ Dict.builtinNames
      · simp [hbuiltin, recordList] at h
      · simp only [hbuiltin, if_false, recordList, Except.ok.injEq] at h
        subst h
        simp [hbuiltin, recordList, Value.serialItems]
  | some value =>
      rw [hget] at h
      cases value with
      | list items =>
          cases h
          rfl
      | null =>
          cases h
          rfl
      | missing =>
          -- A name that every table answers to is checked, so what it has is a list.
          have hbuiltin : subject ∉ Dict.builtinNames := by
            intro hmem
            have haccepted := hledger.hasTables.accepts_iff.mp hledger.accepted entry _
              (Dict.mem_of_get? hget) (hchecked subject hmem)
            simp [Schema.accepts, Schema.check?] at haccepted
          cases h
          simp [hbuiltin, Value.serial?, recordList, Value.serialItems]
      | _ => cases h

section

variable {ι : Type} {calls : ι → AddCall} {records : ι → Dict Value}
  {versions : StoreEntry → String → List Nat} {found : ι → Option (List ι)}

theorem AreNumbered.serialItems_keptRecords (h : AreNumbered calls records versions found)
    {held : List ι} (hheld : Trace.FoundBefore found held) (entry : StoreEntry)
    (subject : String) :
    Value.serialItems (keptRecords ((callsFor calls entry subject held).map records)) =
      keptRecords ((callsFor calls entry subject held).map records) := by
  refine Value.serialItems_eq_self fun value hvalue => ?_
  obtain ⟨record, hrecord, rfl⟩ := List.mem_map.mp hvalue
  obtain ⟨i, hi, rfl⟩ := List.mem_map.mp hrecord
  obtain ⟨front, back, hsplit⟩ := List.append_of_mem (List.mem_of_mem_filter hi)
  obtain ⟨hadded, hbound⟩ := h i front (hheld front i back hsplit)
  exact (hadded.isDocument_kept hbound).serial?_eq

/-- A ledger that holds calls holds one more when that has saved what it found with its record. -/
theorem Ledger.HoldsCalls.concat {ledger : Value} (hledger : IsLedger ledger) {held : List ι}
    (hholds : HoldsCalls calls records versions ledger held)
    (hversions : ∀ j, ∀ version ∈ versions (calls j).entry (calls j).subject,
      version ≤ 2 ^ 53)
    (hnumbers : AreNumbered calls records versions found)
    (hheld : Trace.FoundBefore found held) {i : ι} (hi : found i = some held)
    {listed : List Value}
    (hlisted : recordList (stored (entryTable ledger (calls i).entry) (calls i).subject) =
      .ok listed) {reduced : Value}
    (hreduced : (setRecords ledger (calls i).entry (calls i).subject
      (listed ++ [.table (records i)])).serial? = some reduced) :
    HoldsCalls calls records versions reduced (held ++ [i]) := by
  obtain ⟨hadded, hbound⟩ := hnumbers i held hi
  have hplain : ∀ record ∈ listed ++ [.table (records i)], record.IsPlain := by
    intro record hrecord
    rcases List.mem_append.mp hrecord with hrecord | hrecord
    · exact isPlain_of_recordList hledger hlisted record hrecord
    · rw [List.mem_singleton.mp hrecord]
      exact hadded.isPlain
  have htables := hledger.hasTables.setRecords (calls i).entry (calls i).subject _ hplain
  intro j
  obtain ⟨olds, hold, hbefore⟩ := hholds j
  have hserial := hnumbers.serialItems_keptRecords hheld (calls j).entry (calls j).subject
  have holdPlain : ∀ record ∈ olds, record.IsPlain := fun record hrecord =>
    isPlain_of_recordList hledger hbefore record (List.mem_append_left _ hrecord)
  refine ⟨Value.serialItems olds, hold.serialItems holdPlain (hversions j), ?_⟩
  rw [callsFor_concat]
  by_cases hsame : (calls i).entry = (calls j).entry ∧ (calls i).subject = (calls j).subject
  · rw [if_pos hsame]
    obtain ⟨hentry, hsubject⟩ := hsame
    rw [← hentry, ← hsubject] at hbefore hserial ⊢
    cases hlisted.symm.trans hbefore
    rw [stored_serial hledger.hasTables _ _ hplain hreduced, Value.serialItems_append,
      Value.serialItems_append, hserial, Value.serialItems, hadded.serial?_table hbound,
      List.append_assoc, keptRecords, keptRecords, List.map_append, List.map_append]
    rfl
  · rw [if_neg hsame, ← hserial, ← Value.serialItems_append, htables.entryTable_serial hreduced]
    refine recordList_serialMembers hledger hbefore ?_ ?_
    · exact (Value.isPlain_table_iff.mp (htables.isPlain_entryTable _)).1.nodup
    · rw [entryTable_setRecords hledger.hasTables]
      split
      next hentry =>
        rw [Dict.get?_insert, if_neg fun hsubject => hsame ⟨hentry.symm, hsubject.symm⟩, hentry]
      next => rfl

end

/-! ## Following the trace -/

section

variable {n : Nat} {calls : Fin n → AddCall} {records : Fin n → Dict Value}
  {versions : StoreEntry → String → List Nat}

/-- The calls are where a trace says, and the ledger holds the records that the trace says. -/
structure FollowsTrace (store : LedgerStore) (calls : Fin n → AddCall)
    (records : Fin n → Dict Value) (versions : StoreEntry → String → List Nat)
    (state : CallState (Fin n)) (trace : Trace (Fin n)) : Prop where
  ledger : ∃ ledger, store.ledgerIn state.world.tree = .ok ledger ∧
    HoldsCalls calls records versions ledger trace.held
  numbered : AreNumbered calls records versions trace.found
  begun : ∀ i, trace.found i = none → state.progress i = .begun
  loaded : ∀ i before, trace.found i = some before →
    state.progress i = .answered (records i) ∨ ∃ ledger listed, IsLedger ledger ∧
      HoldsCalls calls records versions ledger before ∧
      recordList (stored (entryTable ledger (calls i).entry) (calls i).subject) = .ok listed ∧
      state.progress i = .prepared (setRecords ledger (calls i).entry (calls i).subject
        (listed ++ [.table (records i)])) (records i)

/-- The versions recorded for the calls leave room for so many more. -/
def HasRoom (calls : Fin n → AddCall) (versions : StoreEntry → String → List Nat) : Prop :=
  ∀ i, (versions (calls i).entry (calls i).subject).foldl max 0 + n ≤ 2 ^ 53

theorem HasRoom.version_le (h : HasRoom calls versions) (i : Fin n) :
    ∀ version ∈ versions (calls i).entry (calls i).subject, version ≤ 2 ^ 53 := by
  intro version hversion
  have hlargest := (le_foldl_max _ 0).2 version hversion
  have hroom := h i
  omega

theorem HasRoom.callNumber_le (h : HasRoom calls versions) {trace : Trace (Fin n)}
    (htrace : trace.IsSound) {i : Fin n} {before : List (Fin n)}
    (hi : trace.found i = some before) : callNumber calls versions i before ≤ 2 ^ 53 := by
  have hshort : (before ++ [i]).length ≤ Fintype.card (Fin n) :=
    ((htrace.found i before hi).concat hi).nodup.length_le_card
  have hfor : (callsFor calls (calls i).entry (calls i).subject before).length ≤ before.length :=
    List.length_filter_le _ _
  have hroom := h i
  rw [List.length_append, List.length_singleton, Fintype.card_fin] at hshort
  rw [callNumber]
  omega

/-- After a turn only the ledger, the numbers and the call itself are to be looked at again. -/
theorem FollowsTrace.of_turn {store : LedgerStore} {state : CallState (Fin n)}
    {trace : Trace (Fin n)} (h : FollowsTrace store calls records versions state trace)
    {world : World Devices} {i : Fin n} {progress : AddCall.Progress}
    (hledger : ∃ ledger, store.ledgerIn world.tree = .ok ledger ∧
      HoldsCalls calls records versions ledger (trace.turn i).held)
    (hnumbered : AreNumbered calls records versions (trace.turn i).found)
    (hloaded : ∀ before, (trace.turn i).found i = some before →
      progress = .answered (records i) ∨ ∃ ledger listed, IsLedger ledger ∧
        HoldsCalls calls records versions ledger before ∧
        recordList (stored (entryTable ledger (calls i).entry) (calls i).subject) = .ok listed ∧
        progress = .prepared (setRecords ledger (calls i).entry (calls i).subject
          (listed ++ [.table (records i)])) (records i)) :
    FollowsTrace store calls records versions
      ⟨world, Function.update state.progress i progress⟩ (trace.turn i) := by
  refine ⟨hledger, hnumbered, fun j hj => ?_, fun j before hj => ?_⟩
  · have hne : j ≠ i := by
      rintro rfl
      exact trace.found_turn_self_ne_none j hj
    rw [Trace.found_turn_of_ne hne] at hj
    exact (Function.update_of_ne hne _ _).trans (h.begun j hj)
  · by_cases hsame : j = i
    · subst hsame
      simpa only [Function.update_self] using hloaded before hj
    · rw [Trace.found_turn_of_ne hsame] at hj
      simpa only [Function.update_of_ne hsame] using h.loaded j before hj

section

variable {store : LedgerStore} {state : CallState (Fin n)} {trace : Trace (Fin n)} {i : Fin n}
  (h : FollowsTrace store calls records versions state trace) (htrace : trace.IsSound)
  (hroom : HasRoom calls versions)
  (hmay : ((store.turn calls state i).progress i).MayAnswer (records i))

include h htrace hroom hmay

/-- A call that loads finds what is held, and takes the next version. -/
theorem FollowsTrace.turn_of_load (hgiven : IsNewRecord (calls i).record)
    (hthreshold : HasFiniteThreshold (calls i).record) (hi : trace.found i = none) :
    FollowsTrace store calls records versions (store.turn calls state i) (trace.turn i) := by
  have hprogress := h.begun i hi
  rcases hprepare : store.prepareAdd (calls i).entry (calls i).subject (calls i).record
    state.world with ⟨failure | ⟨saved, record⟩, world⟩
  · rw [LedgerStore.turn_of_begun_error hprogress hprepare] at hmay
    simp [AddCall.Progress.MayAnswer] at hmay
  rw [LedgerStore.turn_of_begun hprogress hprepare] at hmay ⊢
  have hrecord : record = records i := by simpa [AddCall.Progress.MayAnswer] using hmay
  obtain ⟨ledger, listed, version, instant, hledger, hlisted, hversion, _, hadded, rfl, rfl⟩ :=
    (LedgerStore.prepareAdd_eq_ok_iff store).mp hprepare
  obtain ⟨ledger', hledger', hholds⟩ := h.ledger
  cases hledger.symm.trans hledger'
  obtain ⟨olds, hold, hbefore⟩ := hholds i
  cases hlisted.symm.trans hbefore
  have hfound : (trace.turn i).found i = some trace.held := by
    rw [Trace.turn_of_none hi]
    exact Function.update_self _ _ _
  have hbound := hroom.callNumber_le (htrace.turn i) hfound
  have hnext := h.numbered.nextVersion htrace.held hbound hold
  rw [hversion] at hnext
  rw [Except.ok.inj hnext] at hadded
  rw [hrecord] at hadded ⊢
  have hheld : (trace.turn i).held = trace.held := by rw [Trace.turn_of_none hi]
  refine h.of_turn ⟨ledger, hledger, hheld ▸ hholds⟩ (fun j before hj => ?_) fun before hj => ?_
  · rcases Trace.eq_of_found_turn hj with hearlier | ⟨rfl, _, rfl⟩
    · exact h.numbered j before hearlier
    · exact ⟨⟨_, _, hgiven, hthreshold, hadded⟩, hbound⟩
  · cases hfound.symm.trans hj
    exact Or.inr ⟨ledger, _, LedgerStore.isLedger_of_ledgerIn hledger, hholds, hlisted, rfl⟩

/-- A call that saves leaves what it found and its record. -/
theorem FollowsTrace.turn_of_save {before : List (Fin n)} (hi : trace.found i = some before)
    (hnot : ∀ answer, state.progress i ≠ .answered answer) :
    FollowsTrace store calls records versions (store.turn calls state i) (trace.turn i) := by
  rcases h.loaded i before hi with hanswered |
    ⟨ledger, listed, hledger, hholds, hlisted, hprogress⟩
  · exact absurd hanswered (hnot _)
  rcases hsave : store.save (setRecords ledger (calls i).entry (calls i).subject
    (listed ++ [.table (records i)])) state.world with ⟨failure | done, world⟩
  · rw [LedgerStore.turn_of_prepared hprogress hsave] at hmay
    simp [AddCall.Progress.MayAnswer, AddCall.Progress.ofResult, Except.map] at hmay
  rw [LedgerStore.turn_of_prepared hprogress hsave]
  obtain ⟨⟨given, createdAt, hgiven, hthreshold, hadded⟩, hbound⟩ := h.numbered i before hi
  obtain ⟨olds, hold, hbefore⟩ := hholds i
  have hversion := h.numbered.nextVersion (htrace.found i before hi) hbound hold
  rw [← Except.ok.inj (hlisted.symm.trans hbefore)] at hversion
  have htables := hledger.hasTables.setRecords (calls i).entry (calls i).subject _
    (isPlain_of_mem_added hledger hlisted hgiven (.ofInt (callNumber calls versions i before))
      createdAt)
  rw [← hadded] at htables
  obtain ⟨reduced, hreduced⟩ := htables.exists_serial
  have haccepted : schema.accepts reduced = true := by
    rw [hadded] at hreduced
    exact accepts_reduced hledger hlisted hgiven hreduced hversion hthreshold
  have hloaded := LedgerStore.ledgerIn_of_save htables.plain hreduced hsave
  rw [Schema.checkValue_of_accepts _ _ haccepted] at hloaded
  have hconcat := hholds.concat hledger hroom.version_le h.numbered (htrace.found i before hi) hi
    hlisted hreduced
  have hturn := Trace.turn_of_some hi
  refine h.of_turn ⟨reduced, hloaded, ?_⟩ ?_ fun _ _ => Or.inl rfl
  · rw [hturn]
    exact hconcat
  · rw [hturn]
    exact h.numbered

end

/-- As long as no call has failed, calls with two turns at most follow the trace. -/
theorem followsTrace_runCalls {store : LedgerStore} {world : World Devices} {ledger : Value}
    (hledger : store.ledgerIn world.tree = .ok ledger)
    (hholds : HoldsCalls calls records versions ledger [])
    (hgiven : ∀ i, IsNewRecord (calls i).record ∧ HasFiniteThreshold (calls i).record)
    (hroom : HasRoom calls versions) {schedule : List (Fin n)}
    (hcount : ∀ i, schedule.count i ≤ 2)
    (hmay : ∀ i, ((store.runCalls calls world schedule).progress i).MayAnswer (records i)) :
    FollowsTrace store calls records versions (store.runCalls calls world schedule)
      (Trace.after schedule) := by
  induction schedule using List.reverseRecOn with
  | nil =>
      refine ⟨⟨ledger, hledger, hholds⟩, ?_, fun _ _ => rfl, ?_⟩
      · intro i before hi
        cases hi
      · intro i before hi
        cases hi
  | append_singleton front j ih =>
      have hfewer (i : Fin n) : front.count i ≤ (front ++ [j]).count i := by
        rw [List.count_append]
        exact Nat.le_add_right _ _
      rw [LedgerStore.runCalls_concat] at hmay ⊢
      rw [Trace.after_concat]
      have hfront := ih (fun i => Nat.le_trans (hfewer i) (hcount i))
        fun i => LedgerStore.mayAnswer_of_turn (hmay i)
      have htrace := Trace.isSound_after front
      cases hj : (Trace.after front).found j with
      | none => exact hfront.turn_of_load htrace hroom (hmay j) (hgiven j).1 (hgiven j).2 hj
      | some before =>
          refine hfront.turn_of_save htrace hroom (hmay j) hj fun answer hanswer => ?_
          -- An answered call has had two turns, and this would be its third.
          have hturns := LedgerStore.turns_le_count store calls world front j
          rw [hanswer, AddCall.Progress.turns] at hturns
          have htwo := hcount j
          rw [List.count_append, List.count_singleton_self] at htwo
          omega

/-! ## Records that are kept -/

/-- A ledger lists what is kept of a record in a domain. -/
def Ledger.Lists (ledger : Value) (entry : StoreEntry) (subject : String) (record : Dict Value) :
    Prop :=
  ∃ listed, (entryTable ledger entry).get? subject = some (.list listed) ∧
    .table (keptRecord record) ∈ listed

section

variable {ledger : Value} {i j : Fin n}

theorem Ledger.HoldsCalls.lists {held : List (Fin n)}
    (h : HoldsCalls calls records versions ledger held) (hi : i ∈ held) :
    Lists ledger (calls i).entry (calls i).subject (records i) := by
  obtain ⟨olds, _, hlisted⟩ := h i
  have hmem : .table (keptRecord (records i)) ∈ olds ++ keptRecords
      ((callsFor calls (calls i).entry (calls i).subject held).map records) := by
    refine List.mem_append_right _ (List.mem_map_of_mem (List.mem_map_of_mem ?_))
    exact List.mem_filter.mpr ⟨hi, by simp⟩
  rcases recordList_stored hlisted with hget | hnil
  · exact ⟨_, hget, hmem⟩
  · rw [hnil] at hmem
    cases hmem

variable (versions) in
/-- A call that is held behind another one of its domain has a larger version. -/
theorem callNumber_lt {found : Fin n → Option (List (Fin n))} {front back : List (Fin n)}
    (h : Trace.FoundBefore found (front ++ i :: back)) (hj : j ∈ back)
    (hentry : (calls i).entry = (calls j).entry)
    (hsubject : (calls i).subject = (calls j).subject) :
    ∃ before, found j = some before ∧
      callNumber calls versions i front < callNumber calls versions j before := by
  obtain ⟨between, rest, rfl⟩ := List.append_of_mem hj
  refine ⟨front ++ i :: between, h (front ++ i :: between) j rest (by simp), ?_⟩
  rw [callNumber, callNumber, hentry, hsubject, callsFor, callsFor, List.filter_append,
    List.filter_cons_of_pos (by simp [hentry, hsubject]), List.length_append, List.length_cons]
  omega

variable {found : Fin n → Option (List (Fin n))} {held : List (Fin n)}
  (h : AreNumbered calls records versions found) (hheld : Trace.FoundBefore found held)

include h

/-- Records have the same version only if their calls have the same number. -/
theorem AreNumbered.callNumber_eq {before earlier : List (Fin n)} (hi : found i = some before)
    (hj : found j = some earlier)
    (hsame : (records i).get? "version" = (records j).get? "version") :
    callNumber calls versions i before = callNumber calls versions j earlier := by
  obtain ⟨hfirst, hfirstBound⟩ := h i before hi
  obtain ⟨hsecond, hsecondBound⟩ := h j earlier hj
  rw [hfirst.get?_version, hsecond.get?_version, Option.some.injEq, Value.number.injEq] at hsame
  exact Number.ofInt_injective hfirstBound hsecondBound hsame

include hheld

/-- Calls of one domain whose records are held have different versions. -/
theorem AreNumbered.version_ne (hi : i ∈ held) (hj : j ∈ held) (hne : i ≠ j)
    (hentry : (calls i).entry = (calls j).entry)
    (hsubject : (calls i).subject = (calls j).subject) :
    (records i).get? "version" ≠ (records j).get? "version" := by
  intro hsame
  obtain ⟨front, back, hsplit⟩ := List.append_of_mem hi
  rw [hsplit] at hheld hj
  have hfound := hheld front i back rfl
  rcases List.mem_append.mp hj with hj | hj
  · obtain ⟨early, between, rfl⟩ := List.append_of_mem hj
    rw [List.append_assoc, List.cons_append] at hheld
    have hearly := hheld early j (between ++ i :: back) rfl
    obtain ⟨before, hbefore, hlt⟩ :=
      callNumber_lt versions hheld (by simp) hentry.symm hsubject.symm
    exact absurd (h.callNumber_eq hbefore hearly hsame).symm (Nat.ne_of_lt hlt)
  · rcases List.mem_cons.mp hj with rfl | hj
    · exact hne rfl
    · obtain ⟨before, hbefore, hlt⟩ :=
        callNumber_lt versions hheld hj hentry hsubject
      exact absurd (h.callNumber_eq hfound hbefore hsame) (Nat.ne_of_lt hlt)

/-- A record that is listed and shares its version with no other call's record is held. -/
theorem AreNumbered.mem_held (hholds : HoldsCalls calls records versions ledger held)
    {before : List (Fin n)} (hi : found i = some before)
    (hlists : Lists ledger (calls i).entry (calls i).subject (records i))
    (hversions : ∀ k, i ≠ k → (calls i).entry = (calls k).entry →
      (calls i).subject = (calls k).subject →
      (records i).get? "version" ≠ (records k).get? "version") : i ∈ held := by
  by_contra hnot
  obtain ⟨hadded, hbound⟩ := h i before hi
  obtain ⟨listed, hget, hmem⟩ := hlists
  obtain ⟨olds, hold, hlisted⟩ := hholds i
  rw [stored, hget] at hlisted
  cases hlisted
  rcases List.mem_append.mp hmem with hmem | hmem
  · -- The versions from before are all below the number of the call.
    obtain ⟨version, hversion, hmember⟩ := hold.exists_version hmem
    rw [hadded.member_version hbound, Value.number.injEq] at hmember
    have hle := (le_foldl_max _ 0).2 version hversion
    have hlt : version < callNumber calls versions i before := by
      rw [callNumber]
      omega
    have hsame := Number.ofInt_injective hbound (Nat.le_trans (Nat.le_of_lt hlt) hbound) hmember
    exact absurd hsame.symm (Nat.ne_of_lt hlt)
  · obtain ⟨record, hrecord, hkept⟩ := List.mem_map.mp hmem
    obtain ⟨k, hk, rfl⟩ := List.mem_map.mp hrecord
    obtain ⟨hheldk, hfor⟩ := List.mem_filter.mp hk
    obtain ⟨hentry, hsubject⟩ := of_decide_eq_true hfor
    have hne : i ≠ k := by
      rintro rfl
      exact hnot hheldk
    obtain ⟨front, back, hsplit⟩ := List.append_of_mem hheldk
    obtain ⟨haddedk, hboundk⟩ := h k front (hheld front k back hsplit)
    have hmember := congrArg (·.member "version") hkept
    simp only [haddedk.member_version hboundk, hadded.member_version hbound] at hmember
    refine hversions k hne hentry.symm hsubject.symm ?_
    rw [hadded.get?_version, haddedk.get?_version, hmember]

end

end

/-! ## When no record is lost -/

/--
A ledger has a list for the domain of every call, and the versions there are whole numbers
that leave room for as many more as there are calls.
-/
def Ledger.LeavesRoom {n : Nat} (ledger : Value) (calls : Fin n → AddCall) : Prop :=
  ∀ i, ∃ listed largest,
    recordList (stored (entryTable ledger (calls i).entry) (calls i).subject) = .ok listed ∧
    largest + n ≤ 2 ^ 53 ∧ ∀ record ∈ listed, ∃ version ≤ largest,
      record.member "version" = .number (.ofInt (version : Nat))

/-- The versions that such a ledger has for each domain that a call is for. -/
theorem Ledger.LeavesRoom.exists_versions {n : Nat} {ledger : Value} {calls : Fin n → AddCall}
    (h : LeavesRoom ledger calls) (records : Fin n → Dict Value) :
    ∃ versions, HasRoom calls versions ∧ HoldsCalls calls records versions ledger [] := by
  have hdomain (entry : StoreEntry) (subject : String) : ∃ versions : List Nat, ∀ i,
      (calls i).entry = entry → (calls i).subject = subject →
        versions.foldl max 0 + n ≤ 2 ^ 53 ∧ ∃ listed, HasVersions listed versions ∧
          recordList (stored (entryTable ledger entry) subject) = .ok listed := by
    by_cases hused : ∃ i, (calls i).entry = entry ∧ (calls i).subject = subject
    · obtain ⟨i, rfl, rfl⟩ := hused
      obtain ⟨listed, largest, hlisted, hroom, hversions⟩ := h i
      obtain ⟨versions, hhas, hbound⟩ := exists_hasVersions hversions
      have hlargest : versions.foldl max 0 ≤ largest := foldl_max_le (Nat.zero_le _) hbound
      exact ⟨versions, fun _ _ _ => ⟨by omega, listed, hhas, hlisted⟩⟩
    · exact ⟨[], fun i hentry hsubject => absurd ⟨i, hentry, hsubject⟩ hused⟩
  choose versions hversions using hdomain
  refine ⟨versions, fun i => (hversions _ _ i rfl rfl).1, fun i => ?_⟩
  obtain ⟨_, listed, hhas, hlisted⟩ := hversions _ _ i rfl rfl
  exact ⟨listed, hhas, by rw [hlisted]; simp [callsFor, keptRecords]⟩

namespace LedgerStore

section

variable {n : Nat} {store : LedgerStore} {world : World Devices} {ledger : Value}
  {calls : Fin n → AddCall} {records : Fin n → Dict Value} {schedule : List (Fin n)}
  (hledger : store.ledgerIn world.tree = .ok ledger)
  (hgiven : ∀ i, IsNewRecord (calls i).record ∧ HasFiniteThreshold (calls i).record)
  (hroom : LeavesRoom ledger calls) (hcount : ∀ i, schedule.count i = 2)
  (hanswers : ∀ i, (store.runCalls calls world schedule).progress i = .answered (records i))

include hledger hgiven hroom hcount hanswers

/-- All records are listed, each with a version of its own, exactly if all of them are held. -/
theorem lists_iff_mem_held :
    ∃ final, store.ledgerIn (store.runCalls calls world schedule).world.tree = .ok final ∧
      (((∀ i, Lists final (calls i).entry (calls i).subject (records i)) ∧
          ∀ i j, i ≠ j → (calls i).entry = (calls j).entry →
            (calls i).subject = (calls j).subject →
            (records i).get? "version" ≠ (records j).get? "version") ↔
        ∀ i, i ∈ (Trace.after schedule).held) := by
  obtain ⟨versions, hversions, hholds⟩ := hroom.exists_versions records
  have hfollows := followsTrace_runCalls hledger hholds hgiven hversions
    (fun i => Nat.le_of_eq (hcount i)) fun i => by rw [hanswers]; rfl
  have htrace := Trace.isSound_after schedule
  obtain ⟨final, hfinal, hheld⟩ := hfollows.ledger
  refine ⟨final, hfinal, ?_, fun hall => ⟨fun i => hheld.lists (hall i), ?_⟩⟩
  · rintro ⟨hlists, hdiffer⟩ i
    have hloaded : (Trace.after schedule).found i ≠ none := by
      rw [Ne, Trace.found_eq_none_iff, not_not, ← List.count_pos_iff, hcount]
      exact Nat.zero_lt_two
    obtain ⟨before, hi⟩ := Option.ne_none_iff_exists'.mp hloaded
    exact hfollows.numbered.mem_held htrace.held hheld hi (hlists i) (hdiffer i)
  · exact fun i j => hfollows.numbered.version_ne htrace.held (hall i) (hall j)

/--
When all of some overlapping calls have succeeded, the ledger lists all the records that
they answered, with different versions within each domain, exactly if the calls did not
overlap at all: the two turns of every call followed each other.
-/
theorem lists_answers_iff_isSerial :
    ∃ final, store.ledgerIn (store.runCalls calls world schedule).world.tree = .ok final ∧
      (((∀ i, Lists final (calls i).entry (calls i).subject (records i)) ∧
          ∀ i j, i ≠ j → (calls i).entry = (calls j).entry →
            (calls i).subject = (calls j).subject →
            (records i).get? "version" ≠ (records j).get? "version") ↔
        IsSerial schedule) := by
  obtain ⟨final, hfinal, hiff⟩ := lists_iff_mem_held hledger hgiven hroom hcount hanswers
  refine ⟨final, hfinal, hiff.trans ?_⟩
  rw [← Trace.forall_mem_held_iff fun i _ => hcount i]
  refine ⟨fun h i _ => h i, fun h i => h i ?_⟩
  exact List.count_pos_iff.mp (by rw [hcount]; exact Nat.zero_lt_two)

end

/-- Two calls that add a model of one domain. -/
def twoCalls : Fin 2 → AddCall := fun _ =>
  ⟨.models, "a", [("file", .text "model.pt"), ("threshold", .number 1)]⟩

theorem isNewRecord_twoCalls (i : Fin 2) :
    IsNewRecord (twoCalls i).record ∧ HasFiniteThreshold (twoCalls i).record := by
  refine ⟨isNewRecord_threshold 1, fun x hx => ?_⟩
  have hone : x = 1 := by simpa [twoCalls] using hx
  rw [hone]
  decide +kernel

theorem leavesRoom_twoCalls : LeavesRoom Ledger.empty twoCalls :=
  fun _ => ⟨[], 0, rfl, by omega, by simp⟩

/-- Calls that have all answered have answered certain records. -/
theorem exists_answers {n : Nat} {state : CallState (Fin n)}
    (h : ∀ i, (state.progress i).turns = 2) :
    ∃ records : Fin n → Dict Value, ∀ i, state.progress i = .answered (records i) := by
  have hanswered (i : Fin n) : ∃ record, state.progress i = .answered record := by
    have htwo := h i
    cases hprogress : state.progress i with
    | answered record => exact ⟨record, rfl⟩
    | _ =>
        rw [hprogress] at htwo
        cases htwo
  choose records hrecords using hanswered
  exact ⟨records, hrecords⟩

/-- Both calls succeed, although each loads before the other saves. -/
theorem exists_answers_twoCalls : ∃ records : Fin 2 → Dict Value, ∀ i,
    ((⟨["store"]⟩ : LedgerStore).runCalls twoCalls .fresh [0, 1, 0, 1]).progress i =
      .answered (records i) :=
  exists_answers (by decide +kernel)

theorem lists_answers_iff_isSerial_twoCalls :
    ∃ records : Fin 2 → Dict Value,
      (⟨["store"]⟩ : LedgerStore).ledgerIn World.fresh.tree = .ok Ledger.empty ∧
      (∀ i, IsNewRecord (twoCalls i).record ∧ HasFiniteThreshold (twoCalls i).record) ∧
      LeavesRoom Ledger.empty twoCalls ∧ (∀ i : Fin 2, [0, 1, 0, 1].count i = 2) ∧
      (∀ i, ((⟨["store"]⟩ : LedgerStore).runCalls twoCalls .fresh [0, 1, 0, 1]).progress i =
        .answered (records i)) ∧
      ∃ final, (⟨["store"]⟩ : LedgerStore).ledgerIn
          ((⟨["store"]⟩ : LedgerStore).runCalls twoCalls .fresh [0, 1, 0, 1]).world.tree =
            .ok final ∧
        (((∀ i, Lists final (twoCalls i).entry (twoCalls i).subject (records i)) ∧
            ∀ i j, i ≠ j → (twoCalls i).entry = (twoCalls j).entry →
              (twoCalls i).subject = (twoCalls j).subject →
              (records i).get? "version" ≠ (records j).get? "version") ↔
          IsSerial [(0 : Fin 2), 1, 0, 1]) := by
  have hcount : ∀ i : Fin 2, [0, 1, 0, 1].count i = 2 := by decide
  obtain ⟨records, hanswers⟩ := exists_answers_twoCalls
  exact ⟨records, rfl, isNewRecord_twoCalls, leavesRoom_twoCalls, hcount, hanswers,
    lists_answers_iff_isSerial rfl isNewRecord_twoCalls leavesRoom_twoCalls hcount hanswers⟩

/-- A record can be lost: of two calls that both load before either saves, one is forgotten. -/
theorem not_forall_lists_answers :
    ¬ ∀ (n : Nat) (store : LedgerStore) (world : World Devices) (ledger : Value)
      (calls : Fin n → AddCall) (records : Fin n → Dict Value) (schedule : List (Fin n)),
      store.ledgerIn world.tree = .ok ledger →
      (∀ i, IsNewRecord (calls i).record ∧ HasFiniteThreshold (calls i).record) →
      LeavesRoom ledger calls → (∀ i, schedule.count i = 2) →
      (∀ i, (store.runCalls calls world schedule).progress i = .answered (records i)) →
      ∃ final, store.ledgerIn (store.runCalls calls world schedule).world.tree = .ok final ∧
        (∀ i, Lists final (calls i).entry (calls i).subject (records i)) ∧
        ∀ i j, i ≠ j → (calls i).entry = (calls j).entry →
          (calls i).subject = (calls j).subject →
          (records i).get? "version" ≠ (records j).get? "version" := by
  intro h
  have hcount : ∀ i : Fin 2, [0, 1, 0, 1].count i = 2 := by decide
  obtain ⟨records, hanswers⟩ := exists_answers_twoCalls
  obtain ⟨final, hfinal, hkept⟩ :=
    h 2 ⟨["store"]⟩ .fresh Ledger.empty twoCalls records [0, 1, 0, 1] rfl isNewRecord_twoCalls
      leavesRoom_twoCalls hcount hanswers
  obtain ⟨final', hfinal', hiff⟩ := lists_iff_mem_held rfl isNewRecord_twoCalls
    leavesRoom_twoCalls hcount hanswers
  cases hfinal.symm.trans hfinal'
  have hlost : (0 : Fin 2) ∉ (Trace.after [0, 1, 0, 1]).held := by decide
  exact hlost (hiff.mp hkept 0)

end LedgerStore

end Dispatch
