import Dispatch.Proofs.Job.Building

/-!
# What the flags of staging jobs say

A staging job keeps what it is told twice: in its details, and as flags and arguments of
its command line.  Both agree whatever flags a caller hands over, as the job's own flags
are merged on top of them.  `Job.IsStaged.flags_agree` says so of all staging jobs, and it
says where the flags stand.

A flag that the details have no value for is not the job's own.  There a caller's flag is
left alone, even under a name that other staging jobs set themselves.
-/

namespace Dispatch

/-- The names of the flags that staging jobs set, in their order on a command line. -/
def stageFlagNames : List String :=
  ["--src", "--src-type", "--pattern", "--creds", "--mechanism", "--dest",
    "--persistent-db-path", "--db-type", "--policy", "--load", "--class"]

/-- A flag for a text that is set. -/
def flagIfSet (name : String) (text : Option String) : Dict Value :=
  (text.map fun text => (name, .text text)).toList

theorem keys_flagIfSet_sublist (name : String) (text : Option String) :
    (flagIfSet name text).keys.Sublist [name] := by
  cases text with
  | none => exact List.nil_sublist _
  | some text => exact .refl _

/-- The flags that say where samples come from. -/
def StageSource.originFlags : StageSource → Dict Value
  | .files src srcType pattern =>
    ("--src", .text src) ::
      (flagIfSet "--src-type" srcType ++ [("--pattern", .text pattern)])
  | .network creds _ => [("--creds", .text creds)]

namespace StageDetails

/-- The flags that say what the details say. -/
def flags (details : StageDetails) : Dict Value :=
  details.source.originFlags ++
    [("--mechanism", .text details.source.mechanism),
      ("--dest", .text details.destinationPath),
      ("--persistent-db-path", .text details.persistentStorePath),
      ("--db-type", .text details.dbType),
      ("--policy", .text details.policy)] ++
    flagIfSet "--load" details.pruneModulePath ++
    flagIfSet "--class" details.pruneClass

/-- The positional arguments that say what the details say. -/
def arguments (details : StageDetails) : List Value :=
  (match details.source with
    | .network _ true => [.text "--update-rmq-models"]
    | _ => []) ++
  [.text (if details.storeFlag then "--store" else "--no-store")]

/-- Only the network variant listens to a broker, and a pruning is set in full or not at all. -/
structure IsConsistent (details : StageDetails) : Prop where
  mechanism : details.source.mechanism = if details.variant = .network then "network" else "fs"
  pruning : details.pruneModulePath.isSome = details.pruneClass.isSome

/-! ## The names of the flags -/

theorem keys_flags_sublist (details : StageDetails) :
    details.flags.keys.Sublist stageFlagNames := by
  have horigin : details.source.originFlags.keys.Sublist
      ["--src", "--src-type", "--pattern", "--creds"] := by
    cases details.source with
    | files src srcType pattern =>
        rw [StageSource.originFlags, Dict.keys_cons, Dict.keys_append]
        exact ((keys_flagIfSet_sublist _ srcType).append (List.sublist_append_left _ _)).cons_cons _
    | network creds updateModels =>
        have hcreds : ["--creds"].Sublist ["--src", "--src-type", "--pattern", "--creds"] := by
          decide
        exact hcreds
  rw [flags, Dict.keys_append, Dict.keys_append, Dict.keys_append]
  exact ((horigin.append (.refl _)).append (keys_flagIfSet_sublist _ _)).append
    (keys_flagIfSet_sublist _ _)

theorem nodup_keys_flags (details : StageDetails) : details.flags.keys.Nodup :=
  details.keys_flags_sublist.nodup (by decide)

/-- The flags are names, which come after all indices. -/
theorem arrayIndex?_of_mem_keys_flags (details : StageDetails) :
    ∀ key ∈ details.flags.keys, arrayIndex? key = none := by
  intro key hkey
  have hnames : ∀ name ∈ stageFlagNames, arrayIndex? name = none := by decide
  exact hnames key (details.keys_flags_sublist.subset hkey)

end StageDetails

namespace Job

/-- The staging jobs that are made from options. -/
inductive IsStaged (options : StageOptions) : Job → Prop
  | fs {reaches : String → Bool} {src : String} {srcType pattern : Option String} {job : Job}
      (h : fsStage reaches src srcType pattern options = .ok job) : IsStaged options job
  | network {reaches : String → Bool} {creds : String} {updateModels : Bool} {job : Job}
      (h : networkStage reaches creds updateModels options = .ok job) : IsStaged options job
  | fsPersistent {reaches : String → Bool} {src : String} {job : Job}
      (h : fsPersistentStage reaches src options = .ok job) : IsStaged options job

variable {options : StageOptions} {job : Job}

theorem flags_detailsOf (options : StageOptions) (variant : StageVariant) (source : StageSource)
    (pruning : Option Pruning) :
    (detailsOf options variant source pruning).flags = options.ownFlags source pruning := by
  have hsource : source.flags =
      source.originFlags ++ [("--mechanism", .text source.mechanism)] := by
    cases source with
    | files src srcType pattern => cases srcType <;> rfl
    | network creds updateModels => rfl
  have hpruning : (pruning.map Pruning.flags).getD [] =
      flagIfSet "--load" (pruning.map Pruning.modulePath) ++
        flagIfSet "--class" (pruning.map Pruning.className) := by
    cases pruning <;> rfl
  rw [StageOptions.ownFlags, hsource, hpruning, StageDetails.flags]
  simp only [List.append_assoc]
  rfl

/-- A staging job has the details that its own flags and arguments say. -/
theorem exists_of_stage {reaches : String → Bool} {variant : StageVariant} {name : String}
    {source : StageSource} (h : stage reaches variant name source options = .ok job) :
    ∃ details, job.role = .stage details ∧ details.variant = variant ∧
      details.source = source ∧ details.pruneModulePath.isSome = details.pruneClass.isSome ∧
      job.flags = options.flags.merge details.flags ∧
      job.arguments = options.arguments ++ details.arguments := by
  obtain ⟨pruning, hrole, made, hfields, _, hmade, hmadeFlags⟩ := create_of_stage h
  obtain ⟨harguments, hflags⟩ := eq_of_create hfields
  refine ⟨detailsOf options variant source pruning, hrole, rfl, rfl, ?_, ?_, ?_⟩
  · cases pruning <;> rfl
  · rw [hflags, hmadeFlags, flags_detailsOf]
  · rw [harguments, hmade, List.append_assoc]
    rcases source with _ | ⟨_, _ | _⟩ <;> rfl

/-- Every staging job is consistent, and its own flags are merged on top of the caller's. -/
theorem IsStaged.exists_details (h : job.IsStaged options) :
    ∃ details, job.role = .stage details ∧ details.IsConsistent ∧
      job.flags = options.flags.merge details.flags ∧
      job.arguments = options.arguments ++ details.arguments := by
  cases h with
  | fs h | network h | fsPersistent h =>
      obtain ⟨details, hrole, hvariant, hsource, hpruning, hflags, harguments⟩ :=
        exists_of_stage h
      refine ⟨details, hrole, ⟨?_, hpruning⟩, hflags, harguments⟩
      rw [hvariant, hsource]
      rfl

/--
The command line of a staging job agrees with its details, whatever flags and arguments a
caller adds.  Each flag of the details is answered with its value, every other key as the
caller has it, and no key is repeated.  The caller's keys keep their places, and the
remaining flags of the details follow in their order.  The arguments are the caller's, and
then those of the details.
-/
theorem IsStaged.flags_agree (h : job.IsStaged options) (hkeys : options.flags.keys.Nodup) :
    ∃ details, job.role = .stage details ∧ details.IsConsistent ∧
      (∀ flag ∈ details.flags, job.flags.get? flag.1 = some flag.2) ∧
      (∀ key, key ∉ details.flags.keys → job.flags.get? key = options.flags.get? key) ∧
      job.flags.keys.Nodup ∧
      job.flags.keys = options.flags.keys ++
        details.flags.keys.filter (· ∉ options.flags.keys) ∧
      job.arguments = options.arguments ++ details.arguments := by
  obtain ⟨details, hrole, hconsistent, hflags, harguments⟩ := h.exists_details
  have hown : details.flags.keys.Nodup := details.nodup_keys_flags
  have hnames := details.arrayIndex?_of_mem_keys_flags
  refine ⟨details, hrole, hconsistent, ?_, ?_, ?_, ?_, harguments⟩
  · rintro ⟨key, value⟩ hflag
    rw [hflags, Dict.get?_merge _ hown, Dict.get?_of_mem hown hflag, Option.some_or]
  · intro key hkey
    rw [hflags, Dict.get?_merge _ hown, Dict.get?_eq_none hkey, Option.none_or]
  · rw [hflags]
    exact Dict.nodup_keys_merge hkeys hown hnames
  · rw [hflags, Dict.keys_merge _ hown hnames]

/-- Options with a caller's flags under names that staging jobs set, and under an index. -/
def optionsWithFlags : StageOptions where
  resources := none
  arguments := [.text "--no-store"]
  flags := [("7", .bool true), ("--mechanism", .text "queue"), ("--src-type", .text "x"),
    ("--load", .text "p.py"), ("--class", .text "C")]
  destinationPath := "out"
  persistentStorePath := "db"

/-- A caller's mechanism keeps its place and loses its value. -/
theorem IsStaged.flags_agree_network :
    ∃ job : Job, job.IsStaged optionsWithFlags ∧ optionsWithFlags.flags.keys.Nodup ∧
      job.flags.get? "--mechanism" = some (.text "network") ∧
      job.flags.get? "--load" = some (.text "p.py") ∧
      job.flags.keys = ["7", "--mechanism", "--src-type", "--load", "--class", "--creds",
        "--dest", "--persistent-db-path", "--db-type", "--policy"] ∧
      job.arguments =
        [.text "--no-store", .text "--update-rmq-models", .text "--store"] := by
  have hkeys : optionsWithFlags.flags.keys.Nodup := by decide
  cases hjob : networkStage (fun _ => true) "creds" true optionsWithFlags with
  | error failure => cases hjob
  | ok job =>
      have hstaged : job.IsStaged optionsWithFlags := .network hjob
      obtain ⟨details, hrole, _, hown, hother, _, hplaces, harguments⟩ :=
        hstaged.flags_agree hkeys
      have hdetails : job.role = .stage (detailsOf optionsWithFlags .network
          (.network "creds" true) none) := by
        cases hjob
        rfl
      rw [hrole] at hdetails
      cases hdetails
      refine ⟨job, hstaged, hkeys, hown ("--mechanism", .text "network") ?_,
        hother "--load" (by decide), hplaces, harguments⟩
      exact List.mem_cons_of_mem _ List.mem_cons_self

/--
A staging job can have a flag for the type of its files although its source has none, and
the flags of a pruning although it prunes nothing, if a caller adds them.
-/
theorem exists_isStaged_with_other_flags :
    ∃ (job : Job) (details : StageDetails), job.IsStaged optionsWithFlags ∧
      job.role = .stage details ∧ details.source = .files "in" none defaultPattern ∧
      details.pruneModulePath = none ∧ details.pruneClass = none ∧
      job.flags.get? "--src-type" = some (.text "x") ∧
      job.flags.get? "--load" = some (.text "p.py") ∧
      job.flags.get? "--class" = some (.text "C") := by
  cases hjob : fsPersistentStage (fun _ => true) "in" optionsWithFlags with
  | error failure => cases hjob
  | ok job =>
      refine ⟨job, detailsOf optionsWithFlags .fsPersistent (.files "in" none defaultPattern) none,
        .fsPersistent hjob, ?_⟩
      cases hjob
      exact ⟨rfl, rfl, rfl, rfl, rfl, rfl, rfl⟩

/--
The flags of a staging job do not tell whether its files have a type and whether it prunes,
since a caller's flags of these names are passed on.
-/
theorem not_forall_flags_tell_details :
    ¬∀ (options : StageOptions) (job : Job) (details : StageDetails),
      options.flags.keys.Nodup → job.IsStaged options → job.role = .stage details →
        (∀ src srcType pattern, details.source = .files src srcType pattern →
          ((job.flags.get? "--src-type").isSome ↔ srcType.isSome)) ∧
        ((job.flags.get? "--load").isSome ↔ details.pruneModulePath.isSome) ∧
        ((job.flags.get? "--class").isSome ↔ details.pruneClass.isSome) := by
  intro h
  obtain ⟨job, details, hstaged, hrole, hsource, _, _, hsrcType, _, _⟩ :=
    exists_isStaged_with_other_flags
  have htells := (h optionsWithFlags job details (by decide) hstaged hrole).1 _ _ _ hsource
  rw [hsrcType] at htells
  exact absurd (htells.mp rfl) (by simp)

end Job

end Dispatch
