import Dispatch.Proofs.Job.Environments
import Dispatch.Proofs.Job.Table
import Dispatch.Proofs.Template

/-!
# Making training and sub-selection jobs

A learning job is checked while it is made: its domain first, then that every text on the
command line is a template, and then what is checked for all jobs.  `Job.learningChecks`
lists the checks in their order.

`Job.learning_cases` says that a job is made exactly if all checks hold, and is refused for
the first that does not.  The command line of the job is the one that was given, with every
text filled in once, and is what the job is restored with: a filled-in text is no template.
-/

namespace Dispatch

namespace Job

/-- What is checked while a learning job is made. -/
inductive LearningCheck
  | domain
  /-- A value on the command line, if it is a text, is a template. -/
  | template (value : Value)
  | executable
  | environment
  | resources

/-- All checks in their order: the arguments come before the flags. -/
def learningChecks (options : JobOptions) : List LearningCheck :=
  [.domain] ++ options.arguments.map .template ++
    options.flags.map (fun flag => .template flag.2) ++ [.executable, .environment, .resources]

namespace LearningCheck

/-- What a check asks for. -/
def Holds (options : JobOptions) (subject : String) : LearningCheck → Prop
  | .domain => trim subject ≠ ""
  | .template value => ∀ s, value = .text s → ∃ pieces, Template.Spells pieces s.toList
  | .executable => trim options.executable ≠ ""
  | .environment => Environment.IsGiven options.environment
  | .resources => ∀ request, options.resources = some request → request.IsCounted

/-- What is said when a check does not hold. -/
inductive Faults (options : JobOptions) (subject : String) (context : Template.Context) :
    LearningCheck → Failure → Prop
  | domain (h : trim subject = "") : Faults options subject context .domain (.noDomain options.name)
  | template {template : String} {failure : Failure}
      (h : Template.format context template = .error failure) :
      Faults options subject context (.template (.text template)) failure
  | executable (h : trim options.executable = "") :
      Faults options subject context .executable (.noExecutable (trim options.name))
  | environment {failure : Failure}
      (h : Environment.IsRefused "environment" options.environment failure) :
      Faults options subject context .environment failure
  | resources {request : ResourceRequest} {failure : Failure}
      (hrequest : options.resources = some request) (h : request.create = .error failure) :
      Faults options subject context .resources failure

/-- A text that may not be blank. -/
def checkName (text : String) (failure : Failure) : Except Failure Unit :=
  if trim text = "" then .error failure else .ok ()

/-- A check as it is made. -/
def run (options : JobOptions) (subject : String) (context : Template.Context) :
    LearningCheck → Except Failure Unit
  | .domain => checkName subject (.noDomain options.name)
  | .template value => (fun _ => ()) <$> Template.formatArgument context value
  | .executable => checkName options.executable (.noExecutable (trim options.name))
  | .environment => (fun _ => ()) <$> Environment.validate options.environment "environment"
  | .resources => (fun _ => ()) <$> options.resources.mapM ResourceRequest.create

end LearningCheck

namespace LearningCheck

variable {options : JobOptions} {subject : String} {context : Template.Context}
  {check : LearningCheck} {failure : Failure}

theorem checkName_eq_ok_iff {text : String} {done : Unit} :
    checkName text failure = .ok done ↔ trim text ≠ "" := by
  rw [checkName]
  split <;> simp [*]

theorem checkName_eq_error_iff {text : String} {cause : Failure} :
    checkName text cause = .error failure ↔ trim text = "" ∧ cause = failure := by
  rw [checkName]
  split <;> simp [*]

theorem run_eq_ok_iff {done : Unit} :
    check.run options subject context = .ok done ↔ check.Holds options subject := by
  cases check with
  | domain | executable => exact checkName_eq_ok_iff
  | template value => simp [run, Holds, map_eq_ok_iff, Template.exists_formatArgument_iff]
  | environment => simp [run, Holds, map_eq_ok_iff, Environment.exists_validate_iff]
  | resources =>
      simp only [run, Holds, map_eq_ok_iff, and_true, ← ResourceRequest.exists_create_iff]
      cases options.resources with
      | none => exact ⟨fun _ => by simp, fun _ => ⟨none, rfl⟩⟩
      | some request => simp [map_eq_ok_iff]

theorem run_eq_error_iff : check.run options subject context = .error failure ↔
    check.Faults options subject context failure := by
  constructor
  · intro h
    cases check with
    | domain =>
        obtain ⟨hblank, rfl⟩ := checkName_eq_error_iff.mp h
        exact .domain hblank
    | template value =>
        obtain ⟨template, rfl, hformat⟩ :=
          Template.formatArgument_eq_error_iff.mp (map_eq_error_iff.mp h)
        exact .template hformat
    | executable =>
        obtain ⟨hblank, rfl⟩ := checkName_eq_error_iff.mp h
        exact .executable hblank
    | environment =>
        exact .environment (Environment.validate_eq_error_iff.mp (map_eq_error_iff.mp h))
    | resources =>
        have hresources := map_eq_error_iff.mp h
        cases hrequest : options.resources with
        | none =>
            rw [hrequest] at hresources
            cases hresources
        | some request =>
            rw [hrequest, Option.mapM_some, map_eq_error_iff] at hresources
            exact .resources hrequest hresources
  · intro h
    cases h with
    | domain hblank => exact checkName_eq_error_iff.mpr ⟨hblank, rfl⟩
    | template h =>
        exact map_eq_error_iff.mpr (Template.formatArgument_eq_error_iff.mpr ⟨_, rfl, h⟩)
    | executable hblank => exact checkName_eq_error_iff.mpr ⟨hblank, rfl⟩
    | environment h => exact map_eq_error_iff.mpr (Environment.validate_of_isRefused h)
    | resources hrequest h =>
        rw [run, hrequest, map_eq_error_iff, Option.mapM_some, map_eq_error_iff]
        exact h

end LearningCheck

open LearningCheck

section

variable (phase : LearningPhase) (options : JobOptions) (subject : String)
  (context : Template.Context)

/-- What all jobs are checked for comes last. -/
theorem map_create_learning (arguments : List Value) (flags : Dict Value) :
    (fun _ => ()) <$> JobFields.create { options with arguments := arguments, flags := flags } =
      forM [.executable, .environment, .resources] (run options subject context) := by
  rw [JobFields.create]
  simp only [List.forM_cons, List.forM_nil, run, checkName]
  by_cases hexecutable : trim options.executable = ""
  · simp only [if_pos hexecutable]
    rfl
  · simp only [if_neg hexecutable]
    cases Environment.validate options.environment "environment" with
    | error failure => rfl
    | ok environment => cases options.resources.mapM ResourceRequest.create <;> rfl

/-- The checks are made in their order while a job is made. -/
theorem map_learning :
    (fun _ => ()) <$> learning phase options subject context =
      forM (learningChecks options) (run options subject context) := by
  have harguments : (forM (options.arguments.map .template) (run options subject context)) =
      (fun _ => ()) <$> options.arguments.mapM (Template.formatArgument context) := by
    rw [List.forM_map]
    exact forM_map_const _
  have hflags : (forM (options.flags.map fun flag => .template flag.2)
      (run options subject context)) =
      (fun _ => ()) <$> options.flags.mapM (Template.formatFlag context) := by
    rw [List.forM_map, ← forM_map_const]
    congr 1
    funext flag
    simp [run, Template.formatFlag]
  rw [learningChecks, List.forM_append, List.forM_append, List.forM_append, harguments, hflags]
  by_cases hsubject : trim subject = ""
  · rw [learning, if_pos hsubject, List.forM_cons, run, checkName, if_pos hsubject]
    rfl
  · rw [learning, if_neg hsubject, List.forM_cons, run, checkName, if_neg hsubject]
    cases options.arguments.mapM (Template.formatArgument context) with
    | error failure => rfl
    | ok arguments =>
        cases options.flags.mapM (Template.formatFlag context) with
        | error failure => rfl
        | ok flags =>
            refine Eq.trans ?_ (map_create_learning options subject context arguments
              (Dict.assignAll [] flags))
            simp only [Bind.bind, Except.bind]
            generalize JobFields.create
              { options with arguments := arguments, flags := Dict.assignAll [] flags } = created
            cases created <;> rfl

/-- A learning job is made exactly if all checks hold. -/
theorem exists_learning_iff_holds :
    (∃ job, learning phase options subject context = .ok job) ↔
      ∀ check ∈ learningChecks options, check.Holds options subject := by
  have hmap := map_learning phase options subject context
  rw [forM_eq_map_mapM] at hmap
  calc
    _ ↔ (fun _ => ()) <$> learning phase options subject context = .ok () := by
      simp [map_eq_ok_iff]
    _ ↔ ∃ results, (learningChecks options).mapM (run options subject context) = .ok results := by
      rw [hmap, map_eq_ok_iff]
      simp
    _ ↔ _ := by
      rw [mapM_eq_ok_iff]
      simp [run_eq_ok_iff]

/-- A learning job is refused for the first check that does not hold. -/
theorem learning_eq_error_iff {failure : Failure} :
    learning phase options subject context = .error failure ↔
      ∃ front check back, learningChecks options = front ++ check :: back ∧
        (∀ earlier ∈ front, earlier.Holds options subject) ∧
        check.Faults options subject context failure := by
  rw [← map_eq_error_iff (f := fun _ => ()), map_learning, forM_eq_map_mapM, map_eq_error_iff,
    mapM_eq_error_iff]
  simp only [run_eq_ok_iff, run_eq_error_iff, exists_const]

end

section

variable {phase : LearningPhase} {options : JobOptions} {subject : String}
  {context : Template.Context} {job : Job}

theorem isFilled_of_formatFlag {given flag : String × Value}
    (h : Template.formatFlag context given = .ok flag) :
    flag.1 = given.1 ∧ Template.IsFilled context given.2 flag.2 := by
  obtain ⟨value, hvalue, h⟩ := exists_of_bind_eq_ok h
  cases h
  exact ⟨rfl, Template.formatArgument_eq_ok_iff.mp hvalue⟩

/-- The arguments of a learning job are the given ones, filled in. -/
theorem isFilled_arguments (h : learning phase options subject context = .ok job) :
    List.Forall₂ (Template.IsFilled context) options.arguments job.arguments := by
  obtain ⟨_, _, arguments, flags, harguments, _, hfields⟩ := create_of_learning h
  rw [(eq_of_create hfields).1]
  exact (mapM_eq_ok_iff_forall₂.mp harguments).imp fun _ _ => Template.formatArgument_eq_ok_iff.mp

/-- The flags of a learning job are the given ones with their values filled in. -/
theorem isFilled_flags (hordered : options.flags.IsOrdered)
    (h : learning phase options subject context = .ok job) :
    List.Forall₂ (fun given flag => flag.1 = given.1 ∧ Template.IsFilled context given.2 flag.2)
      (options.flags.filter fun given => given.1 ≠ Dict.reservedKey) job.flags := by
  obtain ⟨_, _, arguments, flags, _, hflags, hfields⟩ := create_of_learning h
  have hfilled := (mapM_eq_ok_iff_forall₂.mp hflags).imp fun _ _ => isFilled_of_formatFlag
  have hkeys : List.Forall₂ (· = ·) options.flags.keys (Dict.keys flags) := by
    rw [Dict.keys, Dict.keys, List.forall₂_map_left_iff, List.forall₂_map_right_iff]
    exact hfilled.imp fun _ _ h => h.1.symm
  rw [List.forall₂_eq_eq_eq] at hkeys
  rw [(eq_of_create hfields).2,
    Dict.assignAll_nil_eq_filter (Dict.isOrdered_of_keys_eq hkeys.symm hordered)]
  refine List.rel_filter (fun given flag hflag => ?_) hfilled
  simp [hflag.1]

/-- A learning job with finite numbers is restored as it is. -/
theorem ofTable_of_learning (hoptions : options.IsWellTyped)
    (h : learning phase options subject context = .ok job)
    (hfinite : job.HasFiniteNumbers) : ofTable (.table job.toTable) = .ok job := by
  have hnamed : job.HasNamedDomains := by
    obtain ⟨_, hrole, _⟩ := create_of_learning h
    simp [HasNamedDomains, hrole]
  exact (isSound_of_learning hoptions h).ofTable_toTable hfinite hnamed

end

/--
How a learning job is made.  All checks of its options must hold, and the first that does
not is what the options are refused for.  The arguments of the job are those given, each text
among them filled in; so are the values of its flags, whose names stay as they are, except
that the reserved key is left out.  With finite numbers the job is restored as it is: what was
filled in is not filled in again.
-/
theorem learning_cases {options : JobOptions} (hoptions : options.IsWellTyped)
    (phase : LearningPhase) (subject : String) (context : Template.Context) :
    ((∃ job, learning phase options subject context = .ok job) ↔
      ∀ check ∈ learningChecks options, check.Holds options subject) ∧
    (∀ failure, learning phase options subject context = .error failure ↔
      ∃ front check back, learningChecks options = front ++ check :: back ∧
        (∀ earlier ∈ front, earlier.Holds options subject) ∧
        check.Faults options subject context failure) ∧
    ∀ job, learning phase options subject context = .ok job →
      List.Forall₂ (Template.IsFilled context) options.arguments job.arguments ∧
      List.Forall₂ (fun given flag => flag.1 = given.1 ∧
          Template.IsFilled context given.2 flag.2)
        (options.flags.filter fun given => given.1 ≠ Dict.reservedKey) job.flags ∧
      (job.HasFiniteNumbers → ofTable (.table job.toTable) = .ok job) :=
  ⟨exists_learning_iff_holds phase options subject context,
    fun _ => learning_eq_error_iff phase options subject context,
    fun _ h => ⟨isFilled_arguments h, isFilled_flags hoptions.flags.ordered h,
      ofTable_of_learning hoptions h⟩⟩

/-- Options with braces in an argument, in a flag and in its value, and with the reserved key. -/
def bracedOptions : JobOptions where
  name := "fit"
  executable := "fit.py"
  arguments := [.text "\x7bAMS_STORE_PATH\x7d/\x7b\x7bx\x7d\x7d", .number 1]
  flags := [("--\x7by\x7d", .text "\x7b\x7b\x7d\x7d"), ("--n", .bool true),
    ("__proto__", .text "z")]

theorem learning_cases_braced :
    bracedOptions.IsWellTyped ∧
    ∃ job, learning .training bracedOptions " d " ⟨"/s"⟩ = .ok job ∧
      job.arguments = [.text "/s/\x7bx\x7d", .number 1] ∧
      job.flags = [("--\x7by\x7d", .text "\x7b\x7d"), ("--n", .bool true)] ∧
      ofTable (.table job.toTable) = .ok job := by
  have hoptions : bracedOptions.IsWellTyped := by
    refine ⟨?_, ⟨by decide, ?_⟩, by simp [bracedOptions]⟩
    · simp [bracedOptions, Value.IsArgument.text, Value.IsArgument.number]
    · simp [bracedOptions, Value.IsArgument.text, Value.IsArgument.bool]
  have hvalues : (fun job => (job.arguments, job.flags)) <$>
      learning .training bracedOptions " d " ⟨"/s"⟩ =
      .ok ([.text "/s/\x7bx\x7d", .number 1],
        [("--\x7by\x7d", .text "\x7b\x7d"), ("--n", .bool true)]) := by
    rfl
  obtain ⟨job, hjob, hcommandLine⟩ := map_eq_ok_iff.mp hvalues
  obtain ⟨harguments, hflags⟩ := Prod.mk.inj hcommandLine
  obtain ⟨_, _, hmade⟩ := learning_cases hoptions .training " d " ⟨"/s"⟩
  obtain ⟨_, _, hrestored⟩ := hmade job hjob
  refine ⟨hoptions, job, hjob, harguments, hflags, hrestored ⟨?_, ?_⟩⟩
  · intro x hx
    rw [harguments] at hx
    have hone : x = 1 := by simpa using hx
    rw [hone]
    decide +kernel
  · simp [hflags]

example :
    learning .training
      { bracedOptions with executable := " ", flags := [("__proto__", .text "\x7b")] } "d" ⟨"/s"⟩ =
      .error (.unbalancedBrace "\x7b" "\x7b") := by
  rfl

end Job

end Dispatch
