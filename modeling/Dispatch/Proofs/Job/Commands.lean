import Dispatch.Proofs.Job.Descriptions

/-!
# Commands of described jobs

A description that was accepted can still have a flag that no command can be made of.
The values under keys with a line end are not checked, and so null, a list or a table
may get as far as the command.  `Job.IsDescribed.command_cases` says that nothing else can go
wrong there: all positional arguments and all other flags have words.
-/

namespace Dispatch

/-- The word for a value on a command line. -/
def Value.word : Value → String
  | .text s => s
  | .bool b => if b then "true" else "false"
  | .number x => x.text
  | _ => ""

/-- Null, lists and tables, which have no words. -/
inductive Value.IsStructured : Value → Prop
  | null : IsStructured .null
  | list (items : List Value) : IsStructured (.list items)
  | table (members : Dict Value) : IsStructured (.table members)

/-- A key with one of the units in it that end a line. -/
def HasLineEnd (key : String) : Prop :=
  ∃ unit ∈ textUnits key, unit = 0x000A ∨ unit = 0x000D ∨ unit = 0x2028 ∨ unit = 0x2029

theorem isCheckedKey_iff {key : String} : Schema.isCheckedKey key = true ↔ ¬HasLineEnd key := by
  simp [Schema.isCheckedKey, HasLineEnd, and_assoc]

/-! ## Words of commands -/

namespace Command

/-- What a document holds has a word, unless it is structured. -/
theorem argument_of_isJson {value : Value} (h : value.IsJson) :
    argument value = .ok value.word ∨ value.IsStructured := by
  cases h with
  | null => exact Or.inr .null
  | bool b => exact Or.inl rfl
  | number hx => exact Or.inl (by rw [argument, if_pos hx, Value.word])
  | text s => exact Or.inl rfl
  | list => exact Or.inr (.list _)
  | table => exact Or.inr (.table _)

/-- What is accepted for a command line has a word. -/
theorem argument_of_accepts {value : Value} (h : Schema.argument.accepts value = true) :
    argument value = .ok value.word := by
  rcases Schema.accepts_argument_cases h with ⟨s, rfl⟩ | ⟨x, rfl, hx⟩ | ⟨b, rfl⟩
  · rfl
  · rw [argument, if_pos hx, Value.word]
  · rfl

theorem argument_of_isStructured {value : Value} (h : value.IsStructured) :
    argument value = .error (.unsupportedArgument "object") := by
  cases h <;> rfl

/-- A command with words for all flags and arguments. -/
theorem build_of_words {executable : String} {positional : List Value} {flags : Dict Value}
    (hflags : ∀ entry ∈ flags, argument entry.2 = .ok entry.2.word)
    (hpositional : ∀ value ∈ positional, argument value = .ok value.word) :
    build executable positional flags =
      .ok (executable :: flags.flatMap (fun entry => [entry.1, entry.2.word]) ++
        positional.map Value.word) := by
  have hwords : flags.mapM flag = .ok (flags.map fun entry => [entry.1, entry.2.word]) :=
    mapM_eq_ok_map fun entry hentry => by rw [flag, hflags entry hentry]; rfl
  rw [build, hwords, mapM_eq_ok_map hpositional]
  rfl

theorem length_flatMap_words (flags : Dict Value) :
    (flags.flatMap fun entry => [entry.1, entry.2.word]).length = 2 * flags.length := by
  rw [List.length_flatMap]
  simp [List.map_const', Nat.mul_comm]

/-- A command has no structured flags. -/
theorem not_isStructured_of_build {executable : String} {positional : List Value}
    {flags : Dict Value} {command : Command}
    (h : build executable positional flags = .ok command) :
    ∀ entry ∈ flags, ¬entry.2.IsStructured := by
  intro entry hentry hstructured
  obtain ⟨word, hword⟩ := (build_eq_ok_iff.mp ⟨command, h⟩).1 entry hentry
  rw [argument_of_isStructured hstructured] at hword
  cases hword

/-- A command fails for want of a word for one of its flags or arguments. -/
theorem exists_of_build_eq_error {executable : String} {positional : List Value}
    {flags : Dict Value} {failure : Failure}
    (h : build executable positional flags = .error failure) :
    (∃ entry ∈ flags, argument entry.2 = .error failure) ∨
      ∃ value ∈ positional, argument value = .error failure := by
  rcases error_or_exists_of_bind_eq_error h with hflags | ⟨words, _, h⟩
  · obtain ⟨entry, hentry, hflag⟩ := exists_of_mapM_eq_error hflags
    rcases error_or_exists_of_bind_eq_error hflag with hword | ⟨word, _, h⟩
    · exact Or.inl ⟨entry, hentry, hword⟩
    · cases h
  rcases error_or_exists_of_bind_eq_error h with hpositional | ⟨more, _, h⟩
  · exact Or.inr (exists_of_mapM_eq_error hpositional)
  · cases h

end Command

namespace Job

section

variable {description : Value} {job : Job} (hjson : description.IsJson)
  (h : job.IsDescribed description)

include hjson h

/-- A flag of a described job has a word, or it is structured and its key was not checked. -/
theorem IsDescribed.flag_cases : ∀ flag ∈ job.flags,
    Command.argument flag.2 = .ok flag.2.word ∨ HasLineEnd flag.1 ∧ flag.2.IsStructured := by
  intro flag hflag
  by_cases hkey : Schema.isCheckedKey flag.1 = true
  · exact Or.inl (Command.argument_of_accepts (h.accepts_flag flag hflag hkey))
  · have hend : HasLineEnd flag.1 := by
      by_contra hnone
      exact hkey (isCheckedKey_iff.mpr hnone)
    exact (Command.argument_of_isJson (h.isJson_flag hjson flag hflag)).imp_right (And.intro hend)

/-- What fails for a described job is the kind of a structured flag. -/
theorem IsDescribed.exists_of_command_eq_error {failure : Failure}
    (hcommand : job.command = .error failure) :
    failure = .unsupportedArgument "object" ∧
      ∃ flag ∈ job.flags, HasLineEnd flag.1 ∧ flag.2.IsStructured := by
  rcases Command.exists_of_build_eq_error hcommand with ⟨flag, hflag, herror⟩ |
    ⟨value, hvalue, herror⟩
  · rcases h.flag_cases hjson flag hflag with hword | hstructured
    · rw [hword] at herror
      cases herror
    · rw [Command.argument_of_isStructured hstructured.2] at herror
      cases herror
      exact ⟨rfl, flag, hflag, hstructured⟩
  · rw [Command.argument_of_accepts (h.accepts_argument value hvalue)] at herror
    cases herror

/--
The command of a job that was taken from a document fails exactly if a flag with a line end
in its key holds null, a list or a table, and it always fails in the same words.  Otherwise
it is the executable, each flag with the word for its value, and the words for the
positional arguments, which all have one.
-/
theorem IsDescribed.command_cases :
    ((∃ failure, job.command = .error failure) ↔
        ∃ flag ∈ job.flags, HasLineEnd flag.1 ∧ flag.2.IsStructured) ∧
      (∀ failure, job.command = .error failure →
        failure = .unsupportedArgument "object" ∧
          failure.message? = some "Unsupported command-line value of type object") ∧
      (∀ value ∈ job.arguments, Command.argument value = .ok value.word) ∧
      ∀ command, job.command = .ok command →
        (∀ flag ∈ job.flags, Command.argument flag.2 = .ok flag.2.word) ∧
          command = job.executable :: job.flags.flatMap (fun flag => [flag.1, flag.2.word]) ++
            job.arguments.map Value.word ∧
          command.length = 1 + 2 * job.flags.length + job.arguments.length := by
  have harguments : ∀ value ∈ job.arguments, Command.argument value = .ok value.word :=
    fun value hvalue => Command.argument_of_accepts (h.accepts_argument value hvalue)
  refine ⟨⟨?_, ?_⟩, ?_, harguments, ?_⟩
  · rintro ⟨failure, hcommand⟩
    exact (h.exists_of_command_eq_error hjson hcommand).2
  · rintro ⟨flag, hflag, _, hstructured⟩
    cases hcommand : job.command with
    | error failure => exact ⟨failure, rfl⟩
    | ok command =>
        exact absurd hstructured (Command.not_isStructured_of_build hcommand flag hflag)
  · intro failure hcommand
    obtain ⟨rfl, _⟩ := h.exists_of_command_eq_error hjson hcommand
    exact ⟨rfl, by decide +kernel⟩
  · intro command hcommand
    have hflags : ∀ flag ∈ job.flags, Command.argument flag.2 = .ok flag.2.word := by
      intro flag hflag
      have hplain := Command.not_isStructured_of_build hcommand flag hflag
      exact (h.flag_cases hjson flag hflag).resolve_right fun hstructured => hplain hstructured.2
    have hbuild : job.command = _ := Command.build_of_words hflags harguments
    rw [hcommand, Except.ok.injEq] at hbuild
    refine ⟨hflags, hbuild, ?_⟩
    rw [hbuild, List.length_append, List.length_cons, Command.length_flatMap_words,
      List.length_map]
    omega

end

/-- A description of a domain job with a flag that no command has. -/
def descriptionWithNull : Value :=
  .table [("name", .text "md"), ("domain_names", .list [.text "a"]),
    ("resources", .table [("nodes", .number 1), ("tasks_per_node", .number 1)]),
    ("cli", .table [("executable", .text "app"), ("cli_args", .list [.number 3]),
      ("cli_kwargs", .table [("--\n", .null), ("--size", .text "small")])])]

theorem isJson_descriptionWithNull : descriptionWithNull.IsJson := by
  have hone : (Value.number 1).IsJson := .number (by decide +kernel)
  have hthree : (Value.number 3).IsJson := .number (by decide +kernel)
  refine .table (by decide) ?_
  simp only [List.forall_mem_cons, List.not_mem_nil, false_implies, implies_true, and_true]
  refine ⟨.text _, .list (by simpa using Value.IsJson.text "a"), .table (by decide) ?_,
    .table (by decide) ?_⟩
  · simpa using hone
  · simp only [List.forall_mem_cons, List.not_mem_nil, false_implies, implies_true, and_true]
    refine ⟨.text _, .list (by simpa using hthree), .table (by decide) ?_⟩
    simpa using ⟨Value.IsJson.null, Value.IsJson.text "small"⟩

theorem IsDescribed.command_cases_null :
    descriptionWithNull.IsJson ∧ ∃ job, IsDescribed descriptionWithNull job ∧
      job.command = .error (.unsupportedArgument "object") ∧
      ∃ flag ∈ job.flags, HasLineEnd flag.1 ∧ flag.2.IsStructured := by
  have hruns : ((domainOfDescription descriptionWithNull none none).map
      (·.command.isOk)).toOption = some false := by decide +kernel
  refine ⟨isJson_descriptionWithNull, ?_⟩
  cases hjob : domainOfDescription descriptionWithNull none none with
  | error failure =>
      rw [hjob] at hruns
      cases hruns
  | ok job =>
      rw [hjob] at hruns
      have hfalse : job.command.isOk = false := Option.some.inj hruns
      have hdescribed := IsDescribed.domain hjob
      obtain ⟨hfails, hwords, _⟩ := hdescribed.command_cases isJson_descriptionWithNull
      cases hcommand : job.command with
      | ok command =>
          rw [hcommand] at hfalse
          cases hfalse
      | error failure =>
          obtain ⟨rfl, _⟩ := hwords failure hcommand
          exact ⟨job, hdescribed, hcommand, hfails.mp ⟨_, hcommand⟩⟩

end Job

end Dispatch
