import Dispatch.Proofs.Job.RoundTrip
import Dispatch.Proofs.Json.Compact
import Dispatch.Proofs.Shell
import Dispatch.Proofs.Text.Lines

/-!
# Summaries of jobs

A summary puts the label, the command line and the table of a job one below the other.  The
label and the table never have a line end in them, so the summary is taken apart at its first
and its last one, even where the words of the command have line ends of their own.  The table
is read back from the last part; the command line can be read by a shell, as
`Command.line_is_read_back` says.

There is no summary of a job with a number that is not finite, since there is no command.
-/

namespace Dispatch

namespace Role

/-- How jobs are called in summaries; staging jobs go by their variant too. -/
inductive IsCalled : Role → String → Prop
  | generic : IsCalled .generic "job"
  | domain {names : List String} {stageDir objectsPath : Option String} :
      IsCalled (.domain names stageDir objectsPath) "domain"
  | training {subject : String} : IsCalled (.learning .training subject) "train"
  | subSelection {subject : String} : IsCalled (.learning .subSelection subject) "sub-select"
  | fsStage {details : StageDetails} (h : details.variant = .fs) :
      IsCalled (.stage details) "stage:fs"
  | networkStage {details : StageDetails} (h : details.variant = .network) :
      IsCalled (.stage details) "stage:network"
  | fsPersistentStage {details : StageDetails} (h : details.variant = .fsPersistent) :
      IsCalled (.stage details) "stage:fs-persistent"
  | orchestrator {schedulerUri brokerConfigPath : String} :
      IsCalled (.orchestrator schedulerUri brokerConfigPath) "orchestrator"

theorem isCalled_label (role : Role) : role.IsCalled role.label := by
  cases role with
  | generic => exact .generic
  | domain => exact .domain
  | learning phase subject =>
      cases phase with
      | training => exact .training
      | subSelection => exact .subSelection
  | stage details =>
      rw [label]
      cases hvariant : details.variant with
      | fs => exact .fsStage hvariant
      | network => exact .networkStage hvariant
      | fsPersistent => exact .fsPersistentStage hvariant
  | orchestrator => exact .orchestrator

/-- Labels have no line ends. -/
theorem IsCalled.not_mem {role : Role} {label : String} (h : role.IsCalled label) :
    '\n' ∉ label.toList := by
  cases h <;> decide

end Role

namespace Job

variable {job : Job}

/-- The text of a compact document stands on one line. -/
theorem not_mem_document {members : Dict Value} {text : String}
    (hplain : (Value.table members).IsPlain) (h : Json.writeTable .compact members = .ok text) :
    '\n' ∉ ("Description: " ++ text).toList := by
  rw [Json.writeTable_of_isPlain hplain] at h
  cases h
  have hdocument := Json.isOneLine_chars 0 (.table (Value.serialMembers members))
  simpa [Json.print] using hdocument.not_mem

/-- A job with a command is described by it and by its table. -/
theorem describe_of_command {command : Command} {document : String}
    (hcommand : job.command = .ok command)
    (hdocument : Json.writeTable .compact job.toTable = .ok document) :
    job.describe = .ok ("\n".intercalate
      [job.role.label, "CLI: " ++ Command.line command, "Description: " ++ document]) := by
  rw [describe, hcommand, hdocument]
  rfl

/-- The table of a job is always written, so that a description fails where the command does. -/
theorem IsSound.exists_describe_eq_error_iff (h : job.IsSound) :
    (∃ failure, job.describe = .error failure) ↔ ¬job.HasFiniteNumbers := by
  obtain ⟨document, hdocument, _⟩ := h.read?_writeTable
  rw [← JobFields.command_eq_ok_iff h.fields]
  cases hcommand : job.command with
  | ok command => simp [describe_of_command hcommand hdocument]
  | error failure =>
      have hdescribe : job.describe = .error failure := by
        rw [describe, hcommand]
        rfl
      simp [hdescribe]

/--
A job has a summary unless a number on its command line is not finite.  The first line of the
summary is what jobs of its kind are called.  The last one holds a document, from which the
table of the job is read but for the signs of zeros.  The command line stands between, and it
is one line itself exactly if no word of the command has a line end in it.
-/
theorem IsReachable.describe_cases (h : job.IsReachable) :
    ((∃ failure, job.describe = .error failure) ↔ ¬job.HasFiniteNumbers) ∧
      ∀ summary, job.describe = .ok summary →
        ∃ command document, job.command = .ok command ∧
          job.role.IsCalled (firstLine summary) ∧
          betweenLineEnds summary = "CLI: " ++ Command.line command ∧
          lastLine summary = "Description: " ++ document ∧
          Json.read? document = some (.table job.settled.toTable) ∧
          ((lines summary).length = 3 ↔ ∀ word ∈ command, '\n' ∉ word.toList) := by
  have hjob := h.isSound
  refine ⟨hjob.exists_describe_eq_error_iff, fun summary hsummary => ?_⟩
  have hfinite : job.HasFiniteNumbers := by
    by_contra hinfinite
    obtain ⟨failure, hfailure⟩ := hjob.exists_describe_eq_error_iff.mpr hinfinite
    rw [hfailure] at hsummary
    cases hsummary
  obtain ⟨command, hcommand⟩ := (JobFields.command_eq_ok_iff hjob.fields).mpr hfinite
  obtain ⟨document, hdocument, hread⟩ := hjob.read?_writeTable
  have hcalled := job.role.isCalled_label
  have hlabel := hcalled.not_mem
  have htable := not_mem_document hjob.isPlain_toTable hdocument
  rw [describe_of_command hcommand hdocument] at hsummary
  cases hsummary
  refine ⟨command, document, hcommand, ?_, betweenLineEnds_threeParts _ hlabel htable,
    lastLine_threeParts _ htable, ?_, ?_⟩
  · rwa [firstLine_threeParts _ hlabel]
  · rw [hread, hjob.serialMembers_toTable hfinite]
  · have hword := Command.mem_line_iff (c := '\n') (by decide) (by decide) (by decide) command
    have hline : '\n' ∉ ("CLI: " ++ Command.line command).toList ↔
        ∀ word ∈ command, '\n' ∉ word.toList := by
      simp [hword]
    rw [length_lines_threeParts _ hlabel htable, ← hline, ← List.count_eq_zero]
    omega

/-- The options of a staging job with a line end in an argument. -/
def optionsWithLineEnd : StageOptions where
  resources := none
  arguments := [.text "first\nsecond"]
  destinationPath := "out"
  persistentStorePath := "db"

/-- The command of a staging job with a line end in an argument. -/
def commandWithLineEnd : Command :=
  ["AMSDBStage", "--creds", "creds", "--mechanism", "network", "--dest", "out",
    "--persistent-db-path", "db", "--db-type", "dhdf5", "--policy", "process",
    "first\nsecond", "--store"]

theorem IsReachable.describe_cases_line_end :
    ∃ job summary document,
      networkStage (fun _ => true) "creds" false optionsWithLineEnd = .ok job ∧
      job.IsReachable ∧ job.describe = .ok summary ∧
      firstLine summary = "stage:network" ∧
      betweenLineEnds summary =
        "CLI: AMSDBStage --creds creds --mechanism network --dest out --persistent-db-path db" ++
          " --db-type dhdf5 --policy process \x27first\nsecond\x27 --store" ∧
      lastLine summary = "Description: " ++ document ∧
      Json.read? document = some (.table job.settled.toTable) ∧
      (lines summary).length ≠ 3 := by
  have hoptions : optionsWithLineEnd.IsWellTyped :=
    ⟨by simp [optionsWithLineEnd, Value.IsArgument.text], ⟨by decide, by simp [optionsWithLineEnd]⟩,
      by simp [optionsWithLineEnd]⟩
  have hvalues : (fun job => (job.role, job.command)) <$>
      networkStage (fun _ => true) "creds" false optionsWithLineEnd =
        .ok (.stage (detailsOf optionsWithLineEnd .network (.network "creds" false) none),
          .ok commandWithLineEnd) := by
    rfl
  obtain ⟨job, hstage, hboth⟩ := map_eq_ok_iff.mp hvalues
  obtain ⟨hrole, hcommand⟩ := Prod.mk.inj hboth
  have hjob := IsReachable.built (.networkStage hoptions hstage)
  obtain ⟨hfails, hparts⟩ := hjob.describe_cases
  cases hsummary : job.describe with
  | error failure =>
      have hinfinite := hfails.mp ⟨failure, hsummary⟩
      exact absurd ((JobFields.command_eq_ok_iff hjob.isSound.fields).mp ⟨_, hcommand⟩) hinfinite
  | ok summary =>
      obtain ⟨command, document, h, hcalled, hbetween, hlast, hread, hlines⟩ :=
        hparts summary hsummary
      rw [hcommand] at h
      cases h
      rw [hrole] at hcalled
      refine ⟨job, summary, document, hstage, hjob, hsummary, ?_, ?_, hlast, hread,
        fun hthree => ?_⟩
      · generalize firstLine summary = label at hcalled
        cases hcalled with
        | networkStage hvariant => rfl
        | fsStage hvariant | fsPersistentStage hvariant => cases hvariant
      · rw [hbetween]
        decide +kernel
      · exact hlines.mp hthree "first\nsecond" (by decide) (by decide)

end Job

end Dispatch
