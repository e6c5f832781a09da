import Dispatch.Proofs.Job.Building

/-!
# Environments of jobs

The environment of a job is the value that its options give, on top of the base environment
that they name.  `JobFields.environment_cases` says for which values a job gets an
environment, what the environment answers to every name and in which order its names stand,
and what is said of other values.
-/

namespace Dispatch

namespace JobFields

variable {options : JobOptions}

theorem create_of_validate_ok {environment : Environment}
    (hexecutable : trim options.executable ≠ "")
    (h : Environment.validate options.environment "environment" = .ok environment) :
    (create options).map JobFields.environment =
      (options.resources.mapM ResourceRequest.create).map fun _ =>
        environment.onTopOf options.baseEnvironment := by
  simp only [create, if_neg hexecutable, h]
  cases options.resources.mapM ResourceRequest.create <;> rfl

theorem create_of_validate_error {failure : Failure} (hexecutable : trim options.executable ≠ "")
    (h : Environment.validate options.environment "environment" = .error failure) :
    create options = .error failure := by
  simp only [create, if_neg hexecutable, h]
  rfl

/--
The environment of a job.  It merges what is given with the defined variables of the base
environment, and would be validated as it is; resources are all that the job can still be
refused for.  A value that gives no environment is refused by its kind or for the first of
its variables that is no text, before resources are looked at.
-/
theorem environment_cases (hexecutable : trim options.executable ≠ "")
    (hgiven : options.environment.members.keys.Nodup)
    (hbase : ∀ base, options.baseEnvironment = some base →
      base.keys.Nodup ∧ IsBaseEnvironment base) :
    (Environment.IsGiven options.environment ∧ ∃ environment : Environment,
      environment.IsMerge (options.baseEnvironment.getD []) options.environment.members ∧
      (∀ field, Environment.validate (.table environment) field = .ok environment) ∧
      (create options).map JobFields.environment =
        (options.resources.mapM ResourceRequest.create).map fun _ => environment) ∨
    (¬Environment.IsGiven options.environment ∧ ∃ failure,
      Environment.IsRefused "environment" options.environment failure ∧
      failure.realm = .configuration ∧ create options = .error failure) := by
  rcases hvalidate : Environment.validate options.environment "environment" with
    failure | environment
  · have hrefused := Environment.validate_eq_error_iff.mp hvalidate
    refine Or.inr ⟨?_, failure, hrefused, hrefused.realm_eq,
      create_of_validate_error hexecutable hvalidate⟩
    rw [← Environment.exists_validate_iff "environment", hvalidate]
    rintro ⟨_, ⟨⟩⟩
  · have hvalid := (Environment.exists_validate_iff _).mp ⟨environment, hvalidate⟩
    obtain rfl := Except.ok.inj (hvalidate.symm.trans (Environment.validate_of_isGiven hvalid _))
    have hmerge := Environment.isMerge_onTopOf hgiven fun base h => (hbase base h).1
    have htext := Environment.isText_onTopOf (Environment.isText_of_validate hvalidate)
      fun base h => (hbase base h).2
    exact Or.inl ⟨hvalid, _, hmerge, Environment.validate_table htext hmerge.unreserved,
      create_of_validate_ok hexecutable hvalidate⟩

/-- Options in which indices and names are given and lie below, one of them in both places. -/
def overlappingOptions : JobOptions where
  name := "run"
  executable := " app "
  environment := .object .bare [("2", .text "two"), ("10", .text "ten"), ("X", .text "x"),
    ("HOME", .text "/job"), ("__proto__", .text "none")]
  baseEnvironment := some [("7", .text "seven"), ("HOME", .text "/home"), ("USER", .missing),
    ("LANG", .text "C")]

theorem environment_cases_overlapping :
    trim overlappingOptions.executable ≠ "" ∧
    overlappingOptions.environment.members.keys.Nodup ∧
    (∀ base, overlappingOptions.baseEnvironment = some base →
      base.keys.Nodup ∧ IsBaseEnvironment base) ∧
    Environment.IsGiven overlappingOptions.environment ∧ ∃ environment : Environment,
      environment.IsMerge (overlappingOptions.baseEnvironment.getD [])
        overlappingOptions.environment.members ∧
      Environment.validate (.table environment) "environment" = .ok environment ∧
      (create overlappingOptions).map JobFields.environment = .ok environment ∧
      environment = [("2", .text "two"), ("7", .text "seven"), ("10", .text "ten"),
        ("HOME", .text "/job"), ("LANG", .text "C"), ("X", .text "x")] := by
  have hexecutable : trim overlappingOptions.executable ≠ "" := by decide
  have hgiven : overlappingOptions.environment.members.keys.Nodup := by decide
  have hbase : ∀ base, overlappingOptions.baseEnvironment = some base →
      base.keys.Nodup ∧ IsBaseEnvironment base := by
    rintro base ⟨⟩
    exact ⟨by decide, by simp [IsBaseEnvironment]⟩
  have hvalid : Environment.IsGiven overlappingOptions.environment :=
    .table (Or.inr rfl) (by simp)
  have hmade : (create overlappingOptions).map JobFields.environment =
      .ok [("2", .text "two"), ("7", .text "seven"), ("10", .text "ten"),
        ("HOME", .text "/job"), ("LANG", .text "C"), ("X", .text "x")] := by
    rfl
  rcases environment_cases hexecutable hgiven hbase with
    ⟨_, environment, hmerge, hvalidate, hcreate⟩ | ⟨hnot, _⟩
  · have henvironment := Except.ok.inj (hcreate.symm.trans hmade)
    exact ⟨hexecutable, hgiven, hbase, hvalid, environment, hmerge, hvalidate _, hcreate,
      henvironment⟩
  · exact absurd hvalid hnot

end JobFields

end Dispatch
