import Dispatch.Proofs.Job.Preparation
import Dispatch.Proofs.Json.Plain

/-!
# Jobs in which zero has no sign

Documents know one zero only.  `Job.settled` is a job with the signs of its zeros
dropped: it is as sound as the job, and what is asked of both is answered alike.
-/

namespace Dispatch

/-- A value in which zero has no sign. -/
def Value.settled : Value → Value
  | .number x => .number x.settled
  | value => value

/-- Resources in which zero has no sign. -/
def ResourceSpec.settled (spec : ResourceSpec) : ResourceSpec :=
  { spec with
    nodes := spec.nodes.settled
    tasksPerNode := spec.tasksPerNode.settled
    coresPerTask := spec.coresPerTask.settled
    gpusPerTask := spec.gpusPerTask.settled }

/-- Fields in which zero has no sign. -/
def JobFields.settled (fields : JobFields) : JobFields :=
  { fields with
    resources := fields.resources.map ResourceSpec.settled
    arguments := fields.arguments.map Value.settled
    flags := fields.flags.map fun flag => (flag.1, flag.2.settled) }

/-- A job in which zero has no sign. -/
def Job.settled (job : Job) : Job :=
  { job with toJobFields := job.toJobFields.settled }

/-- A submission in which zero has no sign. -/
def Submission.settled (submission : Submission) : Submission :=
  { submission with
    totalTasks := submission.totalTasks.settled
    nodes := submission.nodes.settled
    coresPerTask := submission.coresPerTask.settled
    gpusPerTask := submission.gpusPerTask.settled }

theorem JobFields.keys_settled_flags (fields : JobFields) :
    Dict.keys fields.settled.flags = fields.flags.keys := by
  simp [JobFields.settled, Dict.keys, Function.comp_def]

/-! ## Answers -/

theorem Number.text_settled (x : Number) : x.settled.text = x.text := by
  cases x with
  | nan => rfl
  | infinite negative => rfl
  | finite negative magnitude =>
      rw [settled, text, text, Json.chars_finite, Json.chars_finite, Bool.and_assoc, Bool.and_self]

theorem Number.IsCount.settled {least : Nat} {x : Number} (h : x.IsCount least) :
    x.settled.IsCount least := by
  rw [IsCount, isInteger_settled, less_settled]
  exact h

theorem Number.settled_ofUnits (numerator denominator : Nat) :
    (ofUnits false numerator denominator).settled = ofUnits false numerator denominator := by
  unfold ofUnits
  cases Magnitude.nearest? numerator denominator with
  | none => rfl
  | some m => rfl

theorem Number.mul_eq (x y : Number) : x * y = mul x y :=
  rfl

theorem Number.finite_mul_finite (x y : Magnitude) :
    Number.finite false x * Number.finite false y = ofUnits false (x.units * y.units) one := by
  rw [mul_eq]
  simp only [mul, bne_self_eq_false]

theorem ResourceSpec.IsCounted.totalTasks_settled {spec : ResourceSpec} (h : spec.IsCounted) :
    spec.settled.totalTasks = spec.totalTasks.settled := by
  obtain ⟨nodes, hnodes⟩ := h.nodes.exists_eq_finite
  obtain ⟨tasks, htasks⟩ := h.tasksPerNode.exists_eq_finite
  have hpositive (m : Magnitude) : (Number.finite false m).settled = .finite false m := rfl
  rw [totalTasks, totalTasks, settled]
  simp only [hnodes, htasks, hpositive]
  rw [Number.finite_mul_finite, Number.settled_ofUnits]

namespace Command

theorem argument_settled (value : Value) : argument value.settled = argument value := by
  cases value with
  | number x => simp only [Value.settled, argument, Number.isFinite_settled, Number.text_settled]
  | _ => rfl

theorem build_settled (executable : String) (positional : List Value) (flags : Dict Value) :
    build executable (positional.map Value.settled)
        (flags.map fun entry => (entry.1, entry.2.settled)) =
      build executable positional flags := by
  have hflag (entry : String × Value) : flag (entry.1, entry.2.settled) = flag entry := by
    rw [flag, flag, argument_settled]
  simp only [build, List.mapM_map, Function.comp_def, argument_settled, hflag]

end Command

theorem JobFields.command_settled (fields : JobFields) :
    fields.settled.command = fields.command :=
  Command.build_settled _ _ _

theorem JobFields.IsSound.submission_settled {fields : JobFields} (h : fields.IsSound)
    (config : Config) (cwd : String) :
    fields.settled.submission config cwd =
      (fields.submission config cwd).map Submission.settled := by
  cases hspec : fields.resources with
  | none =>
      have hsettled : fields.settled.resources = none := by
        rw [settled, hspec, Option.map_none]
      simp only [submission, hsettled, hspec]
      rfl
  | some spec =>
      have hsettled : fields.settled.resources = some spec.settled := by
        rw [settled, hspec, Option.map_some]
      simp only [submission, hsettled, hspec, command_settled]
      cases fields.command with
      | error failure => rfl
      | ok command =>
          have htasks := (h.resources spec hspec).totalTasks_settled
          simp only [Bind.bind, Except.bind, htasks]
          rfl

/-! ## Soundness -/

theorem ResourceSpec.IsCounted.settled {spec : ResourceSpec} (h : spec.IsCounted) :
    spec.settled.IsCounted :=
  ⟨h.nodes.settled, h.tasksPerNode.settled, h.coresPerTask.settled, h.gpusPerTask.settled⟩

theorem Value.IsArgument.settled {value : Value} (h : value.IsArgument) :
    value.settled.IsArgument := by
  cases h with
  | text s => exact .text s
  | bool b => exact .bool b
  | number x => exact .number x.settled

theorem JobFields.IsSound.settled {fields : JobFields} (h : fields.IsSound) :
    fields.settled.IsSound := by
  refine ⟨h.executable, h.environment, ?_, ?_, ⟨?_, ?_⟩⟩
  · intro spec hspec
    obtain ⟨whole, hwhole, rfl⟩ := Option.map_eq_some_iff.mp hspec
    exact (h.resources whole hwhole).settled
  · intro value hvalue
    obtain ⟨whole, hwhole, rfl⟩ := List.mem_map.mp hvalue
    exact (h.arguments whole hwhole).settled
  · exact Dict.isOrdered_of_keys_eq fields.keys_settled_flags h.flags.ordered
  · intro flag hflag
    obtain ⟨whole, hwhole, rfl⟩ := List.mem_map.mp hflag
    exact (h.flags.values whole hwhole).settled

theorem Value.isFinite_of_settled_eq {value : Value} {x : Number}
    (hx : value.settled = .number x) :
    ∃ y, value = .number y ∧ y.isFinite = x.isFinite := by
  cases value with
  | number y =>
      cases hx
      exact ⟨y, rfl, (Number.isFinite_settled y).symm⟩
  | _ => cases hx

theorem JobFields.HasFiniteNumbers.settled {fields : JobFields} (h : fields.HasFiniteNumbers) :
    fields.settled.HasFiniteNumbers where
  arguments := by
    intro x hx
    obtain ⟨whole, hwhole, heq⟩ := List.mem_map.mp hx
    obtain ⟨y, rfl, hfinite⟩ := Value.isFinite_of_settled_eq heq
    rw [← hfinite]
    exact h.arguments y hwhole
  flags := by
    intro name x hx
    obtain ⟨⟨key, whole⟩, hwhole, heq⟩ := List.mem_map.mp hx
    obtain ⟨hkey, hsettled⟩ := Prod.mk.inj heq
    obtain ⟨y, rfl, hfinite⟩ := Value.isFinite_of_settled_eq hsettled
    rw [← hfinite]
    exact h.flags key y hwhole

theorem Job.IsSound.settled {job : Job} (h : job.IsSound) : job.settled.IsSound :=
  ⟨h.fields.settled, h.learning⟩

end Dispatch
