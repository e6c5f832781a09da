import Dispatch.Proofs.Job.Table

/-!
# Jobs written as documents and taken back

A job is written as the document of its table and taken back from it.  The document
knows one zero only, so what comes back is the settled job.

A number that is not finite stands as null in the document, where the schema refuses it
unless it is bound to a key that is not checked.
-/

namespace Dispatch

namespace Job

/-- The document that a table of a job is written as. -/
theorem read?_writeTable {job : Job} (h : job.toJobFields.IsPlain) :
    ∃ text, Json.writeTable .compact job.toTable = .ok text ∧
      Json.read? text = some (.table (Value.serialMembers job.toTable)) := by
  have hplain := job.isPlain_toTable h
  have hserial := Value.serial?_table (Value.isPlain_table_iff.mp hplain).2
  exact ⟨_, Json.writeTable_of_isPlain hplain,
    Json.read?_print Json.Style.isLegible_compact (hplain.isDocument hserial)⟩

theorem IsSound.read?_writeTable {job : Job} (h : job.IsSound) :
    ∃ text, Json.writeTable .compact job.toTable = .ok text ∧
      Json.read? text = some (.table (Value.serialMembers job.toTable)) :=
  Job.read?_writeTable h.fields.isPlain

/-- The table of a settled job is its own document. -/
theorem IsSound.serialMembers_settled {job : Job} (h : job.IsSound)
    (hfinite : job.HasFiniteNumbers) :
    Value.serialMembers job.settled.toTable = job.settled.toTable := by
  have hserial := Value.serial?_table (Value.isPlain_table_iff.mp h.isPlain_toTable).2
  have hdocument := h.isPlain_toTable.isDocument hserial
  rw [h.serialMembers_toTable hfinite] at hdocument
  have hself := hdocument.serial?_eq
  rw [Value.serial?_table (Value.isPlain_table_iff.mp hdocument.isPlain).2] at hself
  exact (Value.object.inj (Option.some.inj hself)).2

/-- A job and its settled form are described alike. -/
theorem IsSound.describe_settled {job : Job} (h : job.IsSound) (hfinite : job.HasFiniteNumbers) :
    job.settled.describe = job.describe := by
  have htext : Json.writeTable .compact job.settled.toTable =
      Json.writeTable .compact job.toTable := by
    rw [Json.writeTable_of_isPlain h.settled.isPlain_toTable,
      Json.writeTable_of_isPlain h.isPlain_toTable, h.serialMembers_toTable hfinite,
      h.serialMembers_settled hfinite]
  have hcommand : job.settled.command = job.command := job.toJobFields.command_settled
  have hlabel : job.settled.role = job.role := rfl
  rw [describe, describe, htext, hcommand, hlabel]

/-! ## Tables that are refused -/

theorem schemas_required {s : Schema} (hs : s ∈ schemas) :
    ∃ kind members, s = roleSchema kind members ∧ ∀ part ∈ members, part.2.1 = true := by
  simp only [schemas, List.mem_cons, List.not_mem_nil, or_false] at hs
  rcases hs with rfl | rfl | rfl | rfl | rfl
  · exact ⟨_, _, rfl, by simp⟩
  · exact ⟨_, _, rfl, by simp [Schema.required]⟩
  · exact ⟨_, _, rfl, by simp [Schema.required]⟩
  · exact ⟨_, _, rfl, by simp [StageDetails.tableMembers, Schema.required]⟩
  · exact ⟨_, _, rfl, by simp [Schema.required]⟩

/-- What the document of a job holds under the names of its table. -/
theorem member_document (job : Job) (name : String) (value : Value)
    (hentry : (name, value) ∈ job.toTable) :
    (Value.table (Value.serialMembers job.toTable)).member name =
      value.serial?.getD .missing := by
  rw [Schema.member_serialMembers job.isOrdered_toTable, job.member_toTable hentry]

theorem IsSound.isPlain_document {job : Job} (h : job.IsSound) :
    (Value.table (Value.serialMembers job.toTable)).IsPlain := by
  have hserial := Value.serial?_table (Value.isPlain_table_iff.mp h.isPlain_toTable).2
  exact (h.isPlain_toTable.isDocument hserial).isPlain

theorem serial?_of_not_isFinite {x : Number} (h : ¬x.isFinite = true) :
    (Value.number x).serial? = some .null := by
  rw [Value.serial?, Number.serial?_eq_none (Bool.eq_false_iff.mpr h)]
  rfl

theorem not_accepts_argument_null : ¬Schema.argument.accepts .null = true := by
  rw [Schema.argument, Schema.accepts_union_iff]
  simp [Schema.accepts, Schema.check?]

/-- An accepted document of a job has finite numbers wherever it is checked. -/
theorem IsSound.isFinite_of_accepts {job : Job} (h : job.IsSound)
    (haccepts : schema.accepts (.table (Value.serialMembers job.toTable)) = true) :
    (∀ x, .number x ∈ job.arguments → x.isFinite = true) ∧
      ∀ name x, (name, .number x) ∈ job.flags → Schema.isCheckedKey name = true →
        x.isFinite = true := by
  obtain ⟨s, hs, haccepted⟩ := Schema.accepts_union_iff.mp haccepts
  obtain ⟨kind, members, rfl, hrequired⟩ := schemas_required hs
  have hfields := ((accepts_roleSchema_iff hrequired h.isPlain_document).mp haccepted).1
  constructor
  · intro x hx
    have harguments := hfields (Schema.required "cli_args" (.list .argument 0))
      (by simp [JobFields.tableMembers])
    rw [Schema.required, job.member_document "cli_args" (.list job.arguments)
      (by simp [toTable, JobFields.toTable]), Value.serial?, Value.serialItems_eq_map,
      Option.getD_some, Schema.accepts_list_iff] at harguments
    have haccepted := harguments.2 _ (List.mem_map.mpr ⟨_, hx, rfl⟩)
    by_contra hinfinite
    rw [serial?_of_not_isFinite hinfinite] at haccepted
    exact not_accepts_argument_null haccepted
  · intro name x hx hkey
    have hflags := hfields (Schema.required "cli_kwargs" (.dictionary .argument))
      (by simp [JobFields.tableMembers])
    rw [Schema.required, job.member_document "cli_kwargs" (.table job.flags)
      (by simp [toTable, JobFields.toTable]),
      Value.serial?_table (Value.isPlain_table_iff.mp h.fields.flags.isPlain).2,
      Option.getD_some, Schema.accepts_dictionary_iff] at hflags
    by_contra hinfinite
    have hmem := Value.mem_serialMembers.mpr ⟨_, hx, serial?_of_not_isFinite hinfinite⟩
    exact not_accepts_argument_null (hflags _ hmem hkey)

/-- An accepted document of a domain job names its domains. -/
theorem IsSound.hasNamedDomains_of_accepts {job : Job} (h : job.IsSound)
    (haccepts : schema.accepts (.table (Value.serialMembers job.toTable)) = true) :
    job.HasNamedDomains := by
  intro names stageDir objectsPath hrole hname
  have hkind : (Value.table (Value.serialMembers job.toTable)).member "kind" =
      .text "domain" := by
    rw [job.member_document "kind" (.text "domain") (by simp [toTable, hrole, Role.toTable,
      Role.kind])]
    rfl
  have hnames := job.member_document "domain_names" (.list (names.map .text))
    (by simp [toTable, hrole, Role.toTable])
  rw [Value.serial?, Value.serialItems_eq_map, List.map_map, Option.getD_some] at hnames
  have hparts {kind : Schema} {members : List (String × Bool × Schema)}
      (hrequired : ∀ part ∈ members, part.2.1 = true)
      (haccepted : (roleSchema kind members).accepts
        (.table (Value.serialMembers job.toTable)) = true) :
      kind.accepts (.text "domain") = true ∧ ∀ part ∈ members, part.2.2.accepts
        ((Value.table (Value.serialMembers job.toTable)).member part.1) = true := by
    have h' := ((accepts_roleSchema_iff hrequired h.isPlain_document).mp haccepted).2
    rw [hkind] at h'
    exact h'
  obtain ⟨s, hs, haccepted⟩ := Schema.accepts_union_iff.mp haccepts
  simp only [schemas, List.mem_cons, List.not_mem_nil, or_false] at hs
  rcases hs with rfl | rfl | rfl | rfl | rfl
  · exact absurd (hparts (by simp) haccepted).1 (by decide)
  · have hdomains := (hparts (by simp [Schema.required]) haccepted).2
      (Schema.required "domain_names" (.list (.text 1) 0)) (by simp)
    rw [Schema.required, hnames, Schema.accepts_list_iff] at hdomains
    have hempty := hdomains.2 (.text "") (List.mem_map.mpr ⟨"", hname, rfl⟩)
    exact absurd rfl (Schema.accepts_text_iff.mp hempty)
  · exact absurd (hparts (by simp [Schema.required]) haccepted).1 (by decide)
  · exact absurd (hparts (by simp [StageDetails.tableMembers, Schema.required]) haccepted).1
      (by decide)
  · exact absurd (hparts (by simp [Schema.required]) haccepted).1 (by decide)

theorem ofTable_of_not_accepts {value : Value} (h : ¬schema.accepts value = true) :
    ofTable value =
      .error (.refused .configuration "job description" ⟨[], .noAlternative⟩) := by
  have hone : Schema.acceptedByOne schemas value = false := by
    rw [Schema.accepts_iff, schema, Schema.check?] at h
    cases hone : Schema.acceptedByOne schemas value with
    | false => rfl
    | true => simp [hone] at h
  have hcheck : schema.check? value = some ⟨[], .noAlternative⟩ := by
    rw [schema, Schema.check?, hone]
    rfl
  rw [ofTable, Schema.checkValue, hcheck]
  rfl

/-! ## The round trip -/

/-- A job whose table is accepted is taken back from the document of that table. -/
theorem IsAccepted.ofTable_reduced {job : Job} (h : job.IsAccepted) :
    ∃ text document, Json.writeTable .compact job.toTable = .ok text ∧
      Json.read? text = some document ∧ ofTable document = .ok job.reduced := by
  obtain ⟨text, htext, hread⟩ := job.read?_writeTable h.fields.plain
  refine ⟨text, _, htext, hread, ?_⟩
  have hplain := job.isPlain_toTable h.fields.plain
  have hserial := Value.serial?_table (Value.isPlain_table_iff.mp hplain).2
  have haccepts := (Schema.keepsReductions schema).serial hplain hserial h.accepts_toTable
  rw [job.serialMembers_toTable h.fields.plain h.fields.resources] at haccepts ⊢
  apply ofTable_of_accepts haccepts
  intro spec hspec
  obtain ⟨whole, hwhole, rfl⟩ := Option.map_eq_some_iff.mp hspec
  exact (h.fields.resources whole hwhole).settled

/--
The document of a job with finite numbers and named domains is taken back as the settled
job, which answers what the job answers.  A number that is not finite, unless it is under a
key that is not checked, and a domain without a name make the document a refused one.
-/
theorem IsReachable.ofTable_document {job : Job} (h : job.IsReachable) :
    ∃ text document, Json.writeTable .compact job.toTable = .ok text ∧
      Json.read? text = some document ∧
      (job.HasFiniteNumbers → job.HasNamedDomains →
        ofTable document = .ok job.settled ∧
        job.settled.environment = job.environment ∧
        Dict.keys job.settled.flags = job.flags.keys ∧
        job.settled.command = job.command ∧
        (∀ config cwd, job.settled.submission config cwd =
          (job.submission config cwd).map Submission.settled) ∧
        job.settled.describe = job.describe) ∧
      ((∃ x, .number x ∈ job.arguments ∧ x.isFinite = false) ∨
          (∃ name x, (name, .number x) ∈ job.flags ∧ Schema.isCheckedKey name = true ∧
            x.isFinite = false) ∨
          ¬job.HasNamedDomains →
        ofTable document =
          .error (.refused .configuration "job description" ⟨[], .noAlternative⟩)) := by
  have hjob := h.isSound
  obtain ⟨text, htext, hread⟩ := hjob.read?_writeTable
  refine ⟨text, _, htext, hread, fun hfinite hnamed => ?_, fun hbad => ?_⟩
  · refine ⟨?_, rfl, job.toJobFields.keys_settled_flags, job.toJobFields.command_settled,
      hjob.fields.submission_settled, hjob.describe_settled hfinite⟩
    rw [hjob.serialMembers_toTable hfinite]
    exact hjob.settled.ofTable_toTable hfinite.settled hnamed
  · apply ofTable_of_not_accepts
    intro haccepts
    obtain ⟨harguments, hflags⟩ := hjob.isFinite_of_accepts haccepts
    rcases hbad with ⟨x, hx, hinfinite⟩ | ⟨name, x, hx, hkey, hinfinite⟩ | hunnamed
    · rw [harguments x hx] at hinfinite
      cases hinfinite
    · rw [hflags name x hx hkey] at hinfinite
      cases hinfinite
    · exact hunnamed (hjob.hasNamedDomains_of_accepts haccepts)

theorem ofTable_document_negative_zero :
    (withNumber (.finite true .zero)).IsReachable ∧
      ∃ text document,
        Json.writeTable .compact (withNumber (.finite true .zero)).toTable = .ok text ∧
        Json.read? text = some document ∧
        ofTable document = .ok (withNumber (.finite true .zero)).settled := by
  have hjob := IsReachable.built (isBuilt_withNumber (.finite true .zero))
  have hfinite : (withNumber (.finite true .zero)).HasFiniteNumbers := by
    constructor
    · intro x hx
      cases List.mem_singleton.mp hx
      rfl
    · intro name x hx
      cases hx
  have hnamed : (withNumber (.finite true .zero)).HasNamedDomains := by
    intro names stageDir objectsPath hrole
    cases hrole
    decide
  obtain ⟨text, document, hwrite, hread, hround, _⟩ := hjob.ofTable_document
  exact ⟨hjob, text, document, hwrite, hread, (hround hfinite hnamed).1⟩

end Job

end Dispatch
