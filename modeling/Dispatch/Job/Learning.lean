import Dispatch.Job.Domain
import Dispatch.Template

/-!
# Training and sub-selection jobs

These jobs work on the data of one domain.  Their arguments are templates that may
refer to the store; they are filled in when the job is made, so that a bad template
is found then and not at submission.
-/

namespace Dispatch

namespace Schema

/-- What descriptions of training and sub-selection jobs hold. -/
def learningDescription : Schema :=
  .table [
    required "name" (.text 1),
    required "domain_name" (.text 1),
    required "resources" ResourceSpec.schema,
    optional "ams_log" .boolean,
    required "cli" commandLine] false

end Schema

namespace Template

/-- A flag with its value filled in; the flag itself is no template. -/
def formatFlag (context : Context) (entry : String × Value) : Except Failure (String × Value) := do
  return (entry.1, ← formatArgument context entry.2)

end Template

namespace Job

/-- A job that works on a domain, with its arguments filled in. -/
def learning (phase : LearningPhase) (options : JobOptions) (subject : String)
    (context : Template.Context) : Except Failure Job := do
  if trim subject = "" then throw (.noDomain options.name)
  let arguments ← options.arguments.mapM (Template.formatArgument context)
  let flags ← options.flags.mapM (Template.formatFlag context)
  return {
    toJobFields := ← JobFields.create
      { options with arguments := arguments, flags := Dict.assignAll [] flags }
    role := .learning phase (trim subject) }

/-- The training or sub-selection job in a description, for a store. -/
def learningOfDescription (phase : LearningPhase) (storePath : String) (description : Value) :
    Except Failure Job := do
  let description ← Schema.learningDescription.checkValue description
    (phase.name ++ " job description") .configuration
  learning phase { JobOptions.ofDescription description with environment := .null }
    (description.textMember "domain_name") ⟨storePath⟩

end Job

end Dispatch
