import FlowForm.Graph.Build
import FlowForm.Listing.Error
import FlowForm.Ssa.Counter

/-!
# Errors of runs

What can go wrong while a function is taken through the steps of a run.
-/

namespace FlowForm

/-- Why a run stops, or a request to it is refused. -/
inductive RunError where
  | listing (cause : ListingError)
  | graph (cause : GraphError)
  | ssa (cause : SsaError)
  /-- Something is asked for that an earlier step has to provide. -/
  | stepNotReached (step : String)
  | unknownStep (step : String)
  | duplicateStep (step : String)
  /-- A step is to be added to a run that is under way. -/
  | alreadyStarted (step : String)
  | stepFailed (step : String) (cause : RunError)
  /-- The run goes no further, because the given step has failed before. -/
  | aborted (step : String)
deriving DecidableEq

namespace RunError

/-- The wording of an error. -/
def message : RunError → String
  | listing cause => "Disassembly error: " ++ cause.message
  | graph cause => "Flow graph error: " ++ cause.message
  | ssa cause => "SSA error: " ++ cause.message
  | stepNotReached step => "Step not reached: run " ++ step ++ " first"
  | unknownStep step => "Unknown step: " ++ step
  | duplicateStep step => "Duplicate step: " ++ step
  | alreadyStarted step => "Cannot add step " ++ step ++ ": the run has already started"
  | stepFailed step cause => "Step " ++ step ++ " failed: " ++ cause.message
  | aborted step => "Run aborted: step " ++ step ++ " failed earlier"

/-- What made a step fail in the first place. -/
def root : RunError → RunError
  | stepFailed _ cause => cause.root
  | e => e

end RunError

end FlowForm
