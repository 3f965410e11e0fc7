import FlowForm.Metrics
import FlowForm.Pipeline.Error
import FlowForm.Ssa.Renaming

/-!
# The state of a run

What the steps of a run work on. A **session** is the state of one run together with the metrics,
which outlive it.
-/

namespace FlowForm

/-- Choices that hold for a whole run. -/
structure Config where
  unresolvedTargets : UnresolvedTargets := .reject
  /-- Whether placeholders that nothing reads are dropped. -/
  prunePhis : Bool := true
deriving DecidableEq

namespace Step

/-- The step that builds the flow graph. -/
def basicBlocks : String := "basic_blocks"

/-- The step that brings it into single-assignment form. -/
def ssa : String := "ssa"

/-- The step that drops placeholders. -/
def pruned : String := "pruned"

/-- The step that checks and counts the result. -/
def finalize : String := "finalize"

end Step

/-- The **state** of one run. -/
structure RunState where
  /-- Address at which the function is entered. -/
  entry : Nat
  config : Config := {}
  flow : Option FlowGraph := none
  counter : Counter := Counter.fresh
  stats : Option Ssa.Stats := none
  /-- The number of placeholders dropped. -/
  prunedPhis : Option Nat := none
  /-- The steps that have been completed, in order. -/
  completed : List String := []
  /-- Position of the step that comes next. -/
  nextStep : Nat := 0
deriving DecidableEq

namespace RunState

/-- Whether a step has been completed. -/
def hasRun (s : RunState) (step : String) : Bool :=
  s.completed.contains step

/-- The flow graph, which is there from the first step on. -/
def flowGraph (s : RunState) : Except RunError FlowGraph :=
  match s.flow with
  | some g => .ok g
  | none => .error (.stepNotReached Step.basicBlocks)

end RunState

/-- A run and the metrics it adds to. -/
structure Session where
  state : RunState
  metrics : Metrics := {}

end FlowForm
