import FlowForm.Pipeline.Pass

/-!
# Staged runs

A **decompiler** takes one function through its passes, and can stop after any of them. Further
passes can be added before the run starts; they take their place just before the last one. When a
pass fails the run is over: nothing moves it on any more.

How long a pass takes is measured by the monad in which the run takes place. The identity monad has
no clock, and there every pass takes no time at all.
-/

namespace FlowForm

/-- Monads that can say how long a computation takes, in nanoseconds. -/
class Stopwatch (m : Type → Type) where
  measure {α : Type} (f : Unit → α) : m (α × Nat)

instance : Stopwatch Id where
  measure f := pure (f (), 0)

/-- A **decompiler** for one function. -/
structure Decompiler where
  source : Source
  /-- The passes that have been added to the built-in ones. -/
  added : List Pass := []
  session : Session
  /-- The step that has failed. -/
  failed : Option String := none

namespace Decompiler

/-- A decompiler for the function at `entry`. -/
def start (source : Source) (entry : Nat) (config : Config := {}) (metrics : Metrics := {}) :
    Decompiler where
  source
  session := { state := { entry, config }, metrics }

/-- The state of the run. -/
def state (d : Decompiler) : RunState :=
  d.session.state

/-- All passes, in the order in which they run. -/
def passes (d : Decompiler) : List Pass :=
  [Pass.basicBlocks d.source, Pass.ssa, Pass.pruned] ++ d.added ++ [Pass.finalize]

/-- The names of the steps, in order. -/
def steps (d : Decompiler) : List String :=
  d.passes.map (·.name)

/-- The step that comes next. -/
def nextStep? (d : Decompiler) : Option String :=
  d.steps[d.state.nextStep]?

/-- Whether all steps have been completed. -/
def isFinished (d : Decompiler) : Bool :=
  d.steps.length ≤ d.state.nextStep

/-- Changes the configuration. -/
def withConfig (d : Decompiler) (config : Config) : Decompiler :=
  { d with session.state.config := config }

/-- Adds a pass just before the last one, under a name of its own, unless the run has started. -/
def withPass (d : Decompiler) (pass : Pass) : Except RunError Decompiler :=
  if 0 < d.state.nextStep || d.failed.isSome then .error (.alreadyStarted pass.name)
  else if pass.name ∈ d.steps then .error (.duplicateStep pass.name)
  else .ok { d with added := d.added ++ [pass] }

/-! ### Running -/

/-- Moves a decompiler on, or fails; the decompiler stays as it is at that point. -/
abbrev RunM (m : Type → Type) := ExceptT RunError (StateT Decompiler m)

/-- The session in which a step starts. The first step starts with a new counter. -/
def sessionBefore (d : Decompiler) : Session :=
  if d.state.nextStep = 0 then { d.session with state.counter := Counter.fresh } else d.session

/-- The session after a step has been completed. -/
def sessionAfter (session : Session) (step : String) (nanos : Nat) : Session where
  state := { session.state with
    completed := session.state.completed ++ [step]
    nextStep := session.state.nextStep + 1 }
  metrics := session.metrics.recordStep step nanos

section

variable {m : Type → Type} [Monad m] [Stopwatch m]

/-- Runs the next pass. -/
def runStep : RunM m Unit := do
  let d ← get
  match d.passes[d.state.nextStep]? with
  | none => return ()
  | some pass =>
    let ((outcome, session), nanos) ←
      (Stopwatch.measure fun _ => (pass.run.run d.sessionBefore) :
        m ((Except RunError Unit × Session) × Nat))
    match outcome with
    | .ok () => set { d with session := sessionAfter session pass.name nanos }
    | .error cause =>
      set { d with session, failed := some pass.name }
      throw (.stepFailed pass.name cause)

/-- Runs passes as long as the next one stands before `limit`, at most `bound` of them. -/
def runBelow (limit : Nat) : (bound : Nat) → RunM m Unit
  | 0 => return ()
  | bound + 1 => do
    if (← get).state.nextStep < limit then
      runStep
      runBelow limit bound

/-- Fails if an earlier step has failed. -/
def checkAborted : RunM m Unit := do
  if let some step := (← get).failed then
    throw (.aborted step)

/-- Runs all steps that are left. -/
def runToCompletion : RunM m Unit := do
  checkAborted
  let count := (← get).passes.length
  runBelow count count

/-- Runs all steps that are left up to the named one, which may have been completed already. -/
def runUntil (step : String) : RunM m Unit := do
  checkAborted
  let steps := (← get).steps
  match steps.idxOf? step with
  | some position => runBelow (position + 1) steps.length
  | none => throw (.unknownStep step)

end

end Decompiler

end FlowForm
