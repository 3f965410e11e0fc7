import FlowForm.Pipeline.Decompiler

/-!
# Batches

Takes several functions through all steps, each in a run of its own. A function that fails does not
keep the others from being finished.
-/

namespace FlowForm

/-- A function to be taken through all steps. -/
structure Job where
  name : String
  source : Source
  entry : Nat := 0

/-- What has become of a job: the state at the end of its run, or the error that stopped it. -/
structure Outcome where
  name : String
  result : Except RunError RunState

section

variable {m : Type → Type} [Monad m] [Stopwatch m]

/-- Runs one job. -/
def Job.run (config : Config) (job : Job) : StateT Metrics m Outcome := do
  let d := Decompiler.start job.source job.entry config (← get)
  let (result, d) ← (Decompiler.runToCompletion (m := m)).run.run d
  set d.session.metrics
  return { name := job.name, result := result.map fun () => d.state }

/-- Runs jobs one after the other; their outcomes are in the same order. -/
def runBatch (config : Config) (jobs : List Job) : StateT Metrics m (List Outcome) :=
  jobs.mapM (·.run config)

end

end FlowForm
