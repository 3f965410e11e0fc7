import FlowForm.Listing.Source
import FlowForm.Pipeline.State
import FlowForm.Ssa.Construction
import FlowForm.Ssa.Pruning

/-!
# Passes

A **pass** is one named step of a run. It changes the session and may fail; what it has changed
before it fails stays changed. The four built-in passes change nothing when they fail:

* `basic_blocks` reads the items from the entry on and builds their flow graph;
* `ssa` brings the graph into single-assignment form;
* `pruned` drops the placeholders that nothing reads, unless the configuration says otherwise;
* `finalize` checks the graph once more and records the finished run.
-/

namespace FlowForm

/-- Changes a session, or fails. -/
abbrev PassM := ExceptT RunError (StateM Session)

/-- A **pass**. -/
structure Pass where
  name : String
  run : PassM Unit

namespace Pass

/-- Goes on with the value of a computation, or fails with its error. -/
def ofExcept {ε α : Type} (wrap : ε → RunError) : Except ε α → PassM α
  | .ok a => pure a
  | .error e => throw (wrap e)

/-- The state of the run. -/
def state : PassM RunState := do
  return (← get).state

/-- Changes the state of the run. -/
def modifyState (f : RunState → RunState) : PassM Unit :=
  modify fun s => { s with state := f s.state }

/-- The flow graph of the run. -/
def flowGraph : PassM FlowGraph := do
  ofExcept id (← state).flowGraph

/-- Builds the flow graph of the function in a source. -/
def basicBlocks (source : Source) : Pass where
  name := Step.basicBlocks
  run := do
    let s ← state
    let items ← ofExcept .listing (source.itemsFrom s.entry)
    let g ← ofExcept .graph (FlowGraph.build s.config.unresolvedTargets items)
    modifyState ({ · with flow := some g })

/-- Brings the flow graph into single-assignment form. The build works on the graph and the counter
of the run, so that what it has changed is there even if it fails. -/
def ssa : Pass where
  name := Step.ssa
  run := do
    let g ← flowGraph
    let s ← state
    let out := Ssa.build.run.run (g, s.counter)
    modifyState ({ · with flow := some out.2.1, counter := out.2.2 })
    let stats ← ofExcept .ssa out.1
    modifyState ({ · with stats := some stats })

/-- Drops placeholders that nothing reads. -/
def pruned : Pass where
  name := Step.pruned
  run := do
    let s ← state
    match s.stats with
    | none => throw (.stepNotReached Step.ssa)
    | some _ =>
      let g ← flowGraph
      let (g, removed) := if s.config.prunePhis then Ssa.prune g else (g, 0)
      modifyState ({ · with flow := some g, prunedPhis := some removed })

/-- Checks the flow graph and records the run. -/
def finalize : Pass where
  name := Step.finalize
  run := do
    let g ← flowGraph
    ofExcept (fun defect => .graph (.malformed defect)) g.validate
    modify fun s =>
      { s with metrics := s.metrics.recordRun g.size (Ssa.allPhis g).length }

end Pass

end FlowForm
