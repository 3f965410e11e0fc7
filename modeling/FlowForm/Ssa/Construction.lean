import FlowForm.Ssa.Placement
import FlowForm.Ssa.Renaming

/-!
# Single-assignment form

Brings a graph into **single-assignment form**: placeholders are put where values flow together,
and every definition and use in a reachable block gets its version. The blocks that cannot be
reached are left alone.

The **build** changes the graph and the counter in place, and whatever it has changed before it
fails stays changed. What it needs is therefore checked beforehand: the graph has to be valid and
not yet in single-assignment form, and the counter has to have a version left for every definition.
-/

namespace FlowForm.Ssa

/-- Whether some block has a placeholder or a definition with a version. -/
def isInSsa (g : FlowGraph) : Bool :=
  g.blocks.any fun b => !b.phis.isEmpty || b.defs.any Var.isVersioned

/-- The number of definitions in reachable blocks. -/
def definitionCount (g : FlowGraph) (tree : DominatorTree) : Nat :=
  ((reachableBlocks g tree).flatMap fun (_, b) => b.defs).length

/-- Steps of a build, which change a graph and a counter. -/
abbrev Build := ExceptT SsaError (StateM (FlowGraph × Counter))

/-- Renames the graph, whose placeholders are in place. -/
def rename (tree : DominatorTree) (stats : Stats) : Build Stats :=
  fun s =>
    match (Renamer.rename tree).run.run (s.1, { counter := s.2, stats }) with
    | (answer, g, r) => (answer.map fun _ => r.stats, g, r.counter)

/-- Brings a graph into single-assignment form in place, with versions from the counter. -/
def build : Build Stats := do
  let (g, counter) ← get
  match g.validate with
  | .error defect => throw (.malformed defect)
  | .ok () =>
    if isInSsa g then
      throw .alreadyInSsa
    else
      let tree := DominatorTree.compute g
      let sites := sites g tree
      if counter.remaining < siteCount sites + definitionCount g tree then
        throw .versionsExhausted
      else
        set (placePhis g sites, counter)
        rename tree { phis := siteCount sites }

/-- What construction yields. -/
structure Result where
  graph : FlowGraph
  counter : Counter
  stats : Stats

/-- Brings a graph into single-assignment form, with versions from the given counter, for a caller
that keeps both as they are. -/
def construct (g : FlowGraph) (counter : Counter) : Except SsaError Result :=
  match build.run.run (g, counter) with
  | (answer, graph, counter) => answer.map fun stats => { graph, counter, stats }

end FlowForm.Ssa
