import FlowForm.Graph.Basic

/-!
# Pruning placeholders

A placeholder is **live** if an item reads the version that it defines, or a live placeholder has
that version as an operand. Pruning drops all placeholders that have a version and are not live.
-/

namespace FlowForm.Ssa

/-- The placeholders of a graph, block by block. -/
def allPhis (g : FlowGraph) : List Phi :=
  g.blocks.flatMap (·.phis)

/-- The versions that placeholders define. -/
def phiVersions (g : FlowGraph) : List Nat :=
  (allPhis g).filterMap (·.var.version)

/-- The versions that items read. -/
def readVersions (g : FlowGraph) : List Nat :=
  g.blocks.flatMap fun b => b.uses.filterMap (·.version)

/-- The versions among the operands of the placeholder that defines a version. If several
placeholders define it, the last one counts. -/
def operandVersions (g : FlowGraph) (version : Nat) : List Nat :=
  match (allPhis g).reverse.find? fun phi => phi.var.version == some version with
  | some phi => phi.operands.filterMap (·.var.version)
  | none => []

/-- The versions of the live placeholders. -/
def liveVersions (g : FlowGraph) : List Nat :=
  Search.preorder (operandVersions g) (phiVersions g) (readVersions g)

/-- Whether pruning keeps a placeholder. -/
def keeps (live : List Nat) (phi : Phi) : Bool :=
  match phi.var.version with
  | some version => live.contains version
  | none => true

/-- The graph without the placeholders that nothing reads, and the number of those. -/
def prune (g : FlowGraph) : FlowGraph × Nat :=
  let live := liveVersions g
  let pruned := g.mapBlocks fun _ b => { b with phis := b.phis.filter (keeps live) }
  (pruned, (allPhis g).countP fun phi => !keeps live phi)

end FlowForm.Ssa
