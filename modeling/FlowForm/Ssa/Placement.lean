import FlowForm.Dominance.Frontier

/-!
# Placing placeholders

A variable needs a placeholder at every block of the **iterated frontier** of the blocks that
assign it: the frontier of those blocks, the frontier of what that adds, and so on. In each block
placeholders stand in the order in which their variables are first assigned, reachable blocks
being read in order.
-/

namespace FlowForm.Ssa

/-- The reachable blocks with their ids, in order. -/
def reachableBlocks (g : FlowGraph) (tree : DominatorTree) : List (Nat × Block) :=
  g.ids.filterMap fun id =>
    if tree.isReachable id then (g.block? id).map fun b => (id, b) else none

/-- The variables assigned in reachable blocks, each at its first assignment. -/
def assignedNames (blocks : List (Nat × Block)) : List String :=
  (blocks.flatMap fun (_, b) => b.defs.map (·.name)).eraseDups

/-- The blocks that assign a variable. -/
def assigning (blocks : List (Nat × Block)) (name : String) : List Nat :=
  (blocks.filter fun (_, b) => b.defs.any (·.name == name)).map (·.1)

/-- The iterated frontier of some blocks. -/
def iteratedFrontier (g : FlowGraph) (table : List (List Nat)) (blocks : List Nat) :
    List Nat :=
  let frontier := Dominance.frontierOf table
  Search.preorder frontier g.ids (blocks.flatMap frontier)

/-- A variable and the blocks that need a placeholder for it. -/
structure Site where
  name : String
  blocks : List Nat
deriving DecidableEq

/-- Where placeholders are needed. -/
def sites (g : FlowGraph) (tree : DominatorTree) : List Site :=
  let blocks := reachableBlocks g tree
  let table := Dominance.frontiers g tree
  (assignedNames blocks).map fun name =>
    { name, blocks := iteratedFrontier g table (assigning blocks name) }

/-- The number of placeholders needed. -/
def siteCount (sites : List Site) : Nat :=
  (sites.flatMap (·.blocks)).length

/-- The sources of a placeholder's operands: each predecessor of its block and, at the entry, what
comes from outside. -/
def phiSources (g : FlowGraph) (id : Nat) (b : Block) : List (Option Nat) :=
  (if id = g.entry then [none] else []) ++ b.preds.map some

/-- Puts the placeholders at their blocks. -/
def placePhis (g : FlowGraph) (sites : List Site) : FlowGraph :=
  g.mapBlocks fun id b =>
    let names := (sites.filter (·.blocks.contains id)).map (·.name)
    { b with phis := b.phis ++ names.map fun name => Phi.unversioned name (phiSources g id b) }

end FlowForm.Ssa
