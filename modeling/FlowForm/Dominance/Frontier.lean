import FlowForm.Dominance.Tree

/-!
# Dominance frontiers

The **frontier** of a block `x` holds the blocks at which the dominance of `x` ends: it dominates
a predecessor of them, and does not strictly dominate them. They are found from the other side.
At a block where control flows together, everything from a predecessor up to, and without, the
immediate dominator of the block has that block in its frontier.

The function is entered from outside at its entry, which counts as one more way in there.
-/

namespace FlowForm.Dominance

/-- The ancestors of a block, starting with itself, below `stop`; at most `bound` of them. -/
def below (tree : DominatorTree) (stop : Option Nat) : (bound : Nat) → Nat → List Nat
  | 0, _ => []
  | bound + 1, id =>
    if some id = stop then []
    else
      id :: match tree.idom? id with
        | some parent => below tree stop bound parent
        | none => []

/-- The blocks whose frontier a block belongs to: none if there are not two ways in. -/
def fringed (g : FlowGraph) (tree : DominatorTree) (id : Nat) : List Nat :=
  let preds := (g.preds id).filter tree.isReachable
  let ways := preds.length + if id = g.entry then 1 else 0
  if tree.isReachable id && 2 ≤ ways then
    preds.flatMap (below tree (tree.idom? id) tree.size)
  else []

/-- Adds a block to the frontier of another one, unless it is there already. -/
def noteFrontier (id : Nat) (table : List (List Nat)) (x : Nat) : List (List Nat) :=
  table.modify x (Block.pushNew · id)

/-- The frontier of each block, by block id. Blocks are taken in order, and each is added to the
frontiers that it belongs to as the ways up from its predecessors come upon them. -/
def frontiers (g : FlowGraph) (tree : DominatorTree) : List (List Nat) :=
  g.ids.foldl (fun table id => (fringed g tree id).foldl (noteFrontier id) table)
    (List.replicate g.size [])

/-- The frontier of a block in a table of frontiers. -/
def frontierOf (table : List (List Nat)) (id : Nat) : List Nat :=
  table.getD id []

end FlowForm.Dominance
