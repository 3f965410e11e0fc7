import FlowForm.Graph.Basic

/-!
# Dominator trees

A block **dominates** another if every path from the entry to the second passes the first. The
strict dominators of a block form a chain, so each reachable block other than the entry has an
immediate dominator, and these make up a tree.

The tree is found by refinement. Every block that has been reached is given a **parent**, first
one of its predecessors and from then on the nearest common ancestor of all predecessors that have
a parent. Blocks are taken in reverse postorder, in which ancestors stand before descendants, and
rounds are repeated until one changes nothing. A round that changes something moves a parent
towards the entry or gives a block its first one, which bounds the number of rounds by the square
of the number of blocks.

Blocks that cannot be reached from the entry have no parent and take no part in anything.
-/

namespace FlowForm

namespace Dominance

/-- A parent for each block, by block id. While the tree is being found the entry is its own
parent. -/
abbrev Parents := List (Option Nat)

/-- The parent of a block. -/
def parentOf (parents : Parents) (id : Nat) : Option Nat :=
  parents[id]?.join

/-- Position of a block in reverse postorder. -/
def rank (order : List Nat) (id : Nat) : Nat :=
  order.idxOf id

/-- The next block on the way up; the way ends at the entry. -/
def up (parents : Parents) (id : Nat) : Nat :=
  (parentOf parents id).getD 0

/-- The nearest common ancestor of two blocks: whichever stands later in the order moves up,
for at most `bound` moves. -/
def meet (order : List Nat) (parents : Parents) :
    (bound : Nat) → Nat → Nat → Nat
  | 0, a, _ => a
  | bound + 1, a, b =>
    if rank order b < rank order a then meet order parents bound (up parents a) b
    else if rank order a < rank order b then meet order parents bound a (up parents b)
    else a

/-- The parent that a block should have by those of its predecessors. A move up leads along one
of two chains without repetitions, so twice the number of blocks bounds their number. -/
def candidate? (g : FlowGraph) (order : List Nat) (parents : Parents) (id : Nat) :
    Option Nat :=
  match (g.preds id).filter fun p => (parentOf parents p).isSome with
  | [] => none
  | first :: rest => some (rest.foldl (fun c p => meet order parents (2 * g.size) p c) first)

/-- Gives a block the parent that it should have. -/
def refine (g : FlowGraph) (order : List Nat) (parents : Parents) (id : Nat) : Parents :=
  match candidate? g order parents id with
  | some parent => parents.set id (some parent)
  | none => parents

/-- One round over all reachable blocks but the entry. -/
def round (g : FlowGraph) (order : List Nat) (parents : Parents) : Parents :=
  order.tail.foldl (refine g order) parents

/-- Repeats rounds until one changes nothing, at most `bound` times. -/
def settle (g : FlowGraph) (order : List Nat) : (bound : Nat) → Parents → Parents
  | 0, parents => parents
  | bound + 1, parents =>
    let next := round g order parents
    if next = parents then parents else settle g order bound next

/-- Before the first round only the entry has a parent. -/
def initial (g : FlowGraph) : Parents :=
  (List.replicate g.size none).set g.entry (some g.entry)

/-- The distance of each block from the entry along parents, by block id. -/
def depths (g : FlowGraph) (order : List Nat) (parents : Parents) : List Nat :=
  order.tail.foldl
    (fun depths id =>
      match parentOf parents id with
      | some parent => depths.set id (depths.getD parent 0 + 1)
      | none => depths)
    (List.replicate g.size 0)

/-- Appends a block to the list of its parent. -/
def noteChild (parents : Parents) (table : List (List Nat)) (id : Nat) : List (List Nat) :=
  match parentOf parents id with
  | some parent => table.modify parent (· ++ [id])
  | none => table

/-- The blocks that each block is the parent of, by block id. The lists grow as blocks come up in
the order, and each of them is sorted in the end. -/
def offspring (g : FlowGraph) (order : List Nat) (parents : Parents) : List (List Nat) :=
  (order.tail.foldl (noteChild parents) (List.replicate g.size [])).map
    fun ids => ids.mergeSort fun a b => a ≤ b

end Dominance

/-- The **dominator tree** of the blocks reachable from the entry. -/
structure DominatorTree where
  /-- The reachable blocks in reverse postorder. -/
  order : List Nat
  /-- The immediate dominators, by block id. -/
  parents : Dominance.Parents
  /-- The distances from the entry, by block id. -/
  depths : List Nat
  /-- The blocks that each block immediately dominates, by block id. -/
  offspring : List (List Nat)

namespace DominatorTree

open Dominance

/-- The dominator tree of a graph. -/
def compute (g : FlowGraph) : DominatorTree :=
  let order := g.reversePostorder
  let settled := settle g order (g.size * g.size + 1) (initial g)
  let parents := settled.set g.entry none
  { order, parents
    depths := Dominance.depths g order parents
    offspring := Dominance.offspring g order parents }

/-- The number of blocks of the graph. -/
def size (tree : DominatorTree) : Nat :=
  tree.parents.length

/-- The root of the tree. -/
def entry (_tree : DominatorTree) : Nat := 0

/-- Whether a path leads from the entry to a block. -/
def isReachable (tree : DominatorTree) (id : Nat) : Bool :=
  tree.order.contains id

/-- The **immediate dominator** of a block; the entry and unreachable blocks have none. -/
def idom? (tree : DominatorTree) (id : Nat) : Option Nat :=
  parentOf tree.parents id

/-- A block and its ancestors on the way up, at most `bound` of them. -/
def chain (tree : DominatorTree) : (bound : Nat) → Nat → List Nat
  | 0, _ => []
  | bound + 1, id =>
    id :: match tree.idom? id with
      | some parent => tree.chain bound parent
      | none => []

/-- Whether every path from the entry to `b` passes `a`. A reachable block dominates itself. -/
def dominates (tree : DominatorTree) (a b : Nat) : Bool :=
  tree.isReachable a && tree.isReachable b && (tree.chain tree.size b).contains a

/-- Domination of another block. -/
def strictlyDominates (tree : DominatorTree) (a b : Nat) : Bool :=
  a != b && tree.dominates a b

/-- The blocks that a block immediately dominates, in order. -/
def children (tree : DominatorTree) (id : Nat) : List Nat :=
  tree.offspring.getD id []

/-- The distance of a block from the entry in the tree. -/
def depth (tree : DominatorTree) (id : Nat) : Nat :=
  tree.depths.getD id 0

/-- The subtree at a block in preorder, down to the given height. -/
def subtree (tree : DominatorTree) : (height : Nat) → Nat → List Nat
  | 0, _ => []
  | height + 1, id => id :: (tree.children id).flatMap (tree.subtree height)

/-- The tree in preorder, children from left to right. -/
def preorder (tree : DominatorTree) : List Nat :=
  tree.subtree tree.size tree.entry

end DominatorTree

end FlowForm
