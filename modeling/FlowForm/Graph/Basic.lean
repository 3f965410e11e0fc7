import FlowForm.Graph.Block
import FlowForm.Numeral
import FlowForm.Search

/-!
# Flow graphs

The blocks of one function, in a list whose positions are the block ids; the first block is the
entry. The address of each block is **registered** when the graph is made, and blocks are found
by that registration ever after. Edges may name ids that no block has, and each edge is noted at
both of its ends; `FlowForm.Graph.Validity` says when those notes are consistent.

Whatever is done to a graph later changes blocks one by one, so the number of blocks and their
registered addresses stay as they were: `modifyBlock` and `mapBlocks` are the only ways to change
the blocks of a graph.
-/

namespace FlowForm

/-- The first element that equals an earlier one, if `seen` has come before. -/
def firstRepeat? {α : Type} [DecidableEq α] (seen : List α) : List α → Option α
  | [] => none
  | x :: xs => if x ∈ seen then some x else firstRepeat? (x :: seen) xs

theorem firstRepeat?_eq_none_iff {α : Type} [DecidableEq α] {seen xs : List α} :
    firstRepeat? seen xs = none ↔ xs.Nodup ∧ ∀ x ∈ xs, x ∉ seen := by
  induction xs generalizing seen with
  | nil => simp [firstRepeat?]
  | cons x xs ih =>
    by_cases h : x ∈ seen
    · simp [firstRepeat?, h]
    · simp only [firstRepeat?, h, if_false, ih, List.nodup_cons, List.mem_cons]
      constructor
      · rintro ⟨nodup, fresh⟩
        refine ⟨⟨fun hx => fresh x hx (.inl rfl), nodup⟩, ?_⟩
        rintro y (rfl | hy)
        · exact h
        · exact fun hs => fresh y hy (.inr hs)
      · rintro ⟨⟨hx, nodup⟩, fresh⟩
        refine ⟨nodup, fun y hy hs => ?_⟩
        rcases hs with rfl | hs
        · exact hx hy
        · exact fresh y (.inr hy) hs

/-- A **flow graph**. -/
structure FlowGraph where
  blocks : List Block
  /-- The registered addresses, by block id. -/
  keys : List Nat
  /-- Jumps without an edge, because no item stands at their target: the address of the jump and
  that of its target. -/
  unresolved : List (Nat × Nat) := []
  blocks_ne_nil : blocks ≠ []
  length_keys : keys.length = blocks.length
  nodup_keys : keys.Nodup
deriving DecidableEq

namespace FlowGraph

/-- The number of blocks. -/
def size (g : FlowGraph) : Nat :=
  g.blocks.length

/-- The block at which control enters the function. -/
def entry (_g : FlowGraph) : Nat := 0

/-- All block ids, in order. -/
def ids (g : FlowGraph) : List Nat :=
  List.range g.size

/-- The block with the given id. -/
def block? (g : FlowGraph) (id : Nat) : Option Block :=
  g.blocks[id]?

/-- The id of the block registered at an address. -/
def blockAt? (g : FlowGraph) (address : Nat) : Option Nat :=
  g.keys.idxOf? address

/-- The blocks that a block has an edge to. -/
def succs (g : FlowGraph) (id : Nat) : List Nat :=
  match g.block? id with
  | some b => b.succs
  | none => []

/-- The blocks that have an edge to a block. -/
def preds (g : FlowGraph) (id : Nat) : List Nat :=
  match g.block? id with
  | some b => b.preds
  | none => []

/-! ### Changing blocks -/

/-- Changes one block; an id without a block changes nothing. -/
def modifyBlock (g : FlowGraph) (id : Nat) (f : Block → Block) : FlowGraph where
  blocks := g.blocks.modify id f
  keys := g.keys
  unresolved := g.unresolved
  blocks_ne_nil := by
    have := List.length_pos_iff.2 g.blocks_ne_nil
    exact List.length_pos_iff.1 (by simpa using this)
  length_keys := by simpa using g.length_keys
  nodup_keys := g.nodup_keys

/-- Changes every block. -/
def mapBlocks (g : FlowGraph) (f : Nat → Block → Block) : FlowGraph where
  blocks := g.blocks.mapIdx f
  keys := g.keys
  unresolved := g.unresolved
  blocks_ne_nil := by simpa using g.blocks_ne_nil
  length_keys := by simpa using g.length_keys
  nodup_keys := g.nodup_keys

@[simp]
theorem size_modifyBlock (g : FlowGraph) (id : Nat) (f : Block → Block) :
    (g.modifyBlock id f).size = g.size := by
  simp [size, modifyBlock]

@[simp]
theorem size_mapBlocks (g : FlowGraph) (f : Nat → Block → Block) :
    (g.mapBlocks f).size = g.size := by
  simp [size, mapBlocks]

theorem block?_modifyBlock (g : FlowGraph) (id : Nat) (f : Block → Block) (i : Nat) :
    (g.modifyBlock id f).block? i = (g.block? i).map fun b => if id = i then f b else b := by
  simp [block?, modifyBlock, List.getElem?_modify]

theorem block?_mapBlocks (g : FlowGraph) (f : Nat → Block → Block) (i : Nat) :
    (g.mapBlocks f).block? i = (g.block? i).map (f i) := by
  simp [block?, mapBlocks]

/-! ### Edges -/

/-- An edge to be added. -/
structure Edge where
  source : Nat
  target : Nat
  /-- Whether control goes along the edge without a jump. -/
  fall : Bool := false
deriving DecidableEq

/-- Adds an edge and notes it at both ends, as far as there is a block to note it at. An edge that
is there already is not listed twice. -/
def addEdge (g : FlowGraph) (e : Edge) : FlowGraph :=
  (g.modifyBlock e.source fun b => b.addSucc e.target e.fall).modifyBlock e.target fun b =>
    b.addPred e.source

/-- Adds edges one after the other. -/
def addEdges (g : FlowGraph) (edges : List Edge) : FlowGraph :=
  edges.foldl addEdge g

/-- Adds jumps that have no edge. -/
def recordUnresolved (g : FlowGraph) (jumps : List (Nat × Nat)) : FlowGraph :=
  { g with unresolved := g.unresolved ++ jumps }

/-! ### Traversals -/

/-- The blocks reachable from the entry in **control-flow preorder**: a block stands before its
successors, which are visited in the order in which it lists them. -/
def preorder (g : FlowGraph) : List Nat :=
  Search.preorder g.succs g.ids [g.entry]

/-- The blocks reachable from the entry in **reverse postorder**. -/
def reversePostorder (g : FlowGraph) : List Nat :=
  Search.reversePostorder g.succs g.ids g.entry

end FlowGraph

end FlowForm
