import Mathlib.Data.List.SplitBy
import FlowForm.Graph.Build
import FlowForm.Proofs.Paths

/-!
# Graphs That Have Been Built

What building makes of items in ascending order, read off the finished graph. Its blocks are the
items cut into pieces, and `Blocks` says what a piece is and where its edges lead: no item but the
last one of a block does anything but fall through, no item but the first is jumped to, and the
edges of a block lead to the block at the target of its last item and to the next block, whichever
of the two that item can go to.

Adding edges keeps everything else about a graph, and the notes at both ends of them agree if they
agreed before (`edgesAgree_addEdges`).

## Main results

* `mem_succs_foldl`, `mem_preds_foldl` and `fall_foldl`: the notes of a block to which edges have
  been added.
* `edgesAgree_addEdges`: the notes of a graph that was made by adding edges agree.
* `blocks_build`: the blocks of a graph that has been built.
-/

namespace FlowForm

namespace FlowGraph

variable {g : FlowGraph}

/-! ### Adding edges -/

/-- What noting an edge does to the block with the given id. -/
def noteEdge (id : Nat) (b : Block) (e : Edge) : Block :=
  let b := if e.source = id then b.addSucc e.target e.fall else b
  if e.target = id then b.addPred e.source else b

/-- What adding edges does to the blocks. -/
theorem block?_addEdges (g : FlowGraph) (es : List Edge) (id : Nat) :
    (g.addEdges es).block? id = (g.block? id).map fun b => es.foldl (noteEdge id) b := by
  induction es generalizing g with
  | nil =>
      rw [addEdges, List.foldl_nil]
      exact Option.map_id'.symm
  | cons e es ih =>
      have hrest : g.addEdges (e :: es) = (g.addEdge e).addEdges es := rfl
      rw [hrest, ih, addEdge, block?_modifyBlock, block?_modifyBlock, Option.map_map,
        Option.map_map]
      rfl

/-- Adding edges keeps the number of blocks. -/
theorem size_addEdges (g : FlowGraph) (es : List Edge) : (g.addEdges es).size = g.size := by
  induction es generalizing g with
  | nil => rfl
  | cons e es ih =>
      have hrest : g.addEdges (e :: es) = (g.addEdge e).addEdges es := rfl
      rw [hrest, ih, addEdge, size_modifyBlock, size_modifyBlock]

/-- Adding edges keeps the registered addresses. -/
theorem keys_addEdges (g : FlowGraph) (es : List Edge) : (g.addEdges es).keys = g.keys := by
  induction es generalizing g with
  | nil => rfl
  | cons e es ih => exact ih (g.addEdge e)

/-- Adding edges keeps the jumps that have been recorded. -/
theorem unresolved_addEdges (g : FlowGraph) (es : List Edge) :
    (g.addEdges es).unresolved = g.unresolved := by
  induction es generalizing g with
  | nil => rfl
  | cons e es ih => exact ih (g.addEdge e)

/-- An id is appended at most once. -/
theorem mem_pushNew {ids : List Nat} {i j : Nat} : j ∈ Block.pushNew ids i ↔ j ∈ ids ∨ j = i := by
  rw [Block.pushNew]
  split
  · rename_i h
    constructor
    · exact .inl
    · rintro (hj | rfl)
      · exact hj
      · exact h
  · rw [List.mem_append, List.mem_singleton]

/-- Noting an edge keeps whatever is not about edges. -/
theorem noteEdge_kept (id : Nat) (b : Block) (e : Edge) :
    (noteEdge id b e).items = b.items ∧ (noteEdge id b e).address = b.address ∧
      (noteEdge id b e).phis = b.phis := by
  rw [noteEdge]
  split <;> split <;> exact ⟨rfl, rfl, rfl⟩

/-- Noting edges keeps whatever is not about edges. -/
theorem foldl_noteEdge_kept (id : Nat) (b : Block) (es : List Edge) :
    (es.foldl (noteEdge id) b).items = b.items ∧
      (es.foldl (noteEdge id) b).address = b.address ∧
      (es.foldl (noteEdge id) b).phis = b.phis := by
  induction es generalizing b with
  | nil => exact ⟨rfl, rfl, rfl⟩
  | cons e es ih =>
      obtain ⟨hitems, haddress, hphis⟩ := noteEdge_kept id b e
      rw [List.foldl_cons, ← hitems, ← haddress, ← hphis]
      exact ih _

/-- The successors of a block at which one edge is noted. -/
theorem mem_succs_noteEdge {id v : Nat} {b : Block} {e : Edge} :
    v ∈ (noteEdge id b e).succs ↔ v ∈ b.succs ∨ e.source = id ∧ e.target = v := by
  have hpred : (noteEdge id b e).succs =
      (if e.source = id then b.addSucc e.target e.fall else b).succs := by
    rw [noteEdge]
    split <;> rfl
  rw [hpred]
  split
  · rename_i h
    rw [Block.addSucc, mem_pushNew]
    simp [h, eq_comm]
  · rename_i h
    simp [h]

/-- The predecessors of a block at which one edge is noted. -/
theorem mem_preds_noteEdge {id u : Nat} {b : Block} {e : Edge} :
    u ∈ (noteEdge id b e).preds ↔ u ∈ b.preds ∨ e.target = id ∧ e.source = u := by
  have hsucc : (if e.source = id then b.addSucc e.target e.fall else b).preds = b.preds := by
    split <;> rfl
  rw [noteEdge]
  split
  · rename_i h
    rw [Block.addPred, mem_pushNew, hsucc]
    simp [h, eq_comm]
  · rename_i h
    rw [hsucc]
    simp [h]

/-- The **successors** of a block after edges have been noted. -/
theorem mem_succs_foldl {id v : Nat} {b : Block} {es : List Edge} :
    v ∈ (es.foldl (noteEdge id) b).succs ↔
      v ∈ b.succs ∨ ∃ e ∈ es, e.source = id ∧ e.target = v := by
  induction es generalizing b with
  | nil => simp
  | cons e es ih =>
      rw [List.foldl_cons, ih, mem_succs_noteEdge, or_assoc]
      simp only [List.mem_cons, exists_eq_or_imp]

/-- The **predecessors** of a block after edges have been noted. -/
theorem mem_preds_foldl {id u : Nat} {b : Block} {es : List Edge} :
    u ∈ (es.foldl (noteEdge id) b).preds ↔
      u ∈ b.preds ∨ ∃ e ∈ es, e.target = id ∧ e.source = u := by
  induction es generalizing b with
  | nil => simp
  | cons e es ih =>
      rw [List.foldl_cons, ih, mem_preds_noteEdge, or_assoc]
      simp only [List.mem_cons, exists_eq_or_imp]

/-- The edge without a jump that one noted edge leaves behind. -/
theorem fall_noteEdge (id : Nat) (b : Block) (e : Edge) :
    (noteEdge id b e).fall = if e.source = id ∧ e.fall = true then some e.target else b.fall := by
  have hpred : (noteEdge id b e).fall =
      (if e.source = id then b.addSucc e.target e.fall else b).fall := by
    rw [noteEdge]
    split <;> rfl
  rw [hpred]
  by_cases h : e.source = id
  · simp only [h, if_true, true_and]
    rfl
  · simp only [h, if_false, false_and]

/-- The **edge without a jump** after edges have been noted is the latest of its kind. -/
theorem fall_foldl (id : Nat) (b : Block) (es : List Edge) :
    (es.foldl (noteEdge id) b).fall =
      ((es.filter fun e => e.source = id ∧ e.fall = true).getLast?.map (·.target)).or b.fall := by
  induction es generalizing b with
  | nil => rfl
  | cons e es ih =>
      rw [List.foldl_cons, ih, fall_noteEdge]
      by_cases h : e.source = id ∧ e.fall = true
      · rw [if_pos h, List.filter_cons_of_pos (by simpa using h), List.getLast?_cons]
        cases (es.filter fun e => e.source = id ∧ e.fall = true).getLast? <;> rfl
      · rw [if_neg h, List.filter_cons_of_neg (by simpa using h)]

/-- **The notes of a graph agree** if it was made by adding edges to one that had none. -/
theorem edgesAgree_addEdges (es : List Edge)
    (hfresh : ∀ id b, g.block? id = some b → b.succs = [] ∧ b.preds = []) :
    (g.addEdges es).EdgesAgree := by
  intro u hu v hv
  rw [size_addEdges] at hu hv
  obtain ⟨b, hb⟩ := exists_block? hu
  obtain ⟨c, hc⟩ := exists_block? hv
  rw [succs, preds, block?_addEdges, block?_addEdges, hb, hc, Option.map_some, Option.map_some]
  simp only [mem_succs_foldl, mem_preds_foldl, (hfresh u b hb).1, (hfresh v c hc).2,
    List.not_mem_nil, false_or]
  constructor
  · rintro ⟨e, he, hsource, htarget⟩
    exact ⟨e, he, htarget, hsource⟩
  · rintro ⟨e, he, htarget, hsource⟩
    exact ⟨e, he, hsource, htarget⟩

/-! ### Blocks -/

/-- The block at an address is the one **registered** there, as no address is registered twice. -/
theorem blockAt?_eq_some_iff {address id : Nat} :
    g.blockAt? address = some id ↔ g.keys[id]? = some address := by
  constructor
  · intro h
    obtain ⟨hid, hkey, -⟩ := List.idxOf?_eq_some_iff.mp h
    rw [List.getElem?_eq_getElem hid, hkey]
  · intro hkey
    obtain ⟨hid, hget⟩ := List.getElem?_eq_some_iff.mp hkey
    refine List.idxOf?_eq_some_iff.mpr ⟨hid, hget, fun j hj heq => ?_⟩
    have hj' : j < g.keys.length := Nat.lt_trans hj hid
    have hsame : g.keys[j]? = g.keys[id]? := by
      rw [hkey, List.getElem?_eq_getElem hj', heq]
    have := (List.getElem?_inj hj' g.nodup_keys).mp hsame
    omega

/-- A block that stands at its registered address is **found** there. -/
theorem blockAt?_address (hkeys : g.keys = g.blocks.map (·.address)) {id : Nat} {b : Block}
    (hb : g.block? id = some b) : g.blockAt? b.address = some id := by
  rw [blockAt?_eq_some_iff, hkeys, List.getElem?_map, show g.blocks[id]? = some b from hb]
  rfl

/-- **The blocks of a graph that has been built** from items in ascending order: the items cut
into pieces, none of them empty, inside which nothing but falling through happens and which are
not jumped into, with edges to wherever the last item of a piece can go. -/
structure Blocks (items : List Item) (g : FlowGraph) : Prop where
  keys_eq : g.keys = g.blocks.map (·.address)
  flatten_eq : (g.blocks.map (·.items)).flatten = items
  address_eq : ∀ id b, g.block? id = some b → b.items.head?.map (·.address) = some b.address
  isChain : ∀ id b, g.block? id = some b →
    b.items.IsChain fun previous item => continues (targets items) previous item = true
  mem_succs : ∀ id b last, g.block? id = some b → b.items.getLast? = some last → ∀ s,
    s ∈ b.succs ↔ (∃ t, last.flow.target? = some t ∧ g.blockAt? t = some s) ∨
      last.flow.fallsThrough = true ∧ id + 1 < g.size ∧ s = id + 1
  fall_eq : ∀ id b last, g.block? id = some b → b.items.getLast? = some last →
    b.fall = if last.flow.fallsThrough = true ∧ id + 1 < g.size then some (id + 1) else none

/-- The edges of a graph are those that leave its blocks. -/
theorem mem_edges {e : Edge} :
    e ∈ g.edges ↔ ∃ id b, g.block? id = some b ∧ e ∈ g.edgesFrom id b := by
  rw [edges, List.mem_flatMap]
  constructor
  · rintro ⟨⟨b, id⟩, hmem, he⟩
    exact ⟨id, b, List.mem_zipIdx_iff_getElem?.mp hmem, he⟩
  · rintro ⟨id, b, hb, he⟩
    exact ⟨(b, id), List.mem_zipIdx_iff_getElem?.mpr hb, he⟩

/-- The edges that leave a block are determined by its last item. -/
theorem mem_edgesFrom {id : Nat} {b : Block} {last : Item} (hlast : b.items.getLast? = some last)
    {e : Edge} : e ∈ g.edgesFrom id b ↔
      (∃ t s, last.flow.target? = some t ∧ g.blockAt? t = some s ∧
        e = { source := id, target := s }) ∨
      (last.flow.fallsThrough = true ∧ id + 1 < g.size) ∧
        e = { source := id, target := id + 1, fall := true } := by
  simp only [edgesFrom, hlast, List.mem_append, List.mem_map, Option.mem_toList,
    Option.bind_eq_some_iff]
  refine or_congr ?_ ?_
  · constructor
    · rintro ⟨s, ⟨t, ht, hs⟩, rfl⟩
      exact ⟨t, s, ht, hs, rfl⟩
    · rintro ⟨t, s, ht, hs, rfl⟩
      exact ⟨s, ⟨t, ht, hs⟩, rfl⟩
  · split
    · rename_i h
      rw [Bool.and_eq_true, decide_eq_true_eq] at h
      rw [List.mem_singleton, and_iff_right h]
    · rename_i h
      rw [Bool.and_eq_true, decide_eq_true_eq] at h
      simp [h]

/-- Every edge that leaves a block starts there. -/
theorem source_of_mem_edgesFrom {id : Nat} {b : Block} {e : Edge} (h : e ∈ g.edgesFrom id b) :
    e.source = id := by
  cases hlast : b.items.getLast? with
  | none => simp [edgesFrom, hlast] at h
  | some last =>
      rcases (mem_edgesFrom hlast).mp h with ⟨t, s, -, -, rfl⟩ | ⟨-, rfl⟩
      · rfl
      · rfl

/-- The edges with a given source. -/
theorem mem_edges_of_source {id : Nat} {b : Block} (hb : g.block? id = some b) {e : Edge} :
    e ∈ g.edges ∧ e.source = id ↔ e ∈ g.edgesFrom id b := by
  constructor
  · rintro ⟨he, hsource⟩
    obtain ⟨i, c, hc, he⟩ := mem_edges.mp he
    obtain rfl : i = id := (source_of_mem_edgesFrom he).symm.trans hsource
    obtain rfl : c = b := Option.some.inj (hc.symm.trans hb)
    exact he
  · intro he
    exact ⟨mem_edges.mpr ⟨id, b, hb, he⟩, source_of_mem_edgesFrom he⟩

/-- The graph of some blocks has them as they are, at their own addresses. -/
theorem ofBlocks_eq_ok {blocks : List Block} (h : ofBlocks blocks = .ok g) :
    g.blocks = blocks ∧ g.keys = blocks.map (·.address) := by
  simp only [ofBlocks] at h
  split at h
  · cases h
  · split at h
    · cases h
    · cases h
      exact ⟨rfl, rfl⟩

/-- A graph of sorted items is made of their pieces by adding the edges of these. -/
theorem ofSorted_eq_ok {policy : UnresolvedTargets} {items : List Item}
    (h : ofSorted policy items = .ok g) : ∃ g₁ : FlowGraph, ∃ jumps,
      ofBlocks (partition items) = .ok g₁ ∧
      g = (g₁.addEdges g₁.edges).recordUnresolved jumps := by
  have hmap : ∀ {jumps}, (ofBlocks (partition items)).map
      (fun g₁ => (g₁.addEdges g₁.edges).recordUnresolved jumps) = .ok g →
      ∃ g₁ : FlowGraph, ∃ jumps, ofBlocks (partition items) = .ok g₁ ∧
        g = (g₁.addEdges g₁.edges).recordUnresolved jumps := by
    intro jumps hmap
    cases hblocks : ofBlocks (partition items) with
    | error e =>
        rw [hblocks] at hmap
        cases hmap
    | ok g₁ =>
        rw [hblocks] at hmap
        exact ⟨g₁, jumps, rfl, (Except.ok.inj hmap).symm⟩
  simp only [ofSorted] at h
  split at h
  · cases h
  · split at h
    · cases h
    · exact hmap h

/-- Items in ascending order are **sorted** already. -/
theorem sortItems_of_ascending {items : List Item}
    (hascending : items.Pairwise fun a b => a.address < b.address) : sortItems items = items :=
  List.mergeSort_of_pairwise (hascending.imp fun hab => by simpa using Nat.le_of_lt hab)

/-- Items in ascending order that a graph is built from are cut as they stand. -/
theorem build_eq_ok {policy : UnresolvedTargets} {items : List Item}
    (hascending : items.Pairwise fun a b => a.address < b.address)
    (h : build policy items = .ok g) : ofSorted policy items = .ok g := by
  cases items with
  | nil => cases h
  | cons first rest =>
      simp only [build, sortItems_of_ascending hascending] at h
      split at h
      · exact h
      · cases h

/-- The pieces that items are cut into. -/
theorem mem_partition {items : List Item} {b : Block} (h : b ∈ partition items) :
    ∃ piece ∈ items.splitBy (continues (targets items)), b = Block.ofItems piece := by
  obtain ⟨piece, hpiece, rfl⟩ := List.mem_map.mp h
  exact ⟨piece, hpiece, rfl⟩

/-- Adding edges keeps whatever is not about edges, in all blocks. -/
theorem map_blocks_addEdges {β : Type} (g : FlowGraph) (es : List Edge) (f : Block → β)
    (hf : ∀ id b, f (es.foldl (noteEdge id) b) = f b) :
    (g.addEdges es).blocks.map f = g.blocks.map f := by
  refine List.ext_getElem? fun id => ?_
  have hblock := block?_addEdges g es id
  rw [block?, block?] at hblock
  rw [List.getElem?_map, List.getElem?_map, hblock, Option.map_map]
  congr 1
  exact funext (hf id)

/-- The successors of a block to which the edges of the graph have been added. -/
theorem mem_succs_addEdges {id : Nat} {b : Block} {last : Item} (hb : g.block? id = some b)
    (hfresh : b.succs = []) (hlast : b.items.getLast? = some last) (s : Nat) :
    s ∈ (g.edges.foldl (noteEdge id) b).succs ↔
      (∃ t, last.flow.target? = some t ∧ g.blockAt? t = some s) ∨
        last.flow.fallsThrough = true ∧ id + 1 < g.size ∧ s = id + 1 := by
  have hedges : (∃ e ∈ g.edges, e.source = id ∧ e.target = s) ↔
      ∃ e ∈ g.edgesFrom id b, e.target = s := by
    constructor
    · rintro ⟨e, he, hsource, htarget⟩
      exact ⟨e, (mem_edges_of_source hb).mp ⟨he, hsource⟩, htarget⟩
    · rintro ⟨e, he, htarget⟩
      obtain ⟨he, hsource⟩ := (mem_edges_of_source hb).mpr he
      exact ⟨e, he, hsource, htarget⟩
  rw [mem_succs_foldl, hfresh, hedges]
  constructor
  · rintro (h | ⟨e, he, htarget⟩)
    · cases h
    · rcases (mem_edgesFrom hlast).mp he with ⟨t, u, ht, hu, rfl⟩ | ⟨⟨hfalls, hlt⟩, rfl⟩
      · exact .inl ⟨t, ht, htarget ▸ hu⟩
      · exact .inr ⟨hfalls, hlt, htarget.symm⟩
  · rintro (⟨t, ht, hs⟩ | ⟨hfalls, hlt, rfl⟩)
    · exact .inr ⟨_, (mem_edgesFrom hlast).mpr (.inl ⟨t, s, ht, hs, rfl⟩), rfl⟩
    · exact .inr ⟨_, (mem_edgesFrom hlast).mpr (.inr ⟨⟨hfalls, hlt⟩, rfl⟩), rfl⟩

/-- The edge without a jump of a block to which the edges of the graph have been added. -/
theorem fall_addEdges {id : Nat} {b : Block} {last : Item} (hb : g.block? id = some b)
    (hfresh : b.fall = none) (hlast : b.items.getLast? = some last) :
    (g.edges.foldl (noteEdge id) b).fall =
      if last.flow.fallsThrough = true ∧ id + 1 < g.size then some (id + 1) else none := by
  have hfall : ∀ {e}, e ∈ g.edges → e.source = id → e.fall = true →
      (last.flow.fallsThrough = true ∧ id + 1 < g.size) ∧ e.target = id + 1 := by
    intro e he hsource hefall
    have he := (mem_edges_of_source hb).mp ⟨he, hsource⟩
    rcases (mem_edgesFrom hlast).mp he with ⟨t, s, -, -, rfl⟩ | ⟨h, rfl⟩
    · cases hefall
    · exact ⟨h, rfl⟩
  rw [fall_foldl, hfresh, Option.or_none]
  cases hlatest : (g.edges.filter fun e => e.source = id ∧ e.fall = true).getLast? with
  | none =>
      have hnil := List.getLast?_eq_none_iff.mp hlatest
      rw [if_neg, Option.map_none]
      intro h
      obtain ⟨he, hsource⟩ := (mem_edges_of_source hb).mpr
        ((mem_edgesFrom hlast).mpr (.inr ⟨h, rfl⟩))
      exact List.filter_eq_nil_iff.mp hnil _ he (by simp)
  | some e =>
      have hmem := List.mem_filter.mp (List.mem_of_getLast? hlatest)
      obtain ⟨hsource, hefall⟩ := of_decide_eq_true hmem.2
      obtain ⟨h, htarget⟩ := hfall hmem.1 hsource hefall
      rw [if_pos h, Option.map_some, htarget]

/-- Every block of a graph is a **piece** of the items, with edges added. -/
theorem exists_piece {items : List Item} {es : List Edge} (hblocks : g.blocks = partition items)
    {id : Nat} {b : Block} (hb : (g.addEdges es).block? id = some b) :
    ∃ piece ∈ items.splitBy (continues (targets items)),
      g.block? id = some (Block.ofItems piece) ∧ b.items = piece ∧
      b.address = (Block.ofItems piece).address ∧
      b = es.foldl (noteEdge id) (Block.ofItems piece) := by
  rw [block?_addEdges] at hb
  obtain ⟨c, hc, rfl⟩ := Option.map_eq_some_iff.mp hb
  obtain ⟨piece, hpiece, rfl⟩ := mem_partition (hblocks ▸ List.mem_of_getElem? hc)
  obtain ⟨hitems, haddress, -⟩ := foldl_noteEdge_kept id (Block.ofItems piece) es
  exact ⟨piece, hpiece, hc, hitems, haddress, rfl⟩

/-- The items of the blocks, block by block, are the **pieces** that the items are cut into. -/
theorem map_items_ofSorted {policy : UnresolvedTargets} {items : List Item}
    (h : ofSorted policy items = .ok g) :
    g.blocks.map (·.items) = items.splitBy (continues (targets items)) := by
  obtain ⟨g₁, jumps, hofBlocks, rfl⟩ := ofSorted_eq_ok h
  obtain ⟨hblocks, -⟩ := ofBlocks_eq_ok hofBlocks
  have hitems : (g₁.addEdges g₁.edges).blocks.map (·.items) = g₁.blocks.map (·.items) :=
    map_blocks_addEdges _ _ _ fun id b => (foldl_noteEdge_kept id b _).1
  refine hitems.trans ?_
  rw [hblocks, partition, List.map_map]
  exact List.map_id _

/-- **The blocks of a graph of sorted items.** -/
theorem blocks_ofSorted {policy : UnresolvedTargets} {items : List Item}
    (h : ofSorted policy items = .ok g) : Blocks items g := by
  have hpieces := map_items_ofSorted h
  obtain ⟨g₁, jumps, hofBlocks, rfl⟩ := ofSorted_eq_ok h
  obtain ⟨hblocks, hkeys⟩ := ofBlocks_eq_ok hofBlocks
  have hkeys' : (g₁.addEdges g₁.edges).keys = g₁.keys := keys_addEdges ..
  have hsize : (g₁.addEdges g₁.edges).size = g₁.size := size_addEdges ..
  constructor
  case keys_eq =>
    refine hkeys'.trans ?_
    rw [hkeys, ← hblocks]
    exact (map_blocks_addEdges _ _ _ fun id b => (foldl_noteEdge_kept id b _).2.1).symm
  case flatten_eq => rw [hpieces, List.flatten_splitBy]
  case address_eq =>
    intro id b hb
    obtain ⟨piece, hmem, -, hitems, haddress, -⟩ := exists_piece hblocks hb
    rw [hitems, haddress]
    cases piece with
    | nil => exact absurd rfl (List.ne_nil_of_mem_splitBy hmem)
    | cons item piece => rfl
  case isChain =>
    intro id b hb
    obtain ⟨piece, hmem, -, hitems, -⟩ := exists_piece hblocks hb
    rw [hitems]
    exact List.isChain_of_mem_splitBy hmem
  case mem_succs =>
    intro id b last hb hlast s
    obtain ⟨piece, -, hb₁, hitems, -, rfl⟩ := exists_piece hblocks hb
    rw [hitems] at hlast
    have hat : ∀ t, ((g₁.addEdges g₁.edges).recordUnresolved jumps).blockAt? t = g₁.blockAt? t :=
      fun t => congrArg (List.idxOf? t) hkeys'
    simp only [hat]
    rw [mem_succs_addEdges hb₁ rfl hlast, ← hsize]
    rfl
  case fall_eq =>
    intro id b last hb hlast
    obtain ⟨piece, -, hb₁, hitems, -, rfl⟩ := exists_piece hblocks hb
    rw [hitems] at hlast
    rw [fall_addEdges hb₁ rfl hlast, ← hsize]
    rfl

/-- **The blocks of a graph that has been built.** -/
theorem blocks_build {policy : UnresolvedTargets} {items : List Item}
    (hascending : items.Pairwise fun a b => a.address < b.address)
    (h : build policy items = .ok g) : Blocks items g :=
  blocks_ofSorted (build_eq_ok hascending h)

/-! ### Positions -/

/-- The number of elements in the lists before a given one. -/
def before {α : Type} (lists : List (List α)) (i : Nat) : Nat :=
  (lists.take i).flatten.length

/-- Another list in front adds its elements. -/
theorem before_cons_succ {α : Type} (first : List α) (lists : List (List α)) (i : Nat) :
    before (first :: lists) (i + 1) = first.length + before lists i := by
  rw [before, List.take_succ_cons, List.flatten_cons, List.length_append, before]

/-- An element of one of several lists, found in all of them joined. -/
theorem getElem?_flatten_before {α : Type} {lists : List (List α)} {i j : Nat} {l : List α}
    (hl : lists[i]? = some l) (hj : j < l.length) :
    lists.flatten[before lists i + j]? = l[j]? := by
  induction lists generalizing i with
  | nil => simp at hl
  | cons first lists ih =>
      cases i with
      | zero =>
          obtain rfl : first = l := by simpa using hl
          rw [before, List.take_zero, List.flatten_nil, List.length_nil, Nat.zero_add,
            List.flatten_cons, List.getElem?_append_left hj]
      | succ i =>
          rw [List.getElem?_cons_succ] at hl
          rw [before_cons_succ, List.flatten_cons, Nat.add_assoc,
            List.getElem?_append_right (Nat.le_add_right ..), Nat.add_sub_cancel_left, ih hl]

/-- Every element of several lists joined is an element of one of them. -/
theorem exists_before {α : Type} {lists : List (List α)} {k : Nat}
    (hk : k < lists.flatten.length) :
    ∃ i l j, lists[i]? = some l ∧ j < l.length ∧ k = before lists i + j := by
  induction lists generalizing k with
  | nil => simp at hk
  | cons first lists ih =>
      by_cases hfirst : k < first.length
      · exact ⟨0, first, k, rfl, hfirst, (Nat.zero_add k).symm⟩
      · rw [List.flatten_cons, List.length_append] at hk
        obtain ⟨i, l, j, hl, hj, hsum⟩ := ih (k := k - first.length) (by omega)
        refine ⟨i + 1, l, j, hl, hj, ?_⟩
        rw [before_cons_succ]
        omega

/-- The elements before the next list. -/
theorem before_succ {α : Type} {lists : List (List α)} {i : Nat} {l : List α}
    (hl : lists[i]? = some l) : before lists (i + 1) = before lists i + l.length := by
  rw [before, before, List.take_add_one, hl, List.flatten_append, List.length_append,
    Option.toList_some, List.flatten_singleton]

/-- The elements before the end of all lists. -/
theorem before_length {α : Type} (lists : List (List α)) :
    before lists lists.length = lists.flatten.length := by
  rw [before, List.take_length]

/-- The number of items before a block. -/
def start (g : FlowGraph) (id : Nat) : Nat :=
  before (g.blocks.map (·.items)) id

/-- The items of a block that is there. -/
theorem getElem?_map_items {id : Nat} {b : Block} (hb : g.block? id = some b) :
    (g.blocks.map (·.items))[id]? = some b.items := by
  rw [block?] at hb
  rw [List.getElem?_map, hb]
  rfl

namespace Blocks

variable {items : List Item}

/-- Where an item of a block stands among all items. -/
theorem getElem?_start (h : Blocks items g) {id j : Nat} {b : Block} (hb : g.block? id = some b)
    (hj : j < b.items.length) : items[g.start id + j]? = b.items[j]? := by
  have hitem := getElem?_flatten_before (getElem?_map_items hb) hj
  rw [h.flatten_eq] at hitem
  exact hitem

/-- Every item stands in a block. -/
theorem exists_position (h : Blocks items g) {k : Nat} (hk : k < items.length) :
    ∃ id b j, g.block? id = some b ∧ j < b.items.length ∧ k = g.start id + j := by
  rw [← h.flatten_eq] at hk
  obtain ⟨id, l, j, hl, hj, rfl⟩ := exists_before hk
  rw [List.getElem?_map, Option.map_eq_some_iff] at hl
  obtain ⟨b, hb, rfl⟩ := hl
  exact ⟨id, b, j, hb, hj, rfl⟩

/-- No block is empty. -/
theorem items_ne_nil (h : Blocks items g) {id : Nat} {b : Block} (hb : g.block? id = some b) :
    b.items ≠ [] := by
  intro hnil
  have haddress := h.address_eq id b hb
  rw [hnil] at haddress
  cases haddress

/-- The next block starts where a block ends. -/
theorem start_succ {id : Nat} {b : Block} (hb : g.block? id = some b) :
    g.start (id + 1) = g.start id + b.items.length :=
  before_succ (getElem?_map_items hb)

/-- The last block ends where the items end. -/
theorem start_size (h : Blocks items g) : g.start g.size = items.length := by
  rw [start, size, ← List.length_map (·.items), before_length, h.flatten_eq]

/-- Inside a block an item **falls through**, and the one behind it is not jumped to. -/
theorem continues_inside (h : Blocks items g) {id j : Nat} {b : Block}
    (hb : g.block? id = some b) (hj : j + 1 < b.items.length) {previous item : Item}
    (hprevious : b.items[j]? = some previous) (hitem : b.items[j + 1]? = some item) :
    previous.flow = .plain ∧ item.address ∉ targets items := by
  have hchain := List.isChain_iff_getElem.mp (h.isChain id b hb) j hj
  obtain ⟨-, rfl⟩ := List.getElem?_eq_some_iff.mp hprevious
  obtain ⟨-, rfl⟩ := List.getElem?_eq_some_iff.mp hitem
  rw [continues, Bool.and_eq_true, Bool.not_eq_true', Bool.not_eq_true'] at hchain
  refine ⟨?_, fun hmem => ?_⟩
  · cases hflow : b.items[j].flow with
    | plain => rfl
    | jump t | conditional t | terminal => simp [hflow, Flow.endsBlock] at hchain
  · simp [hmem] at hchain

/-- The block at an address. -/
theorem blockAt?_eq (h : Blocks items g) {id : Nat} {b : Block} (hb : g.block? id = some b) :
    g.blockAt? b.address = some id :=
  blockAt?_address h.keys_eq hb

/-- **An item that is jumped to starts a block.** -/
theorem exists_block_at_target (h : Blocks items g) {k t : Nat} {item : Item}
    (hitem : items[k]? = some item) (haddress : item.address = t) (ht : t ∈ targets items) :
    ∃ id b, g.block? id = some b ∧ b.address = t ∧ k = g.start id := by
  obtain ⟨id, b, j, hb, hj, rfl⟩ :=
    h.exists_position (List.getElem?_eq_some_iff.mp hitem).1
  rw [h.getElem?_start hb hj] at hitem
  cases j with
  | zero =>
      refine ⟨id, b, hb, ?_, rfl⟩
      have hhead := h.address_eq id b hb
      rw [List.head?_eq_getElem?, hitem, Option.map_some] at hhead
      rw [← haddress]
      exact (Option.some.inj hhead).symm
  | succ j =>
      obtain ⟨-, hnot⟩ := h.continues_inside hb hj
        (List.getElem?_eq_getElem (Nat.lt_of_succ_lt hj)) hitem
      rw [haddress] at hnot
      exact absurd ht hnot

end Blocks

end FlowGraph

end FlowForm
