import Mathlib
import FlowForm.Proofs.Graph.Flow

/-!
# Graphs Made by Adding Edges

Edges are added one at a time, between any two ids. Each end is noted where there is a block to
note it at, and neither end waits for the other: an edge to a missing block is listed where it
leaves, and one from a missing block is known where it arrives.

Starting from blocks without edges, what a whole sequence of additions makes of a graph can be read
off the sequence (`addEdges_eq_mapBlocks`). A block lists the targets of the edges that leave it and
knows the sources of those that enter it, each once and in the order in which they first came up,
and the latest edge without a jump is the one that counts. Both ends of an edge are noted by the
same addition, so they agree wherever both are blocks, and the graph is valid unless some edge has a
block at one end only (`validate_addEdges_iff`).

## Main results

* `addEdges_eq_mapBlocks`: the blocks of a graph to which edges have been added.
* `validate_addEdges_iff`: when such a graph is valid.
* `addEdges_notes_added`: both of them, for a graph of blocks without edges.
-/

namespace FlowForm.FlowGraph

variable {g : FlowGraph} {added : List Edge}

/-- A block **without edges**. -/
def EdgeFree (b : Block) : Prop :=
  b.succs = [] ∧ b.preds = [] ∧ b.fall = none

instance : DecidablePred EdgeFree := fun b =>
  inferInstanceAs (Decidable (b.succs = [] ∧ b.preds = [] ∧ b.fall = none))

/-- A block without edges **after some have been added**: its successors are the targets of those
that leave it and its predecessors the sources of those that enter it, in order and without repeats,
and the latest one without a jump is remembered as such. -/
def noted (added : List Edge) (id : Nat) (b : Block) : Block :=
  { b with
    succs := ((added.filter (·.source = id)).map (·.target)).eraseDups
    preds := ((added.filter (·.target = id)).map (·.source)).eraseDups
    fall := (added.filter fun e => e.source = id ∧ e.fall = true).getLast?.map (·.target) }

/-- Appending ids unless they are there **drops repeats**. -/
theorem foldl_pushNew_nil (ids : List Nat) : ids.foldl Block.pushNew [] = ids.eraseDups := by
  induction ids using List.reverseRecOn with
  | nil => rfl
  | append_singleton ids id ih =>
      rw [List.foldl_concat, ih, List.eraseDups_append, Block.pushNew]
      by_cases hid : id ∈ ids <;> simp [List.removeAll, List.eraseDups_cons, hid]

/-- What adding edges does to a block without edges. -/
theorem foldl_noteEdge_eq_noted (added : List Edge) (id : Nat) {b : Block} (hfree : EdgeFree b) :
    added.foldl (noteEdge id) b = noted added id b := by
  obtain ⟨hsuccs, hpreds, hfall⟩ := hfree
  obtain ⟨hitems, haddress, hphis⟩ := foldl_noteEdge_kept id b added
  have hsuccs' := succs_foldl id b added
  have hpreds' := preds_foldl id b added
  have hfall' := fall_foldl id b added
  rw [hsuccs, foldl_pushNew_nil] at hsuccs'
  rw [hpreds, foldl_pushNew_nil] at hpreds'
  rw [hfall, Option.or_none] at hfall'
  -- The block is given by its fields, all of which are known now.
  generalize added.foldl (noteEdge id) b = c at *
  cases c
  rw [noted, ← hsuccs', ← hpreds', ← hfall', ← hitems, ← haddress, ← hphis]

/-- **The graph after a sequence of additions** differs from the one before in the notes of its
blocks only, and these are read off the sequence. -/
theorem addEdges_eq_mapBlocks (hfree : ∀ b ∈ g.blocks, EdgeFree b) :
    g.addEdges added = g.mapBlocks (noted added) := by
  refine eq_of_block? (keys_addEdges g added) (unresolved_addEdges g added) fun id => ?_
  rw [block?_addEdges, block?_mapBlocks]
  exact Option.map_congr fun b hb =>
    foldl_noteEdge_eq_noted added id (hfree b (List.mem_of_getElem? hb))

/-! ### Validity -/

/-- The blocks of a graph to which edges have been added. -/
theorem block?_addEdges_eq_some {id : Nat} {b : Block} (hb : g.block? id = some b) :
    (g.addEdges added).block? id = some (added.foldl (noteEdge id) b) := by
  rw [block?_addEdges, hb, Option.map_some]

/-- The successors of a block are the targets of the edges that have been added from it. -/
theorem mem_succs_addEdges_iff (hfree : ∀ b ∈ g.blocks, EdgeFree b) {u v : Nat} :
    v ∈ (g.addEdges added).succs u ↔
      u < g.size ∧ ∃ e ∈ added, e.source = u ∧ e.target = v := by
  by_cases hu : u < g.size
  · obtain ⟨b, hb⟩ := exists_block? hu
    have hnil := (hfree b (List.mem_of_getElem? hb)).1
    rw [succs_of_block? (block?_addEdges_eq_some hb), mem_succs_foldl, hnil]
    simp [hu]
  · refine ⟨fun hv => absurd (lt_size_of_mem_succs hv) ?_, fun h => absurd h.1 hu⟩
    rwa [size_addEdges]

/-- The predecessors of a block are the sources of the edges that have been added into it. -/
theorem mem_preds_addEdges_iff (hfree : ∀ b ∈ g.blocks, EdgeFree b) {u v : Nat} :
    u ∈ (g.addEdges added).preds v ↔
      v < g.size ∧ ∃ e ∈ added, e.target = v ∧ e.source = u := by
  by_cases hv : v < g.size
  · obtain ⟨b, hb⟩ := exists_block? hv
    have hnil := (hfree b (List.mem_of_getElem? hb)).2.1
    rw [preds_of_block? (block?_addEdges_eq_some hb), mem_preds_foldl, hnil]
    simp [hv]
  · refine ⟨fun hu => absurd (lt_size_of_mem_preds hu) ?_, fun h => absurd h.1 hv⟩
    rwa [size_addEdges]

/-- The latest edge without a jump leads to a successor. -/
theorem fall_mem_noted {id fall : Nat} {b : Block} (h : (noted added id b).fall = some fall) :
    fall ∈ (noted added id b).succs := by
  obtain ⟨e, hlatest, rfl⟩ := Option.map_eq_some_iff.mp h
  obtain ⟨he, hsource⟩ := List.mem_filter.mp (List.mem_of_getLast? hlatest)
  refine List.mem_eraseDups.mpr (List.mem_map_of_mem (List.mem_filter.mpr ⟨he, ?_⟩))
  exact decide_eq_true (of_decide_eq_true hsource).1

/-- **A graph made by adding edges is valid** unless one of them has a block at one end only. -/
theorem validate_addEdges_iff (hkeys : g.keys = g.blocks.map (·.address))
    (hfree : ∀ b ∈ g.blocks, EdgeFree b) :
    (g.addEdges added).validate = .ok () ↔
      ∀ e ∈ added, (e.source < g.size ↔ e.target < g.size) := by
  constructor
  · intro hvalid e he
    have hconsistent := consistent_of_validate hvalid
    rw [← size_addEdges g added]
    constructor
    · intro hsource
      rw [size_addEdges] at hsource
      exact (hconsistent.succ_known e.source e.target
        ((mem_succs_addEdges_iff hfree).mpr ⟨hsource, e, he, rfl, rfl⟩)).1
    · intro htarget
      rw [size_addEdges] at htarget
      exact (hconsistent.pred_known e.target e.source
        ((mem_preds_addEdges_iff hfree).mpr ⟨htarget, e, he, rfl, rfl⟩)).1
  · intro hends
    have hregistered : (g.addEdges added).keys = (g.addEdges added).blocks.map (·.address) := by
      rw [keys_addEdges, hkeys]
      exact (map_blocks_addEdges g added _ fun id b => (foldl_noteEdge_kept id b added).2.1).symm
    have hagree : (g.addEdges added).EdgesAgree := edgesAgree_addEdges added fun id b hb =>
      have hfree := hfree b (List.mem_of_getElem? hb)
      ⟨hfree.1, hfree.2.1⟩
    refine (consistent_iff.mpr ⟨forall_blockAt?_iff.mpr hregistered, fun id other hother => ?_,
      hagree, fun id b fall hb hfall => ?_⟩).validate
    · rw [size_addEdges]
      rcases List.mem_append.mp hother with hmem | hmem
      · obtain ⟨hid, e, he, rfl, rfl⟩ := (mem_succs_addEdges_iff hfree).mp hmem
        exact (hends e he).mp hid
      · obtain ⟨hid, e, he, rfl, rfl⟩ := (mem_preds_addEdges_iff hfree).mp hmem
        exact (hends e he).mpr hid
    · rw [addEdges_eq_mapBlocks hfree, block?_mapBlocks] at hb
      obtain ⟨c, -, rfl⟩ := Option.map_eq_some_iff.mp hb
      exact fall_mem_noted hfall

/-- **Edges added one after the other.** Whatever the ids, a graph of blocks without edges is
changed in the notes of its blocks and in nothing else: a block lists the targets of the edges that
leave it and knows the sources of those that enter it, in the order of the additions and without
repeats, and its successor without a jump is the target of the latest edge without one. The graph is
valid if and only if no edge has a block at exactly one of its ends. -/
theorem addEdges_notes_added {blocks : List Block} (h : ofBlocks blocks = .ok g)
    (hfree : ∀ b ∈ blocks, EdgeFree b) (added : List Edge) :
    g.addEdges added = g.mapBlocks (noted added) ∧
    ((g.addEdges added).validate = .ok () ↔
      ∀ e ∈ added, (e.source < g.size ↔ e.target < g.size)) := by
  obtain ⟨hblocks, hkeys⟩ := ofBlocks_eq_ok h
  rw [← hblocks] at hfree hkeys
  exact ⟨addEdges_eq_mapBlocks hfree, validate_addEdges_iff hkeys hfree⟩

/-- Three blocks without edges. -/
def isolated : List Block := [
  { address := 60, items := [] },
  { address := 61, items := [], phis := [Phi.unversioned "x" [some 0, some 2]] },
  { address := 62, items := [] }]

/-- An edge that is added three times, with and without a jump, an edge from a block to itself, and
one between ids that no block has. -/
def additions : List Edge := [
  { source := 0, target := 1, fall := true },
  { source := 0, target := 2 },
  { source := 2, target := 2 },
  { source := 7, target := 9, fall := true },
  { source := 0, target := 1 },
  { source := 2, target := 1 },
  { source := 0, target := 1, fall := true }]

/-- The edges leave a valid graph, and one more from a missing block spoils it. -/
theorem addEdges_notes_added_isolated :
    ∃ g, ofBlocks isolated = .ok g ∧ (∀ b ∈ isolated, EdgeFree b) ∧
      ((g.addEdges additions).block? 0).map (fun b => (b.succs, b.fall)) =
        some ([1, 2], some 1) ∧
      ((g.addEdges additions).block? 1).map (·.preds) = some [0, 2] ∧
      (g.addEdges additions).validate = .ok () ∧
      (g.addEdges (additions ++ [{ source := 5, target := 1 }])).validate ≠ .ok () := by
  have hfree : ∀ b ∈ isolated, EdgeFree b := by decide
  have hblocks : ∃ g, ofBlocks isolated = .ok g := ⟨_, rfl⟩
  obtain ⟨g, hg⟩ := hblocks
  have hsize : g.size = 3 := by rw [size, (ofBlocks_eq_ok hg).1]; rfl
  obtain ⟨hnotes, hvalid⟩ := addEdges_notes_added hg hfree additions
  refine ⟨g, hg, hfree, ?_, ?_, hvalid.mpr (by rw [hsize]; decide), fun hspoilt => ?_⟩
  · rw [hnotes, block?_mapBlocks, block?, (ofBlocks_eq_ok hg).1]
    decide
  · rw [hnotes, block?_mapBlocks, block?, (ofBlocks_eq_ok hg).1]
    decide
  · have hends := (addEdges_notes_added hg hfree _).2.mp hspoilt
      { source := 5, target := 1 } (by decide)
    rw [hsize] at hends
    exact absurd hends (by decide)

end FlowForm.FlowGraph
