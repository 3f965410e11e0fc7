import Mathlib
import FlowForm.Proofs.Recursion
import FlowForm.Proofs.Dominance.Forest

/-!
# The Orders of the Blocks

A flow graph lists its reachable blocks in two orders. Both are those of one recursion from the
entry, which visits the successors of a block from left to right and passes over ids without a block
and blocks that it has entered before: in preorder blocks stand as they are entered
(`preorder_eq_recursive`), and in reverse postorder the last block to be left comes first
(`reversePostorder_orders_edges`). Nothing is asked of the graph. Edges may lead to missing blocks,
may be listed twice and may form cycles, and the notes at their two ends need not agree.

In reverse postorder an edge leads **onward**, to a later position, unless it closes a cycle. If
there are no cycles within reach, the order is topological.

## Main results

* `preorder_eq_recursive`: the preorder is that of the recursion.
* `position_lt_or_exists_path`: edges lead onward or close a cycle.
* `acyclic_iff_forall_position_lt`: when the order is topological.
* `reversePostorder_orders_edges`: the reverse postorder is that of the recursion.
-/

namespace FlowForm.FlowGraph

variable {g : FlowGraph}

/-- What the recursion notes when it visits the entry. -/
def searched (g : FlowGraph) : Search.Trail Nat :=
  Search.visit g.succs g.ids [g.entry] {}

/-- The blocks in the order in which the recursion **enters** them. -/
def recursivePreorder (g : FlowGraph) : List Nat :=
  g.searched.entered.reverse

/-- The blocks in the order in which the recursion **leaves** them. -/
def recursivePostorder (g : FlowGraph) : List Nat :=
  g.searched.left.reverse

/-! ### Preorder -/

/-- The preorder lists the reachable blocks. -/
theorem mem_preorder_iff_reachable {b : Nat} : b ∈ g.preorder ↔ g.Reachable b := by
  rw [preorder, Search.mem_preorder_iff]
  constructor
  · rintro ⟨r, hr, -, hreaches⟩
    obtain rfl : r = g.entry := List.mem_singleton.mp hr
    exact reaches_iff_exists_path.mp hreaches
  · intro hb
    exact ⟨g.entry, List.mem_singleton.mpr rfl, mem_ids.mpr g.entry_lt_size,
      reaches_iff_exists_path.mpr hb⟩

/-- **The preorder is that of the recursion.** In every flow graph, blocks are listed in the order
in which a recursion enters them that starts at the entry and visits the successors of each block
from left to right, without missing blocks and those entered before. The entry comes first, and what
is listed are the reachable blocks, none of them twice. -/
theorem preorder_eq_recursive (g : FlowGraph) :
    g.preorder = g.recursivePreorder ∧ g.preorder.head? = some g.entry ∧ g.preorder.Nodup ∧
      ∀ b, b ∈ g.preorder ↔ g.Reachable b :=
  ⟨Search.preorder_eq_visit [g.entry], Search.head?_preorder (mem_ids.mpr g.entry_lt_size),
    Search.nodup_preorder [g.entry], fun _ => mem_preorder_iff_reachable⟩

/-! ### Reverse postorder -/

/-- The reverse postorder is the opposite of the order in which the recursion leaves blocks. -/
theorem reversePostorder_eq_reverse (g : FlowGraph) :
    g.reversePostorder = g.recursivePostorder.reverse := by
  rw [recursivePostorder, List.reverse_reverse]
  exact Search.reversePostorder_eq_visit (mem_ids.mpr g.entry_lt_size)

/-- **Edges lead onward or close a cycle.** -/
theorem position_lt_or_exists_path {u v : Nat} (hu : g.Reachable u) (hedge : g.HasEdge u v) :
    g.position u < g.position v ∨ ∃ π, g.Path v π u := by
  have hreturning : Search.Returning g.succs g.ids g.reversePostorder :=
    Search.returning_reversePostorder (mem_ids.mpr g.entry_lt_size)
  obtain ⟨as, bs, hsplit, hv | hreaches⟩ := hreturning.exists_after
    (mem_reversePostorder_iff_reachable.mpr hu) hedge.1 (mem_ids.mpr hedge.2)
  · obtain ⟨cs, ds, rfl⟩ := List.append_of_mem hv
    have hsplit' : g.reversePostorder = (as ++ u :: cs) ++ v :: ds := by
      rw [hsplit, List.append_assoc, List.cons_append]
    exact .inl ((mem_before_iff hsplit').mp (by simp))
  · exact .inr (reaches_iff_exists_path.mp hreaches)

/-- There is **no cycle within reach**: a path from a reachable block to itself has no edges. -/
def Acyclic (g : FlowGraph) : Prop :=
  ∀ b π, g.Reachable b → g.Path b π b → π = [b]

/-- Where all edges lead onward, a path takes at least one position for each of its edges. -/
theorem Path.position_add_length_le
    (h : ∀ u v, g.Reachable u → g.HasEdge u v → g.position u < g.position v)
    {a b : Nat} {π : List Nat} (ha : g.Reachable a) (hπ : g.Path a π b) :
    g.Reachable b ∧ g.position a + π.length ≤ g.position b + 1 := by
  induction hπ with
  | start => exact ⟨ha, Nat.le_refl _⟩
  | @step π u v _ hedge ih =>
      obtain ⟨hu, hle⟩ := ih
      have hlt := h u v hu hedge
      refine ⟨hu.step hedge, ?_⟩
      rw [List.length_append, List.length_singleton]
      omega

/-- **The order is topological** exactly if there is no cycle within reach. -/
theorem acyclic_iff_forall_position_lt :
    g.Acyclic ↔ ∀ u v, g.Reachable u → g.HasEdge u v → g.position u < g.position v := by
  constructor
  · intro hacyclic u v hu hedge
    refine (position_lt_or_exists_path hu hedge).resolve_right ?_
    rintro ⟨π, hπ⟩
    -- The edge and the way back make a path from the block to itself.
    have hnil : π = [] := (List.cons.inj (hacyclic u _ hu (hπ.cons hedge))).2
    obtain ⟨ρ, rfl⟩ := hπ.exists_cons
    cases hnil
  · intro h b π hb hπ
    obtain ⟨-, hle⟩ := hπ.position_add_length_le h hb
    obtain ⟨ρ, rfl⟩ := hπ.exists_cons
    have hnil : ρ.length = 0 := by
      rw [List.length_cons] at hle
      omega
    rw [List.length_eq_zero_iff.mp hnil]

/-- **The reverse postorder is that of the recursion, and it orders edges.** In every flow graph,
the list is the reverse of the order in which the recursion leaves blocks. It lists what the
preorder lists, nothing twice and the entry first. An edge between listed blocks leads to a later
position unless a path leads from its target back to its source; every listed block but the entry
has an edge from a listed block before it; and all edges lead to later positions exactly if there is
no cycle within reach. -/
theorem reversePostorder_orders_edges (g : FlowGraph) :
    g.reversePostorder = g.recursivePostorder.reverse ∧
    (∀ b, b ∈ g.reversePostorder ↔ b ∈ g.preorder) ∧
    g.reversePostorder.Nodup ∧
    g.reversePostorder.head? = some g.entry ∧
    (∀ u ∈ g.reversePostorder, ∀ v ∈ g.reversePostorder, g.HasEdge u v →
      g.reversePostorder.idxOf u < g.reversePostorder.idxOf v ∨ ∃ π, g.Path v π u) ∧
    (∀ v ∈ g.reversePostorder, v ≠ g.entry → ∃ u ∈ g.reversePostorder, g.HasEdge u v ∧
      g.reversePostorder.idxOf u < g.reversePostorder.idxOf v) ∧
    (g.Acyclic ↔ ∀ u ∈ g.reversePostorder, ∀ v, g.HasEdge u v →
      g.reversePostorder.idxOf u < g.reversePostorder.idxOf v) := by
  have hlisted : ∀ b, b ∈ g.reversePostorder ↔ g.Reachable b := fun b =>
    mem_reversePostorder_iff_reachable
  refine ⟨g.reversePostorder_eq_reverse,
    fun b => (hlisted b).trans mem_preorder_iff_reachable.symm, g.nodup_reversePostorder, ?_,
    fun u hu v _ hedge => position_lt_or_exists_path ((hlisted u).mp hu) hedge,
    fun v hv hne => ?_, ?_⟩
  · rw [reversePostorder_eq_entry_cons, List.head?_cons]
  · obtain ⟨u, hu, hedge, hlt⟩ := exists_earlier_pred ((hlisted v).mp hv) hne
    exact ⟨u, (hlisted u).mpr hu, hedge, hlt⟩
  · simp only [acyclic_iff_forall_position_lt, hlisted]
    exact forall_congr' fun u => forall_comm

/-- A block that is entered before one of its predecessors: `2` has an edge to `1`, to which the
recursion comes first. One edge leads to a missing block, one is listed twice, and the only cycle is
out of reach. -/
def overpass : FlowGraph where
  blocks := [
    { address := 40, items := [], succs := [1, 2, 9] },
    { address := 41, items := [], succs := [3] },
    { address := 42, items := [], succs := [1, 3, 3] },
    { address := 43, items := [] },
    { address := 44, items := [], succs := [4, 0] }]
  keys := [40, 41, 42, 43, 44]
  blocks_ne_nil := by decide
  length_keys := by decide
  nodup_keys := by decide

/-- The edge from `2` to `1` leads onward, although the recursion comes to `1` first, and so do all
others. -/
theorem reversePostorder_orders_edges_overpass :
    overpass.preorder = [0, 1, 3, 2] ∧ overpass.reversePostorder = [0, 2, 1, 3] ∧
      overpass.Acyclic ∧ overpass.HasEdge 2 1 ∧
      (overpass.reversePostorder.idxOf 2 < overpass.reversePostorder.idxOf 1 ∨
        ∃ π, overpass.Path 1 π 2) ∧
      ∃ u ∈ overpass.reversePostorder, overpass.HasEdge u 3 ∧
        overpass.reversePostorder.idxOf u < overpass.reversePostorder.idxOf 3 := by
  have hpreorder : overpass.preorder = [0, 1, 3, 2] := by decide_cbv
  have horder : overpass.reversePostorder = [0, 2, 1, 3] := by decide_cbv
  have hedge : overpass.HasEdge 2 1 := ⟨by decide, by decide⟩
  have honward : ∀ u ∈ [0, 2, 1, 3], ∀ v ∈ overpass.succs u, v < overpass.size →
      [0, 2, 1, 3].idxOf u < [0, 2, 1, 3].idxOf v := by decide
  obtain ⟨-, -, -, -, hlaw, hled, htopological⟩ := reversePostorder_orders_edges overpass
  refine ⟨hpreorder, horder, htopological.mpr fun u hu v hv => ?_, hedge,
    hlaw 2 (by rw [horder]; decide) 1 (by rw [horder]; decide) hedge,
    hled 3 (by rw [horder]; decide) (by decide)⟩
  rw [horder] at hu ⊢
  exact honward u hu v hv.1 hv.2

end FlowForm.FlowGraph
