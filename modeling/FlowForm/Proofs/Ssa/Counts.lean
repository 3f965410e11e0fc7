import Mathlib
import FlowForm.Proofs.Ssa.Supply

/-!
# What Construction Counts

Construction counts sites and definitions beforehand, draws a version for each of them on the way,
and reports in its statistics what it has done. Here the three are measured against the graph.

The **places** of placeholders and of definitions are sets, defined by paths and frontiers alone.
Their sizes are what is counted beforehand (`versionsNeeded_eq`). What is drawn and what is reported
is read off the result: the versions of its definitions in the order of the walk
(`draws_construct`), its assignments, and its uses and operands that are bound (`counts_construct`).

## Main results

* `versionsNeeded_eq`: the count beforehand is the number of places.
* `draws_construct`: the versions drawn.
* `counts_construct`: the statistics.
-/

namespace FlowForm.Ssa

open DominatorTree

variable {g : FlowGraph} {counter : Counter} {result : Result}

/-! ### Places -/

/-- The **places of placeholders**: a block and a variable, where the block lies in every set that
is closed under frontiers for the variable. -/
def phiPlaces (g : FlowGraph) : Set (Nat × String) :=
  {place | ∀ S, FrontierClosed g place.2 S → place.1 ∈ S}

/-- The **places of definitions** in reachable blocks: a block, and a position among the definitions
of its statements. -/
def defPlaces (g : FlowGraph) : Set (Nat × Nat) :=
  {place | g.Reachable place.1 ∧ place.2 < (defsOf g place.1).length}

/-- The number of places, of both kinds. -/
noncomputable def placeCount (g : FlowGraph) : Nat :=
  (phiPlaces g).ncard + (defPlaces g).ncard

/-- A set has as many elements as a list of them without repetitions. -/
theorem ncard_eq_length {α : Type} {S : Set α} {l : List α} (hnodup : l.Nodup)
    (hmem : ∀ a, a ∈ l ↔ a ∈ S) : S.ncard = l.length := by
  classical
  obtain rfl : S = l.toFinset := Set.ext fun a => by
    rw [← hmem a, Finset.mem_coe, List.mem_toFinset]
  rw [Set.ncard_coe_finset, List.toFinset_card_of_nodup hnodup]

/-- The places of placeholders are where they are needed. -/
theorem mem_phiPlaces (hagree : g.EdgesAgree) {id : Nat} {x : String} :
    (id, x) ∈ phiPlaces g ↔ Needs g id x := by
  obtain ⟨hclosed, hleast⟩ := isLeast_needs hagree x
  exact ⟨fun h => h _ hclosed, fun h S hS => hleast hS h⟩

/-- There are as many **places of placeholders** as sites list. -/
theorem ncard_phiPlaces (hagree : g.EdgesAgree) :
    (phiPlaces g).ncard = siteCount (sites g (compute g)) := by
  let places := (sites g (compute g)).flatMap fun site => site.blocks.map (·, site.name)
  have hnodup : places.Nodup := by
    refine List.nodup_flatMap.mpr ⟨fun site hsite => ?_, ?_⟩
    · exact (blocks_of_mem_sites hagree hsite).1.map fun a b h => (Prod.mk.inj h).1
    · refine (List.pairwise_map.mp (nodup_names_sites g)).imp fun hne place hfirst hsecond => ?_
      obtain ⟨b, -, rfl⟩ := List.mem_map.mp hfirst
      obtain ⟨c, -, hplace⟩ := List.mem_map.mp hsecond
      exact hne (Prod.mk.inj hplace).2.symm
  have hlength : places.length = siteCount (sites g (compute g)) := by
    rw [siteCount, List.length_flatMap, List.length_flatMap]
    simp only [List.length_map]
  rw [← hlength]
  refine ncard_eq_length hnodup ?_
  rintro ⟨id, x⟩
  rw [mem_phiPlaces hagree, Needs, List.mem_flatMap]
  simp only [List.mem_map, Prod.mk.injEq]
  constructor
  · rintro ⟨site, hsite, b, hb, rfl, hname⟩
    exact ⟨site, hsite, hname, hb⟩
  · rintro ⟨site, hsite, hname, hid⟩
    exact ⟨site, hsite, id, hid, rfl, hname⟩

/-- There are as many **places of definitions** as have been counted. -/
theorem ncard_defPlaces (hagree : g.EdgesAgree) :
    (defPlaces g).ncard = definitionCount g (compute g) := by
  let places := (compute g).preorder.flatMap fun id =>
    (List.range (defsOf g id).length).map (id, ·)
  have hnodup : places.Nodup := by
    refine List.nodup_flatMap.mpr ⟨fun id _ => ?_, ?_⟩
    · exact List.nodup_range.map fun a b h => (Prod.mk.inj h).2
    · refine (nodup_preorder hagree).imp fun hne place hfirst hsecond => ?_
      obtain ⟨j, -, rfl⟩ := List.mem_map.mp hfirst
      obtain ⟨k, -, hplace⟩ := List.mem_map.mp hsecond
      exact hne (Prod.mk.inj hplace).1.symm
  have hlength : places.length = definitionCount g (compute g) := by
    rw [← sum_defsOf hagree, List.length_flatMap]
    simp only [List.length_map, List.length_range]
  rw [← hlength]
  refine ncard_eq_length hnodup ?_
  rintro ⟨id, j⟩
  rw [List.mem_flatMap]
  simp only [List.mem_map, List.mem_range, Prod.mk.injEq, mem_preorder_iff hagree]
  constructor
  · rintro ⟨i, hi, k, hk, rfl, rfl⟩
    exact ⟨hi, hk⟩
  · rintro ⟨hid, hj⟩
    exact ⟨id, hid, j, hj, rfl, rfl⟩

/-- **What is counted beforehand** is the number of places. -/
theorem versionsNeeded_eq (hagree : g.EdgesAgree) : versionsNeeded g = placeCount g := by
  rw [placeCount, ncard_phiPlaces hagree, ncard_defPlaces hagree, versionsNeeded]

/-! ### The result -/

/-- Filling in operands keeps the definitions of all blocks. -/
theorem defsOf_fillOperands (exits : Exits) (ids : List Nat) (g : FlowGraph) :
    defsOf (ids.foldl (fun g id => (g.succs id).foldl (filledEdge exits id) g) g) = defsOf g := by
  funext id
  rw [defsOf, defsOf, block?_fillOperands]
  cases g.block? id with
  | none => rfl
  | some b => rfl

/-- **The versions drawn** are those that the result defines, in the order of the walk. -/
theorem draws_construct (h : construct g counter = .ok result) :
    Draws (outset g counter) { counter := result.counter, stats := result.stats }
      ((compute g).preorder.flatMap fun id => definedVersions (result.graph.eventsOf id)) := by
  obtain ⟨g', exits, q, hwalked, hfill⟩ := walked_construct h
  obtain ⟨hgraph, hcounter, -⟩ := run_fillOperands hfill
  rw [hgraph, eventsOf_fillOperands]
  refine ⟨hwalked.draws.versions_eq, ?_⟩
  rw [hcounter]
  exact hwalked.draws.counter_eq

/-- **What is reported** are the assignments of the result in reachable blocks, the uses in them
that are bound, and the operands that are bound along the edges that leave them. -/
theorem counts_construct (h : construct g counter = .ok result) :
    ∃ exits, Counts (outset g counter) { counter := result.counter, stats := result.stats }
      ((compute g).preorder.flatMap (defsOf result.graph)).length
      (boundUses (result.graph.eventsAlong (compute g).preorder) +
        ((compute g).preorder.map fun id =>
          ((result.graph.succs id).map (boundOperands exits result.graph id)).sum).sum) := by
  obtain ⟨g', exits, q, hwalked, hfill⟩ := walked_construct h
  obtain ⟨hgraph, -, hoperands⟩ := run_fillOperands hfill
  refine ⟨exits, ?_⟩
  rw [hgraph, defsOf_fillOperands, FlowGraph.eventsAlong, eventsOf_fillOperands,
    succs_fillOperands, boundOperands_fillOperands]
  exact hwalked.counts.append hoperands

/-- Construction keeps the number of definitions of each block. -/
theorem length_defsOf_construct (h : construct g counter = .ok result) (id : Nat) :
    (defsOf result.graph id).length = (defsOf g id).length := by
  obtain ⟨exits, hbuilt⟩ := rebuilt_construct h
  rw [defsOf, defsOf]
  cases hb : g.block? id with
  | none => rw [hbuilt.sameOutline.block?_eq_none hb]
  | some b =>
      obtain ⟨b', hb', houtline⟩ := hbuilt.sameOutline.exists_block hb
      have hitems : b'.items.map Item.erase = b.items.map Item.erase :=
        congrArg Block.items houtline
      have hlength : ∀ c : Block,
          c.defs.length = ((c.items.map Item.erase).map fun item => item.defs.length).sum := by
        intro c
        rw [Block.defs, List.length_flatMap, List.map_map]
        exact congrArg List.sum (List.map_congr_left fun item _ => by
          simp [Item.defs, Item.erase])
      rw [hb']
      simp only [hlength, hitems]

/-- **The statistics say what has been counted beforehand.** -/
theorem stats_construct (h : construct g counter = .ok result) :
    result.stats.phis = siteCount (sites g (compute g)) ∧
      result.stats.definitions = definitionCount g (compute g) := by
  obtain ⟨hvalid, -⟩ := construct_eq_ok h
  obtain ⟨exits, hcounts⟩ := counts_construct h
  refine ⟨hcounts.phis_eq, hcounts.definitions_eq.trans ?_⟩
  rw [Nat.zero_add, ← sum_defsOf (FlowGraph.edgesAgree_of_validate hvalid), List.length_flatMap]
  exact congrArg List.sum (List.map_congr_left fun id _ => length_defsOf_construct h id)

end FlowForm.Ssa
