import Mathlib
import FlowForm.Proofs.Ssa.Liveness
import FlowForm.Proofs.Ssa.Numbering

/-!
# Statistics and the Graph They Describe

Construction counts while it goes: assignments and uses when their block is renamed, operands when
the edge that they stand for is filled in. Here these counts are compared with what is found when
the result is looked through block by block.

For assignments and uses this is a matter of summing up, since each block is renamed once. An
operand is counted at the **source** of its edge and found at the **target**, and the first operand
for a source is the only one that is ever filled in. One edge adds to the operands with a version
just those that are bound along it, as long as the edge is still **vacant**
(`operandCount_filledEdge`), and it leaves all other edges vacant (`Vacant.filledEdge`). So the
count is right when no edge is gone along twice (`operandCount_fillOperands`), which is the case if
no block lists a successor twice.

## Main results

* `operandCount_fillOperands`: what filling in adds to the operands with a version.
* `definitions_construct`, `phis_construct` and `renamedUses_construct`: the three counts.
-/

namespace FlowForm

/-- What the blocks of a graph contain, by their ids. -/
theorem FlowGraph.flatMap_ids {α : Type} {g : FlowGraph} {f : Nat → List α} {h : Block → List α}
    (hf : ∀ id b, g.block? id = some b → f id = h b) : g.ids.flatMap f = g.blocks.flatMap h := by
  have hmap : g.ids.map f = g.blocks.map h := by
    refine List.ext_getElem (by simp [ids, size]) fun i hi hi' => ?_
    rw [List.length_map] at hi'
    rw [List.getElem_map, List.getElem_map]
    refine hf _ _ ?_
    simp [block?, ids, hi']
  rw [List.flatMap_def, List.flatMap_def, hmap]

namespace Ssa

open DominatorTree

variable {g : FlowGraph} {counter : Counter} {result : Result} {exits : Exits}

/-! ### What is found in a graph -/

/-- The variables read by the items of a block. -/
def usesOf (g : FlowGraph) (id : Nat) : List Var :=
  match g.block? id with
  | some b => b.uses
  | none => []

/-- The number of operands in a graph that **have a version**. -/
def operandCount (g : FlowGraph) : Nat :=
  ((allPhis g).flatMap (·.operands)).countP (·.var.isVersioned)

/-- The placeholders of a graph, by the ids of its blocks. -/
theorem flatMap_phisOf (g : FlowGraph) : g.ids.flatMap (phisOf g) = allPhis g :=
  FlowGraph.flatMap_ids fun _ _ => phisOf_eq

/-- The definitions of a graph, by the ids of its blocks. -/
theorem flatMap_defsOf (g : FlowGraph) : g.ids.flatMap (defsOf g) = g.blocks.flatMap Block.defs :=
  FlowGraph.flatMap_ids fun _ _ => defsOf_eq

/-- The uses of an item that are bound. -/
theorem boundUses_events (item : Item) :
    boundUses item.events = item.uses.countP Var.isVersioned := by
  have hstatement : ∀ s : Assignment,
      s.events.countP Event.isBoundUse = s.value.vars.countP Var.isVersioned := fun s =>
    (boundUses_append _ _).trans (congrArg (· + 0) (boundUses_uses s.value.vars))
  rw [Item.events, Item.uses, boundUses_append, boundUses_uses, List.countP_append, boundUses,
    List.countP_flatMap, List.countP_flatMap]
  simp only [Function.comp_def, hstatement]

/-- The uses of a block that are bound. -/
theorem boundUses_eventsOf (g : FlowGraph) (id : Nat) :
    boundUses (g.eventsOf id) = (usesOf g id).countP Var.isVersioned := by
  rw [FlowGraph.eventsOf, usesOf]
  cases g.block? id with
  | none => rfl
  | some b =>
      have hphis : boundUses (b.phis.flatMap Phi.events) = 0 := by
        refine List.countP_eq_zero.mpr fun e he => ?_
        obtain ⟨phi, -, he⟩ := List.mem_flatMap.mp he
        rw [List.mem_singleton.mp he]
        exact Bool.false_ne_true
      have hitems : ∀ item : Item,
          item.events.countP Event.isBoundUse = item.uses.countP Var.isVersioned :=
        boundUses_events
      simp only [Block.events]
      rw [boundUses_append, hphis, Nat.zero_add, boundUses, Block.itemEvents, Block.uses,
        List.countP_flatMap, List.countP_flatMap]
      simp only [Function.comp_def, hitems]

/-- A sum over all blocks is one over the tree, if unreachable blocks add nothing. -/
theorem sum_ids (hagree : g.EdgesAgree) {f : Nat → Nat}
    (hzero : ∀ id, ¬ g.Reachable id → f id = 0) :
    (g.ids.map f).sum = ((compute g).preorder.map f).sum := by
  rw [← ((perm_preorder hagree).map f).sum_eq]
  have hite : g.ids.map f = g.ids.map fun id => if g.Reachable id then f id else 0 := by
    refine List.map_congr_left fun id _ => ?_
    split
    · rfl
    · rename_i hid
      exact hzero id hid
  rw [hite, List.sum_map_ite, List.map_const', List.sum_replicate_nat, Nat.mul_zero, Nat.add_zero]

/-! ### One edge -/

/-- Filling in the first operand for a source adds it to those with a version, if it had none and
gets one. -/
theorem countP_setFirst {pred : Nat} {version : Option Nat} {ops : List Operand}
    (hvacant : ∀ op, ops.find? (·.pred == some pred) = some op → op.var.isVersioned = false) :
    (setFirst pred version ops).countP (·.var.isVersioned) =
      ops.countP (·.var.isVersioned) +
        if (ops.find? (·.pred == some pred)).isSome && version.isSome then 1 else 0 := by
  induction ops with
  | nil => rfl
  | cons op ops ih =>
      rw [setFirst]
      by_cases hpred : op.pred = some pred
      · have hfind : (op :: ops).find? (·.pred == some pred) = some op := by simp [hpred]
        have hnone := hvacant op hfind
        have hset : (op.var.withVersion version).isVersioned = version.isSome := rfl
        rw [if_pos hpred, hfind, List.countP_cons, List.countP_cons]
        simp only [hset, hnone, Option.isSome_some, Bool.true_and, Bool.false_eq_true, if_false,
          Nat.add_zero]
      · have hfind : (op :: ops).find? (·.pred == some pred) =
            ops.find? (·.pred == some pred) := by simp [hpred]
        rw [hfind] at hvacant ⊢
        rw [if_neg hpred, List.countP_cons, List.countP_cons, ih hvacant]
        omega

/-- An edge is **vacant** if no placeholder at its target has had its operand filled in. -/
def Vacant (g : FlowGraph) (pred succ : Nat) : Prop :=
  ∀ phi ∈ phisOf g succ, ∀ op, phi.operand? (some pred) = some op → op.var.isVersioned = false

/-- Filling in the placeholders of one block for a source adds those that are bound. -/
theorem sum_map_fillPhi {pred : Nat} {env : Env} {phis : List Phi}
    (hvacant : ∀ phi ∈ phis, ∀ op, phi.operand? (some pred) = some op →
      op.var.isVersioned = false) :
    ((phis.map (fillPhi pred env)).map fun phi => phi.operands.countP (·.var.isVersioned)).sum =
      (phis.map fun phi => phi.operands.countP (·.var.isVersioned)).sum +
        phis.countP (fillBinds pred env) := by
  induction phis with
  | nil => rfl
  | cons phi phis ih =>
      have hphi : (fillPhi pred env phi).operands.countP (·.var.isVersioned) =
          phi.operands.countP (·.var.isVersioned) + if fillBinds pred env phi then 1 else 0 :=
        countP_setFirst (hvacant phi (List.mem_cons_self ..))
      have hrest := ih fun phi hphi => hvacant phi (List.mem_cons_of_mem _ hphi)
      simp only [List.map_cons, List.sum_cons, List.countP_cons, hphi, hrest]
      omega

/-- What a change of one block adds to a sum over all blocks. -/
theorem sum_map_modify {f : Block → Block} {m : Block → Nat} {n id : Nat} {blocks : List Block}
    {b : Block} (hb : blocks[id]? = some b) (hadds : m (f b) = m b + n) :
    ((blocks.modify id f).map m).sum = (blocks.map m).sum + n := by
  induction blocks generalizing id with
  | nil => cases hb
  | cons c blocks ih =>
      cases id with
      | zero =>
          obtain rfl : c = b := Option.some.inj hb
          rw [List.modify_zero_cons, List.map_cons, List.sum_cons, hadds, List.map_cons,
            List.sum_cons, Nat.add_right_comm]
      | succ id =>
          rw [List.modify_succ_cons, List.map_cons, List.sum_cons, ih hb, List.map_cons,
            List.sum_cons, Nat.add_assoc]

/-- The operands with a version, block by block. -/
theorem operandCount_eq (g : FlowGraph) :
    operandCount g = (g.blocks.map fun b =>
      (b.phis.map fun phi => phi.operands.countP (·.var.isVersioned)).sum).sum := by
  rw [operandCount, allPhis, List.flatMap_assoc, List.countP_flatMap]
  simp only [Function.comp_def, List.countP_flatMap]

/-- **One edge** that is vacant adds the operands that are bound along it. -/
theorem operandCount_filledEdge {pred succ : Nat} (hvacant : Vacant g pred succ) :
    operandCount (filledEdge exits pred g succ) =
      operandCount g + boundOperands exits g pred succ := by
  rw [operandCount_eq, operandCount_eq, boundOperands]
  cases hb : g.block? succ with
  | none =>
      have hlength : g.blocks.length ≤ succ := List.getElem?_eq_none_iff.mp hb
      simp only [filledEdge, FlowGraph.modifyBlock, List.modify_eq_self hlength, phisOf, hb,
        List.countP_nil, Nat.add_zero]
  | some b =>
      rw [phisOf_eq hb]
      exact sum_map_modify hb (sum_map_fillPhi (phisOf_eq hb ▸ hvacant))

/-- The placeholders of a block when one edge has been filled in. -/
theorem phisOf_filledEdge (exits : Exits) (pred : Nat) (g : FlowGraph) (succ id : Nat) :
    phisOf (filledEdge exits pred g succ) id =
      if succ = id then (phisOf g id).map (fillPhi pred (exits pred)) else phisOf g id := by
  rw [phisOf, phisOf, filledEdge, FlowGraph.block?_modifyBlock]
  cases g.block? id with
  | none => simp
  | some b =>
      simp only [Option.map_some]
      by_cases hsucc : succ = id
      · rw [if_pos hsucc, if_pos hsucc]
      · rw [if_neg hsucc, if_neg hsucc]

/-- One edge leaves **every other edge vacant**. -/
theorem Vacant.filledEdge {p s pred succ : Nat} (h : Vacant g p s) (hne : p = pred → s ≠ succ) :
    Vacant (filledEdge exits pred g succ) p s := by
  intro phi hphi op hop
  rw [phisOf_filledEdge] at hphi
  split at hphi
  · rename_i hsucc
    obtain ⟨before, hbefore, rfl⟩ := List.mem_map.mp hphi
    have hpred : some p ≠ some pred := fun heq => hne (Option.some.inj heq) hsucc.symm
    refine h before hbefore op ?_
    rw [← hop]
    exact (find?_setFirst_of_ne hpred before.operands).symm
  · exact h phi hphi op hop

/-! ### All edges -/

/-- **The edges of one block** that are vacant add the operands that are bound along them, and leave
the edges of other blocks vacant. -/
theorem operandCount_foldl_filledEdge (exits : Exits) {pred : Nat} {targets : List Nat}
    (hnodup : targets.Nodup) (hvacant : ∀ t ∈ targets, Vacant g pred t) :
    operandCount (targets.foldl (filledEdge exits pred) g) =
        operandCount g + (targets.map (boundOperands exits g pred)).sum ∧
      ∀ p s, p ≠ pred → Vacant g p s → Vacant (targets.foldl (filledEdge exits pred) g) p s := by
  induction targets generalizing g with
  | nil => exact ⟨rfl, fun _ _ _ h => h⟩
  | cons t targets ih =>
      obtain ⟨hfresh, hnodup⟩ := List.nodup_cons.mp hnodup
      have hbound := boundOperands_foldl_filledEdge exits pred [t] g
      have hlater : ∀ s ∈ targets, Vacant (filledEdge exits pred g t) pred s := fun s hs => by
        refine (hvacant s (List.mem_cons_of_mem _ hs)).filledEdge ?_
        rintro - rfl
        exact hfresh hs
      obtain ⟨hcount, hothers⟩ := ih hnodup hlater
      rw [List.foldl_cons, hcount, operandCount_filledEdge (hvacant t (List.mem_cons_self ..)),
        List.map_cons, List.sum_cons, Nat.add_assoc]
      refine ⟨by rw [show boundOperands exits (filledEdge exits pred g t) = _ from hbound], ?_⟩
      intro p s hne h
      exact hothers p s hne (h.filledEdge fun heq => absurd heq hne)

/-- **Filling in operands** adds those that are bound to the operands with a version, if no edge
comes up twice and all are vacant. -/
theorem operandCount_fillOperands {ids : List Nat} (hnodup : ids.Nodup)
    (hsuccs : ∀ id ∈ ids, (g.succs id).Nodup)
    (hvacant : ∀ id ∈ ids, ∀ t ∈ g.succs id, Vacant g id t) :
    operandCount (ids.foldl (fun g id => (g.succs id).foldl (filledEdge exits id) g) g) =
      operandCount g +
        (ids.map fun id => ((g.succs id).map (boundOperands exits g id)).sum).sum := by
  induction ids generalizing g with
  | nil => rfl
  | cons pred ids ih =>
      obtain ⟨hfresh, hnodup⟩ := List.nodup_cons.mp hnodup
      obtain ⟨hcount, hothers⟩ := operandCount_foldl_filledEdge exits
        (hsuccs pred (List.mem_cons_self ..)) (hvacant pred (List.mem_cons_self ..))
      have hkept := succs_foldl_filledEdge exits pred (g.succs pred) g
      rw [List.foldl_cons, ih hnodup, hkept, boundOperands_foldl_filledEdge, hcount, List.map_cons,
        List.sum_cons, Nat.add_assoc]
      · intro id hid
        rw [hkept]
        exact hsuccs id (List.mem_cons_of_mem _ hid)
      · intro id hid t ht
        rw [hkept] at ht
        have hne : id ≠ pred := by
          rintro rfl
          exact hfresh hid
        exact hothers id t hne (hvacant id (List.mem_cons_of_mem _ hid) t ht)

/-! ### The three counts -/

/-- Renaming keeps placeholders but for the versions of their variables. -/
theorem Walked.map_erase_phisOf {tree : DominatorTree} {ids : List Nat} {g g' : FlowGraph}
    {before exits : Exits} {p r : Progress} (h : Walked tree ids g before p g' exits r) (id : Nat) :
    (phisOf g' id).map Phi.erase = (phisOf g id).map Phi.erase := by
  by_cases hid : id ∈ ids
  · obtain ⟨b, b', hb, hb', herase, -⟩ := h.inside id hid
    rw [phisOf_eq hb, phisOf_eq hb']
    exact congrArg Block.phis herase
  · rw [phisOf, phisOf, (h.outside id hid).1]

/-- The placeholders that are placed have **no version** at any operand. -/
theorem isVersioned_of_mem_placed (hssa : isInSsa g = false) {id : Nat} {phi : Phi}
    (hphi : phi ∈ phisOf (placed g) id) {op : Operand} (hop : op ∈ phi.operands) :
    op.var.isVersioned = false := by
  cases hb : g.block? id with
  | none =>
      rw [phisOf, placed, placePhis, FlowGraph.block?_mapBlocks, hb] at hphi
      cases hphi
  | some b =>
      obtain ⟨x, -, rfl⟩ := (mem_phis_placePhis_iff hb (isInSsa_eq_false hssa hb).1).mp hphi
      obtain ⟨source, -, rfl⟩ := List.mem_map.mp hop
      rfl

/-- **The assignments counted** are those of the result that have a version. -/
theorem definitions_construct (h : construct g counter = .ok result) :
    result.stats.definitions =
      (result.graph.blocks.flatMap Block.defs).countP Var.isVersioned := by
  obtain ⟨hvalid, -⟩ := construct_eq_ok h
  have hagree := FlowGraph.edgesAgree_of_validate hvalid
  have hsame := (reaching_construct h).1
  obtain ⟨exits, hcounts⟩ := counts_construct h
  have hnone : ∀ id, ¬ g.Reachable id →
      (defsOf result.graph id).countP Var.isVersioned = 0 := by
    intro id hid
    refine List.countP_eq_zero.mpr fun v hv hversioned => ?_
    have hversion := version_eq_none_of_not_reachable h hid (List.mem_append_right _ hv)
    simp [Var.isVersioned, hversion] at hversioned
  have hall : ∀ id, g.Reachable id → (defsOf result.graph id).countP Var.isVersioned =
      (defsOf result.graph id).length := by
    intro id hid
    refine List.countP_eq_length.mpr fun v hv => ?_
    obtain ⟨i, hi⟩ := List.getElem?_of_mem (List.mem_append_right _ hv)
    obtain ⟨n, hn, -⟩ := exists_version_at h hid hi
    simp [Var.isVersioned, hn]
  rw [hcounts.definitions_eq, Nat.zero_add, ← flatMap_defsOf, List.countP_flatMap,
    FlowGraph.ids, hsame.size_eq, ← FlowGraph.ids, Function.comp_def, sum_ids hagree hnone,
    List.length_flatMap]
  exact congrArg List.sum (List.map_congr_left fun id hid =>
    (hall id ((mem_preorder_iff hagree).mp hid)).symm)

/-- **The placeholders counted** are those of the result. -/
theorem phis_construct (h : construct g counter = .ok result) :
    result.stats.phis = (allPhis result.graph).length := by
  obtain ⟨hvalid, hssa, -⟩ := construct_eq_ok h
  have hagree := FlowGraph.edgesAgree_of_validate hvalid
  obtain ⟨exits, hbuilt⟩ := rebuilt_construct h
  have hnone : ∀ id, ¬ g.Reachable id → (phisOf result.graph id).length = 0 := by
    intro id hid
    refine List.length_eq_zero_iff.mpr (List.eq_nil_iff_forall_not_mem.mpr fun phi hphi => ?_)
    obtain ⟨-, -, -, hreach, -⟩ := hbuilt.exists_needs hssa hphi
    exact hid hreach
  have hsites : ∀ id, g.Reachable id → (phisOf result.graph id).length =
      ((sites g (compute g)).filter (·.blocks.contains id)).length := by
    intro id hid
    obtain ⟨b, hb⟩ := FlowGraph.exists_block? hid.lt_size
    obtain ⟨b', hb', -, hphis, -⟩ := hbuilt.reachable id b hid hb
    have hlength := congrArg List.length hphis
    rw [List.length_map, List.length_map] at hlength
    rw [phisOf_eq hb', filledBlock, List.length_map, hlength, placed, phisOf, placePhis,
      FlowGraph.block?_mapBlocks, hb]
    simp only [Option.map_some, (isInSsa_eq_false hssa hb).1, List.nil_append, List.length_map]
  rw [(stats_construct h).1, ← flatMap_phisOf, List.length_flatMap, FlowGraph.ids,
    hbuilt.sameOutline.size_eq, ← FlowGraph.ids, sum_ids hagree hnone,
    ← sum_sites (nodup_preorder hagree) fun _ => blocks_of_mem_sites hagree]
  exact congrArg List.sum (List.map_congr_left fun id hid =>
    (hsites id ((mem_preorder_iff hagree).mp hid)).symm)

/-- The uses of the result in reachable blocks that are bound are those with a version. -/
theorem boundUses_construct (h : construct g counter = .ok result) :
    boundUses (result.graph.eventsAlong (compute g).preorder) =
      ((result.graph.ids.filter fun id => result.graph.Reachable id).flatMap
        (usesOf result.graph)).countP Var.isVersioned := by
  obtain ⟨hvalid, -⟩ := construct_eq_ok h
  have hagree := FlowGraph.edgesAgree_of_validate hvalid
  have hsame := (reaching_construct h).1
  have hreach : ∀ id, result.graph.Reachable id ↔ g.Reachable id := fun _ => hsame.reachable_iff
  have hids : result.graph.ids = g.ids := congrArg List.range hsame.size_eq
  simp only [hids, hreach]
  rw [((perm_preorder hagree).flatMap_right _).countP_eq, FlowGraph.eventsAlong, boundUses,
    List.countP_flatMap, List.countP_flatMap]
  exact congrArg List.sum (List.map_congr_left fun id _ => boundUses_eventsOf result.graph id)

/-- Renaming leaves operands **without versions**. -/
theorem isVersioned_of_walked (hssa : isInSsa g = false) {ids : List Nat} {g' : FlowGraph}
    {before : Exits} {p r : Progress}
    (hwalked : Walked (compute g) ids (placed g) before p g' exits r) {id : Nat} {phi : Phi}
    (hphi : phi ∈ phisOf g' id) {op : Operand} (hop : op ∈ phi.operands) :
    op.var.isVersioned = false := by
  have hmem : phi.erase ∈ (phisOf (placed g) id).map Phi.erase := by
    rw [← hwalked.map_erase_phisOf id]
    exact List.mem_map.mpr ⟨phi, hphi, rfl⟩
  obtain ⟨first, hfirst, herase⟩ := List.mem_map.mp hmem
  have heq : first.erase.operands = phi.erase.operands := congrArg Phi.operands herase
  exact isVersioned_of_mem_placed hssa hfirst (heq ▸ hop)

/-- **The uses counted** are those with a version in reachable blocks of the result, and its
operands with a version, if no block lists a successor twice. -/
theorem renamedUses_construct (hsuccs : ∀ id, (g.succs id).Nodup)
    (h : construct g counter = .ok result) :
    result.stats.renamedUses =
      ((result.graph.ids.filter fun id => result.graph.Reachable id).flatMap
        (usesOf result.graph)).countP Var.isVersioned + operandCount result.graph := by
  obtain ⟨hvalid, hssa, -⟩ := construct_eq_ok h
  obtain ⟨g', exits, q, hwalked, hfill⟩ := walked_construct h
  obtain ⟨hgraph, -, hoperands⟩ := run_fillOperands hfill
  have hzero : operandCount g' = 0 := by
    refine List.countP_eq_zero.mpr fun op hop => ?_
    obtain ⟨phi, hphi, hop⟩ := List.mem_flatMap.mp hop
    obtain ⟨id, hphi⟩ := mem_allPhis.mp hphi
    exact Bool.eq_false_iff.mp (isVersioned_of_walked hssa hwalked hphi hop)
  have hfound : operandCount result.graph = ((compute g).preorder.map fun id =>
      ((g'.succs id).map (boundOperands exits g' id)).sum).sum := by
    rw [hgraph, operandCount_fillOperands
      (nodup_preorder (FlowGraph.edgesAgree_of_validate hvalid)), hzero, Nat.zero_add]
    · intro id _
      rw [hwalked.succs_eq, succs_placed]
      exact hsuccs id
    · intro id _ t _ phi hphi op hop
      exact isVersioned_of_walked hssa hwalked hphi (List.mem_of_find?_eq_some hop)
  have hevents : g'.eventsOf = result.graph.eventsOf := by rw [hgraph, eventsOf_fillOperands]
  rw [hfound, ← boundUses_construct h, FlowGraph.eventsAlong, ← hevents,
    (hwalked.counts.append hoperands).uses_eq]
  exact Nat.zero_add _

end Ssa

end FlowForm
