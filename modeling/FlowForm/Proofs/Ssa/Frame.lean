import Mathlib
import FlowForm.Proofs.Ssa.Construction
import FlowForm.Ssa.Pruning

/-!
# What Construction Leaves Alone

Construction adds placeholders, and sets the versions in reachable blocks. Everything else stays:
without placeholders and without those versions, the graph before and the graph after are the same
(`construct_changes_versions_only`). A valid graph stays valid, for the defects of a graph are those
of its outline (`FlowGraph.defects_outlined`).

## Main results

* `FlowGraph.SameOutline.validate_eq`: validity is a matter of the outline.
* `construct_changes_versions_only`: all that construction keeps.
-/

namespace FlowForm

namespace FlowGraph

variable {g g' : FlowGraph}

/-! ### Graphs with parts left out -/

/-- The graph without placeholders. -/
def withoutPhis (g : FlowGraph) : FlowGraph :=
  g.mapBlocks fun _ b => { b with phis := [] }

/-- The graph without the versions in its reachable blocks. -/
def eraseReachable (g : FlowGraph) : FlowGraph :=
  g.mapBlocks fun id b => if g.Reachable id then b.erase else b

/-- The blocks of a graph without the versions in its reachable blocks. -/
theorem block?_eraseReachable (g : FlowGraph) (id : Nat) : g.eraseReachable.block? id =
    if g.Reachable id then (g.block? id).map Block.erase else g.block? id := by
  rw [eraseReachable, block?_mapBlocks]
  split
  · rfl
  · exact Option.map_id'

/-- The graph of which nothing but outlines is left. -/
def outlined (g : FlowGraph) : FlowGraph :=
  g.mapBlocks fun _ b => b.outline

/-- Dropping placeholders keeps the outline of a graph. -/
theorem sameOutline_withoutPhis (g : FlowGraph) : g.SameOutline g.withoutPhis := by
  refine ⟨rfl, fun id => ?_⟩
  rw [withoutPhis, block?_mapBlocks, Option.map_map]
  rfl

/-- Pruning keeps the outline of a graph. -/
theorem sameOutline_prune (g : FlowGraph) : g.SameOutline (Ssa.prune g).1 := by
  refine ⟨rfl, fun id => ?_⟩
  rw [Ssa.prune, block?_mapBlocks, Option.map_map]
  rfl

/-- Graphs with the same outline and the same blocks out of reach are **the same graph** once
placeholders and the versions within reach are left out. -/
theorem SameOutline.eraseReachable_withoutPhis (h : g.SameOutline g')
    (hunresolved : g'.unresolved = g.unresolved)
    (hunreachable : ∀ id, ¬ g.Reachable id → g'.block? id = g.block? id) :
    g'.withoutPhis.eraseReachable = g.withoutPhis.eraseReachable := by
  have hreach : ∀ {g₀ : FlowGraph} {id : Nat}, g₀.withoutPhis.Reachable id ↔ g₀.Reachable id :=
    fun {g₀ _} => g₀.sameOutline_withoutPhis.reachable_iff
  have hdropped : ∀ (g₀ : FlowGraph) (id : Nat), g₀.withoutPhis.block? id =
      (g₀.block? id).map fun b => { b with phis := [] } := fun g₀ id => g₀.block?_mapBlocks _ id
  refine eq_of_block? h.keys_eq hunresolved fun id => ?_
  simp only [block?_eraseReachable, hreach, h.reachable_iff, hdropped]
  by_cases hid : g.Reachable id
  · rw [if_pos hid, if_pos hid, Option.map_map, Option.map_map]
    exact h.outline_eq id
  · rw [if_neg hid, if_neg hid, hunreachable id hid]

/-! ### Validity -/

/-- The defects of a block are those of its outline. -/
theorem blockDefects_outlined (g : FlowGraph) (id : Nat) (b : Block) :
    g.outlined.blockDefects id b.outline = g.blockDefects id b := by
  have hsucc : g.outlined.succDefect? id = g.succDefect? id := funext fun s => by
    rw [succDefect?, succDefect?, outlined, block?_mapBlocks]
    cases g.block? s with
    | none => rfl
    | some target => rfl
  have hpred : g.outlined.predDefect? id = g.predDefect? id := funext fun p => by
    rw [predDefect?, predDefect?, outlined, block?_mapBlocks]
    cases g.block? p with
    | none => rfl
    | some source => rfl
  rw [blockDefects, blockDefects, hsucc, hpred]
  rfl

/-- **The defects of a graph are those of its outline.** -/
theorem defects_outlined (g : FlowGraph) : g.outlined.defects = g.defects := by
  have hblocks : g.outlined.blocks = g.blocks.map Block.outline := by
    refine List.ext_getElem? fun id => ?_
    rw [List.getElem?_map]
    exact g.block?_mapBlocks (fun _ b => b.outline) id
  have hkeys : g.outlined.keyDefects = g.keyDefects := by
    rw [keyDefects, keyDefects, hblocks, List.zip_map_right, List.zipIdx_map, List.filterMap_map]
    rfl
  rw [defects, defects, hkeys, hblocks, List.zipIdx_map, List.flatMap_map]
  congr 1
  refine List.flatMap_congr ?_
  rintro ⟨b, id⟩ -
  exact g.blockDefects_outlined id b

/-- Jumps without an edge have no say in what is wrong with a graph. -/
theorem defects_eq_of_block? (hkeys : g'.keys = g.keys)
    (hblock : ∀ id, g'.block? id = g.block? id) : g'.defects = g.defects := by
  have heq : { g' with unresolved := g.unresolved } = g := eq_of_block? hkeys rfl hblock
  calc g'.defects = ({ g' with unresolved := g.unresolved } : FlowGraph).defects := rfl
    _ = g.defects := by rw [heq]

/-- **Validity is a matter of the outline.** -/
theorem SameOutline.validate_eq (h : g.SameOutline g') : g'.validate = g.validate := by
  have hdefects : g'.outlined.defects = g.outlined.defects := by
    refine defects_eq_of_block? h.keys_eq fun id => ?_
    rw [outlined, outlined, block?_mapBlocks, block?_mapBlocks]
    exact h.outline_eq id
  rw [defects_outlined, defects_outlined] at hdefects
  rw [validate, validate, hdefects]

end FlowGraph

namespace Ssa

variable {g : FlowGraph} {counter : Counter} {result : Result}

/-- A graph that is not in single-assignment form has no placeholders to drop. -/
theorem withoutPhis_eq (hssa : isInSsa g = false) : g.withoutPhis = g := by
  refine FlowGraph.eq_of_block? rfl rfl fun id => ?_
  rw [FlowGraph.withoutPhis, FlowGraph.block?_mapBlocks]
  cases hb : g.block? id with
  | none => rfl
  | some b => rw [Option.map_some, ← (isInSsa_eq_false hssa hb).1]

/-- **Construction changes nothing but placeholders and versions.** Without them the result is the
graph that it was made of, blocks that are not reachable are the same as before, and the result is
valid. -/
theorem construct_changes_versions_only (h : construct g counter = .ok result) :
    result.graph.withoutPhis.eraseReachable = g.eraseReachable ∧
    (∀ id, ¬ g.Reachable id →
      result.graph.block? id = g.block? id ∧ phisOf result.graph id = []) ∧
    result.graph.validate = .ok () := by
  obtain ⟨hvalid, hssa, -⟩ := construct_eq_ok h
  obtain ⟨exits, hbuilt⟩ := rebuilt_construct h
  refine ⟨?_, fun id hid => ?_, hbuilt.sameOutline.validate_eq.trans hvalid⟩
  · rw [hbuilt.sameOutline.eraseReachable_withoutPhis hbuilt.unresolved_eq hbuilt.unreachable,
      withoutPhis_eq hssa]
  · have hblock := hbuilt.unreachable id hid
    refine ⟨hblock, ?_⟩
    rw [phisOf, hblock]
    cases hb : g.block? id with
    | none => rfl
    | some b => exact (isInSsa_eq_false hssa hb).1

/-- A loop with a jump out of the graph behind it, and a block that nothing leads to and that reads
a version of some earlier run. -/
def leftover : FlowGraph where
  blocks := [
    { address := 4, items := [{ address := 4, statements := [⟨⟨"n", none⟩, .imm 3⟩] }],
      succs := [1], fall := some 1 },
    { address := 5,
      items := [{ address := 5,
                  statements := [⟨⟨"n", none⟩, .binary .sub (.var ⟨"n", none⟩) (.imm 1)⟩],
                  terminator := .branch (.var ⟨"n", none⟩) 5 }],
      preds := [0, 1], succs := [1, 2], fall := some 2 },
    { address := 6, items := [{ address := 6, terminator := .jump 9 }], preds := [1, 3] },
    { address := 7,
      items := [{ address := 7, statements := [⟨⟨"k", none⟩, .var ⟨"n", some 9⟩⟩],
                  terminator := .jump 6 }],
      succs := [2] }]
  keys := [4, 5, 6, 7]
  unresolved := [(6, 9)]
  blocks_ne_nil := by decide
  length_keys := by decide
  nodup_keys := by decide

/-- The head of the loop gets a placeholder, which is not in the way of the equation, and the
version that is left over stays where it is. -/
theorem construct_changes_versions_only_leftover :
    ∃ result, construct leftover .fresh = .ok result ∧ phisOf result.graph 1 ≠ [] ∧
      result.graph.withoutPhis.eraseReachable = leftover.eraseReachable ∧
      (∃ b, result.graph.block? 3 = some b ∧ b.uses = [⟨"n", some 9⟩]) ∧
      result.graph.validate = .ok () := by
  have heval : (construct leftover .fresh).map (fun result => (phisOf result.graph 1).length) =
      .ok 1 := by decide_cbv
  have hunreachable : ¬ leftover.Reachable 3 := by decide_cbv
  obtain ⟨result, hresult, hone⟩ := exists_of_map_construct heval
  obtain ⟨herased, hkept, hvalid⟩ := construct_changes_versions_only hresult
  exact ⟨result, hresult, List.ne_nil_of_length_eq_add_one hone, herased,
    ⟨_, (hkept 3 hunreachable).1, by decide⟩, hvalid⟩

end Ssa

end FlowForm
