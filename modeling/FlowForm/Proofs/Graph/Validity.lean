import FlowForm.Proofs.Graph.Build

/-!
# What Validation Accepts

Validation goes through the registered addresses and then through the notes of every block, and
reports the first thing that is wrong. It looks at addresses from one side only, whether the block
registered at an address stands there, and at edges from each end for itself. What it finds nothing
wrong with is all the same consistent from every side (`consistent_of_validate`): each block
is registered with its own id and no address is registered twice, so that blocks and registered
addresses are in one-to-one correspondence.

## Main results

* `consistent_of_validate` and `Consistent.validate`: valid graphs are the consistent ones.
* `forall_blockAt?_iff`: blocks are found by their addresses if and only if these are registered.
* `validate_accepts_wellFormed`: all that validity means.
-/

namespace FlowForm.FlowGraph

variable {g : FlowGraph}

/-- A graph is **consistent** if every block stands at its registered address, every edge is noted
at both of its ends, and the successor reached without a jump is one of the successors. -/
structure Consistent (g : FlowGraph) : Prop where
  keys_eq : g.keys = g.blocks.map (·.address)
  succ_known : ∀ id, ∀ s ∈ g.succs id, s < g.size ∧ id ∈ g.preds s
  pred_known : ∀ id, ∀ p ∈ g.preds id, p < g.size ∧ id ∈ g.succs p
  fall_mem : ∀ id b f, g.block? id = some b → b.fall = some f → f ∈ b.succs

/-- Nothing is wrong with the registration if and only if every block stands at its registered
address. -/
theorem keyDefects_eq_nil_iff : g.keyDefects = [] ↔ g.keys = g.blocks.map (·.address) := by
  rw [keyDefects, List.filterMap_eq_nil_iff]
  constructor
  · intro h
    refine List.ext_getElem (by rw [List.length_map, g.length_keys]) fun id hkey hblock => ?_
    rw [List.length_map] at hblock
    have hmem : ((g.keys[id], g.blocks[id]), id) ∈ (g.keys.zip g.blocks).zipIdx :=
      List.mem_zipIdx_iff_getElem?.mpr (List.getElem?_zip_eq_some.mpr
        ⟨List.getElem?_eq_getElem hkey, List.getElem?_eq_getElem hblock⟩)
    have hnone : (if g.blocks[id].address = g.keys[id] then none
        else some (Defect.strayKey g.keys[id] id)) = none := h _ hmem
    rw [List.getElem_map]
    by_contra hne
    rw [if_neg fun heq => hne heq.symm] at hnone
    cases hnone
  · rintro hkeys ⟨⟨key, b⟩, id⟩ hmem
    obtain ⟨hkey, hb⟩ := List.getElem?_zip_eq_some.mp (List.mem_zipIdx_iff_getElem?.mp hmem)
    rw [hkeys, List.getElem?_map, hb] at hkey
    exact if_pos (Option.some.inj hkey)

/-- In a valid graph the successor reached without a jump is a successor. -/
theorem fall_mem_of_validate (h : g.validate = .ok ()) {id fall : Nat} {b : Block}
    (hb : g.block? id = some b) (hfall : b.fall = some fall) : fall ∈ b.succs := by
  have hdefects := blockDefects_of_validate h hb
  simp only [blockDefects, List.append_eq_nil_iff, fallDefect?, hfall] at hdefects
  by_contra hmem
  simp [hmem] at hdefects

/-- A valid graph is **consistent**. -/
theorem consistent_of_validate (h : g.validate = .ok ()) : Consistent g where
  keys_eq := by
    have hnil := validate_eq_ok_iff.mp h
    rw [defects, List.append_eq_nil_iff] at hnil
    exact keyDefects_eq_nil_iff.mp hnil.1
  succ_known := fun _ _ hs => mem_preds_of_validate h hs
  pred_known := fun _ _ hp => mem_succs_of_validate h hp
  fall_mem := fun _ _ _ hb hfall => fall_mem_of_validate h hb hfall

/-- A consistent graph is **valid**. -/
theorem Consistent.validate (h : Consistent g) : g.validate = .ok () := by
  rw [validate_eq_ok_iff, defects, keyDefects_eq_nil_iff.mpr h.keys_eq, List.nil_append,
    List.flatMap_eq_nil_iff]
  rintro ⟨b, id⟩ hmem
  have hb : g.block? id = some b := List.mem_zipIdx_iff_getElem?.mp hmem
  have hsuccs := succs_of_block? hb
  have hpreds := preds_of_block? hb
  simp only [blockDefects, List.append_eq_nil_iff, List.filterMap_eq_nil_iff]
  refine ⟨⟨fun s hs => ?_, fun p hp => ?_⟩, ?_⟩
  · obtain ⟨hlt, hmem⟩ := h.succ_known id s (hsuccs ▸ hs)
    obtain ⟨c, hc⟩ := exists_block? hlt
    rw [preds_of_block? hc] at hmem
    rw [succDefect?, hc]
    exact if_pos hmem
  · obtain ⟨hlt, hmem⟩ := h.pred_known id p (hpreds ▸ hp)
    obtain ⟨c, hc⟩ := exists_block? hlt
    rw [succs_of_block? hc] at hmem
    rw [predDefect?, hc]
    exact if_pos hmem
  · cases hfall : b.fall with
    | none => simp [fallDefect?, hfall]
    | some f => simp [fallDefect?, hfall, h.fall_mem id b f hb hfall]

/-- **Blocks are found by their addresses** if and only if these are the registered ones. -/
theorem forall_blockAt?_iff :
    (∀ id b, g.block? id = some b → g.blockAt? b.address = some id) ↔
      g.keys = g.blocks.map (·.address) := by
  constructor
  · intro h
    refine List.ext_getElem (by rw [List.length_map, g.length_keys]) fun id hkey hblock => ?_
    rw [List.length_map] at hblock
    have hget := blockAt?_eq_some_iff.mp (h id _ (List.getElem?_eq_getElem hblock))
    rw [List.getElem_map]
    exact (List.getElem?_eq_some_iff.mp hget).2
  · exact fun hkeys id b hb => blockAt?_address hkeys hb

/-- A graph is consistent if and only if blocks are found by their addresses, edges lead from blocks
to blocks, the notes at both ends of them agree, and the successor reached without a jump is one of
the successors. -/
theorem consistent_iff : Consistent g ↔
    (∀ id b, g.block? id = some b → g.blockAt? b.address = some id) ∧
    (∀ id, ∀ other ∈ g.succs id ++ g.preds id, other < g.size) ∧
    g.EdgesAgree ∧
    ∀ id b fall, g.block? id = some b → b.fall = some fall → fall ∈ b.succs := by
  rw [forall_blockAt?_iff]
  constructor
  · intro h
    refine ⟨h.keys_eq, fun id other hother => ?_, fun u _ v _ => ?_, h.fall_mem⟩
    · rcases List.mem_append.mp hother with hmem | hmem
      · exact (h.succ_known id other hmem).1
      · exact (h.pred_known id other hmem).1
    · exact ⟨fun hv => (h.succ_known u v hv).2, fun hu => (h.pred_known v u hu).2⟩
  · rintro ⟨hkeys, hknown, hagree, hfall⟩
    refine ⟨hkeys, fun id s hs => ?_, fun id p hp => ?_, hfall⟩
    · have hlt := hknown id s (List.mem_append_left _ hs)
      exact ⟨hlt, (hagree id (lt_size_of_mem_succs hs) s hlt).mp hs⟩
    · have hlt := hknown id p (List.mem_append_right _ hp)
      exact ⟨hlt, (hagree p hlt id (lt_size_of_mem_preds hp)).mpr hp⟩

/-- **Validation accepts exactly the well-formed graphs.** Whatever has become of the blocks of a
graph, it is valid if and only if every block is found by its own address, every id in the notes of
a block is that of a block, a block lists another one as a successor exactly if it is known to that
one as a predecessor, and the successor reached without a jump is one of the successors. Where
blocks are found by their addresses, no two of them have the same address, and what is found at an
address is the block that stands there. -/
theorem validate_accepts_wellFormed (g : FlowGraph) :
    (g.validate = .ok () ↔
      (∀ id b, g.block? id = some b → g.blockAt? b.address = some id) ∧
      (∀ id, ∀ other ∈ g.succs id ++ g.preds id, other < g.size) ∧
      (∀ u < g.size, ∀ v < g.size, (v ∈ g.succs u ↔ u ∈ g.preds v)) ∧
      ∀ id b fall, g.block? id = some b → b.fall = some fall → fall ∈ b.succs) ∧
    ((∀ id b, g.block? id = some b → g.blockAt? b.address = some id) →
      (g.blocks.map (·.address)).Nodup ∧
      ∀ address id, g.blockAt? address = some id →
        ∃ b, g.block? id = some b ∧ b.address = address) := by
  have hvalid : g.validate = .ok () ↔ Consistent g := ⟨consistent_of_validate, Consistent.validate⟩
  refine ⟨hvalid.trans consistent_iff, fun h => ?_⟩
  have hkeys := forall_blockAt?_iff.mp h
  refine ⟨hkeys ▸ g.nodup_keys, fun address id hat => ?_⟩
  rw [blockAt?_eq_some_iff, hkeys, List.getElem?_map] at hat
  exact Option.map_eq_some_iff.mp hat

/-- Two blocks with edges to each other, one of which is listed twice where it leaves. -/
def doubled : FlowGraph where
  blocks := [
    { address := 50, items := [], succs := [1, 1], preds := [1] },
    { address := 51, items := [], succs := [0], preds := [0], fall := some 0 }]
  keys := [50, 51]
  blocks_ne_nil := by decide
  length_keys := by decide
  nodup_keys := by decide

/-- The graph is valid, and would not be if its blocks changed their addresses. -/
theorem validate_accepts_wellFormed_doubled :
    doubled.validate = .ok () ∧ (doubled.blocks.map (·.address)).Nodup ∧
      (doubled.mapBlocks fun _ b => { b with address := 101 - b.address }).validate ≠ .ok () := by
  have hvalid : doubled.validate = .ok () := by decide
  obtain ⟨haccepts, hfound⟩ := validate_accepts_wellFormed doubled
  refine ⟨hvalid, (hfound (haccepts.mp hvalid).1).1, ?_⟩
  intro hchanged
  have hat := ((validate_accepts_wellFormed _).1.mp hchanged).1 0 _ rfl
  exact absurd hat (by decide)

end FlowForm.FlowGraph
