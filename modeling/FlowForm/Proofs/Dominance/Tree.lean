import FlowForm.Proofs.Dominance.Rounds

/-!
# Queries of the Dominator Tree

The queries of a computed dominator tree, measured against dominance by paths. The parents that
the rounds end with are exact (`FlowForm.Proofs.Dominance.Rounds`), and the tree is read off them
by cutting the link of the entry to itself. Walking up from a block passes exactly its dominators,
and walks are shorter than the number of blocks because a parent always stands earlier.

## Main results

* `mem_chain_iff`: the walk up from a block passes its dominators.
* `isReachable_compute`, `dominates_compute` and `strictlyDominates_compute`: the queries.
* `exists_idom?` and `idom?_eq_some`: immediate dominators.
-/

namespace FlowForm.DominatorTree

open Dominance

variable {g : FlowGraph}

/-- The tree knows which blocks are reachable. -/
theorem isReachable_compute (g : FlowGraph) (b : Nat) :
    (compute g).isReachable b = true ↔ g.Reachable b := by
  rw [← FlowGraph.mem_reversePostorder_iff_reachable]
  exact List.contains_iff_mem

/-- The immediate dominators are the parents that the rounds end with, except at the entry. -/
theorem idom?_compute (hagree : g.EdgesAgree) (b : Nat) :
    (compute g).idom? b = if b = g.entry then none else parentOf (settled g) b := by
  have hlen : g.entry < (settled g).length :=
    (settles_settled hagree).2.forest.length_eq ▸ g.entry_lt_size
  exact parentOf_set (settled g) g.entry none b hlen

/-- The tree has a place for every block. -/
theorem size_compute (hagree : g.EdgesAgree) : (compute g).size = g.size := by
  have hlen := (settles_settled hagree).2.forest.length_eq
  exact (List.length_set ..).trans hlen

/-- Reachable blocks other than the entry have an immediate dominator, which stands earlier. -/
theorem exists_idom? (hagree : g.EdgesAgree) {b : Nat} (hb : g.Reachable b)
    (hne : b ≠ g.entry) :
    ∃ d, (compute g).idom? b = some d ∧ g.IsImmediateDominator d b ∧
      g.position d < g.position b := by
  obtain ⟨-, hexact⟩ := settles_settled hagree
  obtain ⟨d, hd⟩ := Option.isSome_iff_exists.mp (hexact.placed b hb)
  refine ⟨d, ?_, hexact.isImmediateDominator hne hd, (hexact.forest.descends b d hne hd).1⟩
  rw [idom?_compute hagree, if_neg hne, hd]

/-- Only reachable blocks other than the entry have an immediate dominator. -/
theorem idom?_eq_some (hagree : g.EdgesAgree) {b d : Nat}
    (h : (compute g).idom? b = some d) :
    g.Reachable b ∧ b ≠ g.entry ∧ g.IsImmediateDominator d b ∧
      g.position d < g.position b := by
  obtain ⟨-, hexact⟩ := settles_settled hagree
  rw [idom?_compute hagree] at h
  split at h
  · simp at h
  · rename_i hne
    exact ⟨hexact.forest.reachable b (by simp [h]), hne, hexact.isImmediateDominator hne h,
      (hexact.forest.descends b d hne h).1⟩

/-- Two blocks that dominate each other are the same. -/
theorem dominates_antisymm (hagree : g.EdgesAgree) {a b : Nat} (hab : g.Dominates a b)
    (hba : g.Dominates b a) : a = b := by
  obtain ⟨-, hexact⟩ := settles_settled hagree
  exact hexact.forest.above_antisymm ((hexact.above_iff a b hab.2.1).mpr hab)
    ((hexact.above_iff b a hba.2.1).mpr hba) (hexact.placed a hab.1)

/-- A block dominates another if it is that block or dominates its immediate dominator. -/
theorem dominates_iff_of_idom? (hagree : g.EdgesAgree) {a b d : Nat}
    (h : (compute g).idom? b = some d) :
    g.Dominates a b ↔ a = b ∨ g.Dominates a d := by
  obtain ⟨hb, -, himm, -⟩ := idom?_eq_some hagree h
  constructor
  · intro ha
    by_cases hab : a = b
    · exact .inl hab
    by_cases had : a = d
    · exact .inr (had ▸ himm.1.1.1.dominates_self)
    · exact .inr (himm.2 a ⟨ha, hab⟩ had)
  · rintro (rfl | ha)
    · exact hb.dominates_self
    · exact ha.trans himm.1.1

/-- The strict dominators of a block are the dominators of its immediate dominator. -/
theorem strictlyDominates_iff_of_idom? (hagree : g.EdgesAgree) {a b d : Nat}
    (h : (compute g).idom? b = some d) : g.StrictlyDominates a b ↔ g.Dominates a d := by
  obtain ⟨-, -, himm, -⟩ := idom?_eq_some hagree h
  rw [FlowGraph.StrictlyDominates, dominates_iff_of_idom? hagree h]
  constructor
  · rintro ⟨hab | had, hne⟩
    · exact absurd hab hne
    · exact had
  · intro had
    refine ⟨.inr had, ?_⟩
    rintro rfl
    exact himm.1.2 (dominates_antisymm hagree himm.1.1 had)

/-- **The walk up from a block passes exactly its dominators**, if it may be long enough. -/
theorem mem_chain_iff (hagree : g.EdgesAgree) {bound a b : Nat} (hb : g.Reachable b)
    (hbound : g.position b < bound) :
    a ∈ (compute g).chain bound b ↔ g.Dominates a b := by
  induction bound generalizing b with
  | zero => exact absurd hbound (Nat.not_lt_zero _)
  | succ bound ih =>
      rw [chain, List.mem_cons]
      by_cases hne : b = g.entry
      · have hroot : (compute g).idom? b = none := by
          rw [idom?_compute hagree, if_pos hne]
        simp only [hroot, List.not_mem_nil, or_false]
        constructor
        · rintro rfl
          exact hb.dominates_self
        · intro ha
          exact (hne ▸ ha).eq_entry.trans hne.symm
      · obtain ⟨d, hd, himm, hlt⟩ := exists_idom? hagree hb hne
        simp only [hd]
        rw [ih himm.1.1.1 (by omega), dominates_iff_of_idom? hagree hd]

/-- The dominance query decides dominance by paths. -/
theorem dominates_compute (hagree : g.EdgesAgree) (a b : Nat) :
    (compute g).dominates a b = true ↔ g.Dominates a b := by
  rw [dominates, Bool.and_eq_true, Bool.and_eq_true, isReachable_compute, isReachable_compute,
    List.contains_iff_mem]
  constructor
  · rintro ⟨⟨-, hb⟩, ha⟩
    rw [size_compute hagree] at ha
    exact (mem_chain_iff hagree hb (FlowGraph.position_lt_size hb)).mp ha
  · intro h
    refine ⟨⟨h.1, h.2.1⟩, ?_⟩
    rw [size_compute hagree]
    exact (mem_chain_iff hagree h.2.1 (FlowGraph.position_lt_size h.2.1)).mpr h

/-- The query for strict dominance decides strict dominance by paths. -/
theorem strictlyDominates_compute (hagree : g.EdgesAgree) (a b : Nat) :
    (compute g).strictlyDominates a b = true ↔ g.StrictlyDominates a b := by
  rw [strictlyDominates, Bool.and_eq_true, dominates_compute hagree, bne_iff_ne]
  exact and_comm

end FlowForm.DominatorTree
