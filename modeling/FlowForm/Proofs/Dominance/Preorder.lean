import FlowForm.Proofs.Dominance.Tree

/-!
# The Tree in Preorder

Walking the dominator tree from the entry passes every reachable block once, and each of them
behind all that dominate it. The walk keeps no record of where it has been; what keeps it from
going round or passing a block twice is the shape of dominance itself. Children stand later than
their parent, so the height given to the walk is never used up (`mem_subtree_iff`), and two
dominators of one block dominate each other in one direction, so subtrees of different children
have nothing in common (`nodup_subtree`) and nothing in one dominates anything in another
(`pairwise_subtree`).

The children of all blocks are collected in one loop over the reverse postorder, and what has come
together for a block is sorted in the end. The lists have nothing to do with each other, so each can
be read as if it had been collected alone (`getElem?_foldl_noteChild`).

## Main results

* `mem_children_iff` and `pairwise_children`: the children of a block, in ascending order.
* `mem_preorder_iff`: the preorder lists the reachable blocks.
* `nodup_preorder`: it lists none of them twice.
* `pairwise_strictlyDominates`: no block stands before a dominator of it.
-/

namespace FlowForm.DominatorTree

open Dominance Search

variable {g : FlowGraph}

/-! ### Children -/

/-- **The lists of children grow together**: each by the blocks with that parent, as they come
up. -/
theorem getElem?_foldl_noteChild (parents : Parents) (ids : List Nat) (table : List (List Nat))
    (b : Nat) :
    (ids.foldl (noteChild parents) table)[b]? =
      table[b]?.map (· ++ ids.filter fun c => parentOf parents c = some b) := by
  induction ids generalizing table with
  | nil => simp
  | cons c ids ih =>
      rw [List.foldl_cons, ih, noteChild]
      cases hc : parentOf parents c with
      | none => simp [hc]
      | some parent =>
          by_cases hb : parent = b
          · simp [hc, hb, Function.comp_def]
          · simp [hc, hb]

/-- What the table lists for a block: the blocks with that parent, put in order. -/
theorem getD_offspring (g : FlowGraph) (order : List Nat) (parents : Parents) {b : Nat}
    (hb : b < g.size) :
    (Dominance.offspring g order parents).getD b [] =
      (order.tail.filter fun c => parentOf parents c = some b).mergeSort fun c d => c ≤ d := by
  simp [Dominance.offspring, getElem?_foldl_noteChild, hb]

/-- The children of a block are read from the table. -/
theorem children_compute (g : FlowGraph) {b : Nat} (hb : b < g.size) :
    (compute g).children b =
      (g.reversePostorder.tail.filter fun c => (compute g).idom? c = some b).mergeSort
        fun c d => c ≤ d :=
  getD_offspring g _ _ hb

/-- Nothing is a child of what is not a block. -/
theorem children_compute_eq_nil (g : FlowGraph) {b : Nat} (hb : g.size ≤ b) :
    (compute g).children b = [] := by
  simp [children, compute, Dominance.offspring, getElem?_foldl_noteChild, hb]

/-- The children of a block are those that it immediately dominates. -/
theorem mem_children_iff (hagree : g.EdgesAgree) {b c : Nat} :
    c ∈ (compute g).children b ↔ (compute g).idom? c = some b := by
  have hknown : (compute g).idom? c = some b → b < g.size ∧ c ∈ g.reversePostorder.tail := by
    intro hc
    obtain ⟨hreach, hne, himm, -⟩ := idom?_eq_some hagree hc
    have hmem := FlowGraph.mem_reversePostorder_iff_reachable.mpr hreach
    rw [g.reversePostorder_eq_entry_cons] at hmem ⊢
    exact ⟨himm.1.1.1.lt_size, (List.mem_cons.mp hmem).resolve_left hne⟩
  by_cases hb : b < g.size
  · rw [children_compute g hb, (List.mergeSort_perm ..).mem_iff, List.mem_filter,
      decide_eq_true_eq]
    exact ⟨fun h => h.2, fun h => ⟨(hknown h).2, h⟩⟩
  · rw [children_compute_eq_nil g (Nat.le_of_not_lt hb)]
    exact ⟨fun h => absurd h List.not_mem_nil, fun h => absurd (hknown h).1 hb⟩

/-- No block is listed twice among the children of a block. -/
theorem nodup_children (g : FlowGraph) (b : Nat) : ((compute g).children b).Nodup := by
  by_cases hb : b < g.size
  · rw [children_compute g hb, (List.mergeSort_perm ..).nodup_iff]
    exact (g.nodup_reversePostorder.sublist (List.tail_sublist _)).filter _
  · exact children_compute_eq_nil g (Nat.le_of_not_lt hb) ▸ List.nodup_nil

/-- **Children stand in ascending order**, whatever the order in which they have come up. -/
theorem pairwise_children (g : FlowGraph) (b : Nat) :
    ((compute g).children b).Pairwise (· < ·) := by
  have hsorted : ((compute g).children b).Pairwise (· ≤ ·) := by
    by_cases hb : b < g.size
    · have hpairwise := @List.pairwise_mergeSort _ (fun c d : Nat => c ≤ d)
        (fun c d e => by simpa using Nat.le_trans) (fun c d => by simpa using Nat.le_total ..)
      simpa [children_compute g hb] using hpairwise _
    · exact children_compute_eq_nil g (Nat.le_of_not_lt hb) ▸ List.Pairwise.nil
  exact hsorted.imp₂ (fun _ _ hle hne => Nat.lt_of_le_of_ne hle hne) (nodup_children g b)

/-! ### Subtrees -/

/-- **Dominators of one block are comparable.** -/
theorem dominates_total (hagree : g.EdgesAgree) {a b c : Nat} (ha : g.Dominates a c)
    (hb : g.Dominates b c) : g.Dominates a b ∨ g.Dominates b a := by
  generalize hn : g.position c = n
  induction n using Nat.strong_induction_on generalizing c with
  | _ n ih =>
      by_cases hac : a = c
      · exact .inr (hac ▸ hb)
      by_cases hbc : b = c
      · exact .inl (hbc ▸ ha)
      by_cases hne : c = g.entry
      · exact absurd ((hne ▸ ha).eq_entry.trans hne.symm) hac
      obtain ⟨d, hd, -, hlt⟩ := exists_idom? hagree ha.2.1 hne
      exact ih _ (hn ▸ hlt) ((strictlyDominates_iff_of_idom? hagree hd).mp ⟨ha, hac⟩)
        ((strictlyDominates_iff_of_idom? hagree hd).mp ⟨hb, hbc⟩) rfl

/-- A strict dominator has a child on the way to the block. -/
theorem exists_child (hagree : g.EdgesAgree) {b c : Nat} (h : g.StrictlyDominates b c) :
    ∃ d, (compute g).idom? d = some b ∧ g.Dominates d c := by
  generalize hn : g.position c = n
  induction n using Nat.strong_induction_on generalizing c with
  | _ n ih =>
      have hne : c ≠ g.entry := by
        rintro rfl
        exact h.2 h.1.eq_entry
      obtain ⟨e, he, himm, hlt⟩ := exists_idom? hagree h.1.2.1 hne
      have hbe := (strictlyDominates_iff_of_idom? hagree he).mp h
      by_cases hbe' : b = e
      · exact ⟨c, hbe' ▸ he, h.1.2.1.dominates_self⟩
      · obtain ⟨d, hd, hde⟩ := ih _ (hn ▸ hlt) ⟨hbe, hbe'⟩ rfl
        exact ⟨d, hd, hde.trans himm.1.1⟩

/-- **The subtree at a block holds what the block dominates**, if it may be high enough. -/
theorem mem_subtree_iff (hagree : g.EdgesAgree) {height b c : Nat} (hb : g.Reachable b)
    (hheight : g.size ≤ g.position b + height) :
    c ∈ (compute g).subtree height b ↔ g.Dominates b c := by
  induction height generalizing b with
  | zero =>
      have := FlowGraph.position_lt_size hb
      omega
  | succ height ih =>
      rw [subtree, List.mem_cons, List.mem_flatMap]
      have hchild : ∀ d ∈ (compute g).children b,
          (c ∈ (compute g).subtree height d ↔ g.Dominates d c) := by
        intro d hd
        obtain ⟨hreach, -, -, hlt⟩ := idom?_eq_some hagree ((mem_children_iff hagree).mp hd)
        exact ih hreach (by omega)
      constructor
      · rintro (rfl | ⟨d, hd, hc⟩)
        · exact hb.dominates_self
        · obtain ⟨-, -, himm, -⟩ := idom?_eq_some hagree ((mem_children_iff hagree).mp hd)
          exact himm.1.1.trans ((hchild d hd).mp hc)
      · intro hbc
        by_cases heq : c = b
        · exact .inl heq
        · obtain ⟨d, hd, hdc⟩ := exists_child hagree ⟨hbc, Ne.symm heq⟩
          have hd := (mem_children_iff hagree).mpr hd
          exact .inr ⟨d, hd, (hchild d hd).mpr hdc⟩

/-- **Subtrees of different children have nothing in common.** -/
theorem not_dominates_both (hagree : g.EdgesAgree) {b c d e : Nat}
    (hd : (compute g).idom? d = some b) (he : (compute g).idom? e = some b) (hne : d ≠ e)
    (hdc : g.Dominates d c) (hec : g.Dominates e c) : False := by
  obtain ⟨-, -, himmd, -⟩ := idom?_eq_some hagree hd
  obtain ⟨-, -, himme, -⟩ := idom?_eq_some hagree he
  rcases dominates_total hagree hdc hec with hde | hed
  · have hdb := (strictlyDominates_iff_of_idom? hagree he).mp ⟨hde, hne⟩
    exact himmd.1.2 (dominates_antisymm hagree himmd.1.1 hdb)
  · have heb := (strictlyDominates_iff_of_idom? hagree hd).mp ⟨hed, Ne.symm hne⟩
    exact himme.1.2 (dominates_antisymm hagree himme.1.1 heb)

/-- The children of a block are reachable blocks that it strictly dominates, and the height left for
their subtrees is enough. -/
theorem child_spec (hagree : g.EdgesAgree) {height b d : Nat}
    (hheight : g.size ≤ g.position b + (height + 1)) (hd : d ∈ (compute g).children b) :
    g.Reachable d ∧ g.size ≤ g.position d + height ∧ g.StrictlyDominates b d := by
  obtain ⟨hreach, -, himm, hlt⟩ := idom?_eq_some hagree ((mem_children_iff hagree).mp hd)
  exact ⟨hreach, by omega, himm.1⟩

/-- No block is listed twice in a subtree. -/
theorem nodup_subtree (hagree : g.EdgesAgree) {height b : Nat} (hb : g.Reachable b)
    (hheight : g.size ≤ g.position b + height) : ((compute g).subtree height b).Nodup := by
  induction height generalizing b with
  | zero => exact List.nodup_nil
  | succ height ih =>
      rw [subtree]
      refine List.nodup_cons.mpr ⟨?_, List.nodup_flatMap.mpr ⟨?_, ?_⟩⟩
      · rw [List.mem_flatMap]
        rintro ⟨d, hd, hmem⟩
        obtain ⟨hreach, hle, hdom⟩ := child_spec hagree hheight hd
        have hdb := (mem_subtree_iff hagree hreach hle).mp hmem
        exact hdom.2 (dominates_antisymm hagree hdom.1 hdb)
      · intro d hd
        obtain ⟨hreach, hle, -⟩ := child_spec hagree hheight hd
        exact ih hreach hle
      · refine (nodup_children g b).imp_of_mem fun {d e} hd he hne => ?_
        obtain ⟨hreachd, hled, -⟩ := child_spec hagree hheight hd
        obtain ⟨hreache, hlee, -⟩ := child_spec hagree hheight he
        intro c hcd hce
        exact not_dominates_both hagree ((mem_children_iff hagree).mp hd)
          ((mem_children_iff hagree).mp he) hne ((mem_subtree_iff hagree hreachd hled).mp hcd)
          ((mem_subtree_iff hagree hreache hlee).mp hce)

/-- In a subtree no block stands before one that strictly dominates it. -/
theorem pairwise_subtree (hagree : g.EdgesAgree) {height b : Nat} (hb : g.Reachable b)
    (hheight : g.size ≤ g.position b + height) :
    ((compute g).subtree height b).Pairwise fun a c => ¬ g.StrictlyDominates c a := by
  induction height generalizing b with
  | zero => exact .nil
  | succ height ih =>
      have hbelow := fun c => (mem_subtree_iff (c := c) hagree hb hheight).mp
      rw [subtree] at hbelow ⊢
      refine List.pairwise_cons.mpr ⟨fun c hc hdom => ?_, List.pairwise_flatMap.mpr ⟨?_, ?_⟩⟩
      · have hbc := hbelow c (List.mem_cons_of_mem _ hc)
        exact hdom.2 (dominates_antisymm hagree hdom.1 hbc)
      · intro d hd
        obtain ⟨hreach, hle, -⟩ := child_spec hagree hheight hd
        exact ih hreach hle
      · -- What dominates a block in the subtree of `d` is not in that of another child.
        refine (nodup_children g b).imp_of_mem fun {d e} hd he hne a ha c hc hdom => ?_
        obtain ⟨hreachd, hled, -⟩ := child_spec hagree hheight hd
        obtain ⟨hreache, hlee, -⟩ := child_spec hagree hheight he
        have hec := (mem_subtree_iff hagree hreache hlee).mp hc
        exact not_dominates_both hagree ((mem_children_iff hagree).mp hd)
          ((mem_children_iff hagree).mp he) hne ((mem_subtree_iff hagree hreachd hled).mp ha)
          (hec.trans hdom.1)

/-- **The preorder lists exactly the reachable blocks.** -/
theorem mem_preorder_iff (hagree : g.EdgesAgree) {b : Nat} :
    b ∈ (compute g).preorder ↔ g.Reachable b := by
  rw [preorder, size_compute hagree]
  exact (mem_subtree_iff hagree g.reachable_entry (Nat.le_add_left ..)).trans
    ⟨fun h => h.2.1, fun h => h.entry_dominates⟩

/-- The preorder lists no block twice. -/
theorem nodup_preorder (hagree : g.EdgesAgree) : (compute g).preorder.Nodup := by
  rw [preorder, size_compute hagree]
  exact nodup_subtree hagree g.reachable_entry (Nat.le_add_left ..)

/-- **Dominators come first**: no block stands before one that strictly dominates it. -/
theorem pairwise_strictlyDominates (hagree : g.EdgesAgree) :
    (compute g).preorder.Pairwise fun a b => ¬ g.StrictlyDominates b a := by
  rw [preorder, size_compute hagree]
  exact pairwise_subtree hagree g.reachable_entry (Nat.le_add_left ..)

end FlowForm.DominatorTree
