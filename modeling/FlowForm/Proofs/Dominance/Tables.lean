import Mathlib
import FlowForm.Proofs.Dominance.Preorder

/-!
# The Tables of the Dominator Tree

Children, depths and the preorder are derived from the immediate dominators without any further
look at the graph. This module measures all three against dominance by paths.

Depths are filled in by going once over the blocks, each from the depth of its parent. That is
enough because a parent stands earlier, so its own depth is there by then (`Measured.step`). A
block has one strict dominator more than its parent.

The walk over the tree is driven by a **stack** and keeps no record of where it has been. `Tours`
describes it step by step, without the height that `subtree` carries. It ends, and what it lists is
the preorder (`tours_subtree`). The blocks below a block are then listed in one piece, directly
behind it (`exists_subtree_append`).

## Main results

* `depth_compute`: the depth of a block is the number of its strict dominators.
* `tours_preorder_iff`: the walk with a stack ends with the preorder.
* `tables_describe_tree`: all three tables.
-/

namespace FlowForm.DominatorTree

open Dominance

variable {g : FlowGraph}

/-! ### Depths -/

/-- The **strict dominators** of a block. -/
def strictDominators (g : FlowGraph) (b : Nat) : Set Nat :=
  {a | g.StrictlyDominates a b}

/-- There are finitely many of them. -/
theorem finite_strictDominators (g : FlowGraph) (b : Nat) : (strictDominators g b).Finite :=
  (Set.finite_lt_nat g.size).subset fun _ h => h.1.1.lt_size

/-- **A block has one strict dominator more than its parent**, which is the parent. -/
theorem ncard_strictDominators (hagree : g.EdgesAgree) {b d : Nat}
    (h : (compute g).idom? b = some d) :
    (strictDominators g b).ncard = (strictDominators g d).ncard + 1 := by
  obtain ⟨-, -, himm, -⟩ := idom?_eq_some hagree h
  have hinsert : strictDominators g b = insert d (strictDominators g d) := by
    ext a
    rw [Set.mem_insert_iff]
    refine (strictlyDominates_iff_of_idom? hagree h).trans ⟨fun had => ?_, ?_⟩
    · exact (eq_or_ne a d).imp_right fun hne => ⟨had, hne⟩
    · rintro (rfl | had)
      · exact himm.1.1.1.dominates_self
      · exact had.1
  rw [hinsert, Set.ncard_insert_of_notMem (fun hd => hd.2 rfl) (finite_strictDominators g d)]

/-- Writing down the depth of a block, from that of its parent. -/
def noteDepth (parents : Parents) (depths : List Nat) (id : Nat) : List Nat :=
  match parentOf parents id with
  | some parent => depths.set id (depths.getD parent 0 + 1)
  | none => depths

/-- Depths are noted once for every block but the entry. -/
theorem depths_eq_foldl (g : FlowGraph) (order : List Nat) (parents : Parents) :
    Dominance.depths g order parents =
      order.tail.foldl (noteDepth parents) (List.replicate g.size 0) :=
  rfl

/-- The depths of the given blocks **have been noted**. -/
structure Measured (g : FlowGraph) (before : List Nat) (depths : List Nat) : Prop where
  length_eq : depths.length = g.size
  depth_eq : ∀ b ∈ before, depths.getD b 0 = (strictDominators g b).ncard

/-- **One more depth is noted**, and those before it stay. -/
theorem Measured.step (hagree : g.EdgesAgree) {before after depths : List Nat} {b : Nat}
    (h : Measured g before depths) (horder : g.reversePostorder = before ++ b :: after)
    (hentry : g.entry ∈ before) :
    Measured g (before ++ [b]) (noteDepth (compute g).parents depths b) := by
  have hb : g.Reachable b := FlowGraph.mem_reversePostorder_iff_reachable.mp (by simp [horder])
  have hne : b ≠ g.entry := by
    rintro rfl
    exact absurd ((FlowGraph.mem_before_iff horder).mp hentry) (lt_irrefl _)
  obtain ⟨d, hd, -, hlt⟩ := exists_idom? hagree hb hne
  -- The parent stands earlier, so its depth is there.
  have hparent := h.depth_eq d ((FlowGraph.mem_before_iff horder).mpr hlt)
  have hlen : b < depths.length := h.length_eq ▸ hb.lt_size
  rw [noteDepth, show parentOf (compute g).parents b = some d from hd]
  refine ⟨by rw [List.length_set, h.length_eq], fun c hc => ?_⟩
  rw [List.getD_eq_getElem?_getD]
  rcases List.mem_append.mp hc with hc | hc
  · have hcb : b ≠ c := by
      rintro rfl
      exact absurd ((FlowGraph.mem_before_iff horder).mp hc) (lt_irrefl _)
    rw [List.getElem?_set_ne hcb, ← List.getD_eq_getElem?_getD]
    exact h.depth_eq c hc
  · obtain rfl : c = b := List.mem_singleton.mp hc
    rw [List.getElem?_set_self hlen, Option.getD_some, hparent, ncard_strictDominators hagree hd]

/-- **All depths are noted** in one go. -/
theorem Measured.foldl (hagree : g.EdgesAgree) {before after depths : List Nat}
    (h : Measured g before depths) (horder : g.reversePostorder = before ++ after)
    (hentry : g.entry ∈ before) :
    Measured g (before ++ after) (after.foldl (noteDepth (compute g).parents) depths) := by
  induction after generalizing before depths with
  | nil =>
      rw [List.append_nil]
      exact h
  | cons b after ih =>
      have hnext := ih (h.step hagree horder hentry) (by rw [horder, List.append_cons])
        (List.mem_append_left _ hentry)
      rw [List.append_cons]
      exact hnext

/-- **The depth of a block** is the number of its strict dominators. -/
theorem depth_compute (hagree : g.EdgesAgree) {b : Nat} (hb : g.Reachable b) :
    (compute g).depth b = (strictDominators g b).ncard := by
  have hstart : Measured g [g.entry] (List.replicate g.size 0) := by
    refine ⟨List.length_replicate, fun c hc => ?_⟩
    obtain rfl : c = g.entry := List.mem_singleton.mp hc
    have hempty : strictDominators g g.entry = ∅ :=
      Set.eq_empty_of_forall_notMem fun a ha => ha.2 ha.1.eq_entry
    rw [hempty, Set.ncard_empty, List.getD_replicate _ g.entry_lt_size]
  have horder : g.reversePostorder = [g.entry] ++ g.reversePostorder.tail :=
    g.reversePostorder_eq_entry_cons
  have hall := hstart.foldl hagree horder (List.mem_cons_self ..)
  rw [← horder, ← depths_eq_foldl] at hall
  exact hall.depth_eq b (FlowGraph.mem_reversePostorder_iff_reachable.mpr hb)

/-! ### The walk over the tree -/

/-- **The walk over a tree** with a stack, from the blocks on it to all that it lists: the topmost
block is listed, and its children take its place. -/
inductive Tours (tree : DominatorTree) : List Nat → List Nat → Prop
  | done : Tours tree [] []
  | next {id : Nat} {stack listed : List Nat} : Tours tree (tree.children id ++ stack) listed →
      Tours tree (id :: stack) (id :: listed)

/-- A walk ends in one way only. -/
theorem Tours.unique {tree : DominatorTree} {stack listed listed' : List Nat}
    (h : Tours tree stack listed) (h' : Tours tree stack listed') : listed = listed' := by
  induction h generalizing listed' with
  | done =>
      cases h' with
      | done => rfl
  | next _ ih =>
      cases h' with
      | next h' => rw [ih h']

/-- **The walk lists the subtree** of the topmost block first, if its height is enough. -/
theorem tours_subtree (hagree : g.EdgesAgree) {height b : Nat} (hb : g.Reachable b)
    (hheight : g.size ≤ g.position b + height) {stack listed : List Nat}
    (h : Tours (compute g) stack listed) :
    Tours (compute g) (b :: stack) ((compute g).subtree height b ++ listed) := by
  induction height generalizing b stack listed with
  | zero =>
      have := FlowGraph.position_lt_size hb
      omega
  | succ height ih =>
      have hchildren : ∀ ds ⊆ (compute g).children b, Tours (compute g) (ds ++ stack)
          (ds.flatMap ((compute g).subtree height) ++ listed) := by
        intro ds hds
        induction ds with
        | nil => exact h
        | cons d ds ihds =>
            obtain ⟨hd, hds⟩ := List.cons_subset.mp hds
            obtain ⟨hreach, hle, -⟩ := child_spec hagree hheight hd
            rw [List.flatMap_cons, List.append_assoc]
            exact ih hreach hle (ihds hds)
      exact .next (hchildren _ (List.Subset.refl _))

/-- **The walk from the entry ends**, and what it lists is the preorder. -/
theorem tours_preorder_iff (hagree : g.EdgesAgree) {listed : List Nat} :
    Tours (compute g) [(compute g).entry] listed ↔ listed = (compute g).preorder := by
  have htours : Tours (compute g) [(compute g).entry] (compute g).preorder := by
    have h := tours_subtree hagree g.reachable_entry (Nat.le_add_left g.size _) .done
    rw [List.append_nil, ← size_compute hagree] at h
    exact h
  constructor
  · exact fun h => h.unique htours
  · rintro rfl
    exact htours

/-! ### Subtrees in the preorder -/

/-- **A subtree within a subtree** is listed in one piece. -/
theorem exists_subtree_append (hagree : g.EdgesAgree) {height r b : Nat} (hr : g.Reachable r)
    (hheight : g.size ≤ g.position r + height) (h : g.Dominates r b) :
    ∃ before height' after, g.size ≤ g.position b + height' ∧
      (compute g).subtree height r = before ++ (compute g).subtree height' b ++ after := by
  induction height generalizing r with
  | zero =>
      have := FlowGraph.position_lt_size hr
      omega
  | succ height ih =>
      by_cases hrb : r = b
      · refine ⟨[], height + 1, [], hrb ▸ hheight, ?_⟩
        rw [hrb, List.nil_append, List.append_nil]
      · obtain ⟨d, hd, hdb⟩ := exists_child hagree ⟨h, hrb⟩
        have hmem := (mem_children_iff hagree).mpr hd
        obtain ⟨hreach, hle, -⟩ := child_spec hagree hheight hmem
        obtain ⟨before, height', after, hle', hsplit⟩ := ih hreach hle hdb
        obtain ⟨ds, es, hchildren⟩ := List.append_of_mem hmem
        refine ⟨r :: ds.flatMap ((compute g).subtree height) ++ before, height',
          after ++ es.flatMap ((compute g).subtree height), hle', ?_⟩
        rw [subtree, hchildren, List.flatMap_append, List.flatMap_cons, hsplit]
        simp only [List.cons_append, List.append_assoc]

/-- The blocks that a reachable block dominates are listed **in one piece**, which starts with the
block itself. -/
theorem exists_preorder_append (hagree : g.EdgesAgree) {b : Nat} (hb : g.Reachable b) :
    ∃ before below after, (compute g).preorder = before ++ b :: below ++ after ∧
      ∀ c, c ∈ b :: below ↔ g.Dominates b c := by
  obtain ⟨before, height, after, hle, hsplit⟩ := exists_subtree_append hagree g.reachable_entry
    (Nat.le_add_left g.size _) hb.entry_dominates
  cases height with
  | zero =>
      have := FlowGraph.position_lt_size hb
      omega
  | succ height =>
      refine ⟨before, _, after, ?_, fun c => mem_subtree_iff hagree hb hle⟩
      rw [preorder, size_compute hagree]
      exact hsplit

/-- An immediate dominator is listed **before** the blocks that it immediately dominates. -/
theorem mem_before_of_idom? (hagree : g.EdgesAgree) {b d : Nat} {before after : List Nat}
    (h : (compute g).idom? b = some d) (hsplit : (compute g).preorder = before ++ b :: after) :
    d ∈ before := by
  obtain ⟨-, -, himm, -⟩ := idom?_eq_some hagree h
  have hd : d ∈ before ++ b :: after := hsplit ▸ (mem_preorder_iff hagree).mpr himm.1.1.1
  have hpairwise := pairwise_strictlyDominates hagree
  rw [hsplit, List.pairwise_append, List.pairwise_cons] at hpairwise
  rcases List.mem_append.mp hd with hd | hd
  · exact hd
  · rcases List.mem_cons.mp hd with rfl | hd
    · exact absurd rfl himm.1.2
    · exact absurd himm.1 (hpairwise.2.1.1 d hd)

/-- **The tables of the dominator tree.** If the notes of a graph agree, the children of a block are
in strictly ascending order and are the blocks that it is the immediate dominator of. The depth of a
reachable block is the number of its strict dominators. The walk from the entry ends with the
preorder, which lists the reachable blocks and none of them twice, each behind its immediate
dominator, and what a block dominates in one piece that starts with the block. -/
theorem tables_describe_tree (hagree : g.EdgesAgree) :
    (∀ p, ((compute g).children p).Pairwise (· < ·) ∧
      ∀ c, c ∈ (compute g).children p ↔ (compute g).idom? c = some p) ∧
    (∀ b, g.Reachable b → (compute g).depth b = {a | g.StrictlyDominates a b}.ncard) ∧
    (∀ listed, Tours (compute g) [(compute g).entry] listed ↔ listed = (compute g).preorder) ∧
    (compute g).preorder.Nodup ∧
    (∀ b, b ∈ (compute g).preorder ↔ g.Reachable b) ∧
    (∀ b d before after, (compute g).idom? b = some d →
      (compute g).preorder = before ++ b :: after → d ∈ before) ∧
    ∀ b, g.Reachable b → ∃ before below after,
      (compute g).preorder = before ++ b :: below ++ after ∧
        ∀ c, c ∈ b :: below ↔ g.Dominates b c := by
  exact ⟨fun p => ⟨pairwise_children g p, fun c => mem_children_iff hagree⟩,
    fun b => depth_compute hagree, fun listed => tours_preorder_iff hagree, nodup_preorder hagree,
    fun b => mem_preorder_iff hagree, fun b d before after => mem_before_of_idom? hagree,
    fun b => exists_preorder_append hagree⟩

/-- A graph with two branches, the second of which has a block `1` where its ways meet again, a way
back to the entry and a block that is not reachable. -/
def orchard : FlowGraph where
  blocks := [
    { address := 100, items := [], succs := [5, 2], preds := [1] },
    { address := 101, items := [], succs := [0, 6], preds := [4, 3] },
    { address := 102, items := [], succs := [4, 3], preds := [0, 7] },
    { address := 103, items := [], succs := [1], preds := [2] },
    { address := 104, items := [], succs := [1], preds := [2] },
    { address := 105, items := [], succs := [6], preds := [0] },
    { address := 106, items := [], preds := [1, 5] },
    { address := 107, items := [], succs := [2] }]
  keys := [100, 101, 102, 103, 104, 105, 106, 107]
  blocks_ne_nil := by decide
  length_keys := by decide
  nodup_keys := by decide

/-- The second branch is listed first, as its block comes first among the children of the entry. The
block `6`, where both branches end, is a child of the entry, and `7` is not listed. -/
theorem tables_describe_tree_orchard :
    orchard.EdgesAgree ∧
    (compute orchard).preorder = [0, 2, 1, 3, 4, 5, 6] ∧
    Tours (compute orchard) [0] [0, 2, 1, 3, 4, 5, 6] ∧
    {a | orchard.StrictlyDominates a 1}.ncard = 2 ∧ ¬ orchard.Reachable 7 ∧
    ∃ before below after, [0, 2, 1, 3, 4, 5, 6] = before ++ 2 :: below ++ after ∧
      ∀ c, c ∈ 2 :: below ↔ orchard.Dominates 2 c := by
  have hagree : orchard.EdgesAgree := by decide
  have hlisted : (compute orchard).preorder = [0, 2, 1, 3, 4, 5, 6] := by decide_cbv
  have hdepth : (compute orchard).depth 1 = 2 := by decide_cbv
  obtain ⟨-, hdepths, htours, -, hmem, -, hpiece⟩ := tables_describe_tree hagree
  rw [hlisted] at htours hmem hpiece
  refine ⟨hagree, hlisted, (htours _).mpr rfl, ?_, ?_, hpiece 2 ((hmem 2).mp (by decide))⟩
  · rw [← hdepths 1 ((hmem 1).mp (by decide)), hdepth]
  · rw [← hmem]
    decide

end FlowForm.DominatorTree
