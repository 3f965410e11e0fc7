import Mathlib
import FlowForm.Proofs.Dominance.Frontier
import FlowForm.Proofs.Graph.Build

/-!
# The Dominator Tree Is Exact

The dominator tree of a graph whose notes agree is that of dominance by paths, and the computation
of it ends by itself. Notes agree in a valid graph, and in any graph that was made by adding edges.
The frontiers that are read off the tree are those of dominance by paths as well.

## Main results

* `compute_decides_dominance`: reachability, dominance and immediate dominators are those defined
  by paths.
* `frontiers_decide_merging`: frontiers are those defined by paths.
-/

namespace FlowForm

namespace DominatorTree

open Dominance

/-- **Correctness of the dominator tree.** The notes of a graph agree if the graph is valid, or if
it was made by adding edges to one without edges. If they agree, the computation ends by itself,
whatever the shape of the graph; the tree knows the reachable blocks; its dominance is dominance by
paths; and the immediate dominator of a block is the one strict dominator that all other strict
dominators dominate, while the entry and unreachable blocks have none. -/
theorem compute_decides_dominance (g : FlowGraph) :
    (g.validate = .ok () → g.EdgesAgree) ∧
    ((∀ id b, g.block? id = some b → b.succs = [] ∧ b.preds = []) →
      ∀ es, (g.addEdges es).EdgesAgree) ∧
    (g.EdgesAgree →
      (∃ parents, Settles g g.reversePostorder (initial g) parents ∧
        (compute g).parents = parents.set g.entry none) ∧
      (∀ b, (compute g).isReachable b = true ↔ g.Reachable b) ∧
      (∀ a b, (compute g).dominates a b = true ↔ g.Dominates a b) ∧
      (∀ a b, (compute g).strictlyDominates a b = true ↔ g.StrictlyDominates a b) ∧
      (∀ b, b = g.entry ∨ ¬ g.Reachable b → (compute g).idom? b = none) ∧
      ∀ b, b ≠ g.entry → g.Reachable b → ∃ d, (compute g).idom? b = some d ∧
        g.IsImmediateDominator d b ∧ ∀ d', g.IsImmediateDominator d' b → d' = d) := by
  refine ⟨FlowGraph.edgesAgree_of_validate,
    fun hfresh es => FlowGraph.edgesAgree_addEdges es hfresh, fun hagree => ?_⟩
  obtain ⟨hsettles, hexact⟩ := settles_settled hagree
  refine ⟨⟨settled g, hsettles, rfl⟩, isReachable_compute g, dominates_compute hagree,
    strictlyDominates_compute hagree, fun b hb => ?_, fun b hne hb => ?_⟩
  · cases h : (compute g).idom? b with
    | none => rfl
    | some d =>
        obtain ⟨hreach, hne, -⟩ := idom?_eq_some hagree h
        rcases hb with hb | hb
        · exact absurd hb hne
        · exact absurd hreach hb
  · obtain ⟨d, hd, himm, -⟩ := exists_idom? hagree hb hne
    exact ⟨d, hd, himm, fun d' hd' => hexact.immediateDominator_unique hd' himm⟩

/-- A graph whose loop between `1` and `2` has two entrances, with a block that is not reachable,
an edge that is listed twice and edges to ids that no block has. -/
def twoEntrances : FlowGraph where
  blocks := [
    { address := 0, items := [], succs := [1, 2, 7] },
    { address := 1, items := [], succs := [2, 3, 2], preds := [0, 2, 4] },
    { address := 2, items := [], succs := [1], preds := [1, 0, 1] },
    { address := 3, items := [], succs := [], preds := [9, 1] },
    { address := 4, items := [], succs := [1], preds := [] }]
  keys := [0, 1, 2, 3, 4]
  blocks_ne_nil := by decide
  length_keys := by decide
  nodup_keys := by decide

/-- In a loop with two entrances neither of them dominates the other. -/
theorem compute_decides_dominance_twoEntrances :
    twoEntrances.EdgesAgree ∧ ¬ twoEntrances.Dominates 1 2 ∧ ¬ twoEntrances.Dominates 2 1 ∧
      twoEntrances.Dominates 1 3 := by
  have hcorrect := (compute_decides_dominance twoEntrances).2.2 (by decide)
  have h := hcorrect.2.2.1
  refine ⟨by decide, ?_, ?_, ?_⟩
  · rw [← h]
    decide_cbv
  · rw [← h]
    decide_cbv
  · rw [← h]
    decide_cbv

end DominatorTree

namespace Dominance

open DominatorTree

variable {g : FlowGraph}

/-- **Correctness of the frontiers.** If the notes of a graph agree, there is a list for every
block, and the list for `x` holds `y` if and only if `x` lies on every path to some reachable block
with an edge to `y` and does not strictly dominate `y`. All lists ascend. Nothing strictly dominates
the entry, so that a reachable edge back to it puts it into the frontier of every dominator of the
source. -/
theorem frontiers_decide_merging (hagree : g.EdgesAgree) :
    (frontiers g (compute g)).length = g.size ∧
    (∀ x < g.size, ∃ ys, (frontiers g (compute g))[x]? = some ys ∧ ys.Pairwise (· < ·) ∧
      ∀ y, y ∈ ys ↔ ∃ p, g.Reachable p ∧ g.HasEdge p y ∧
        (∀ π, g.Path g.entry π p → x ∈ π) ∧ ¬ g.StrictlyDominates x y) ∧
    (∀ x, ¬ g.StrictlyDominates x g.entry) ∧
    ∀ p, g.Reachable p → g.HasEdge p g.entry → ∀ x, (∀ π, g.Path g.entry π p → x ∈ π) →
      g.entry ∈ frontierOf (frontiers g (compute g)) x := by
  have hroot : ∀ x, ¬ g.StrictlyDominates x g.entry := fun x h => h.2 h.1.eq_entry
  refine ⟨length_frontiers g _, fun x hx => ?_, hroot, fun p hp hedge x hx => ?_⟩
  · obtain ⟨ys, hlist⟩ : ∃ ys, (frontiers g (compute g))[x]? = some ys :=
      ⟨_, List.getElem?_eq_getElem ((length_frontiers g (compute g)).symm ▸ hx)⟩
    obtain rfl : frontierOf (frontiers g (compute g)) x = ys := by
      rw [frontierOf, List.getD_eq_getElem?_getD, hlist, Option.getD_some]
    refine ⟨_, hlist, pairwise_frontierOf .., fun y => (mem_frontierOf_iff hagree).trans ?_⟩
    refine exists_congr fun p => and_congr_right fun hp => ?_
    rw [hp.dominates_iff]
  · exact (mem_frontierOf_iff hagree).mpr ⟨p, hp, hedge, hp.dominates_iff.mpr hx, hroot x⟩

/-- A graph in which two loops lead back to the entry, one of them from the entry itself, with a
block that is not reachable and an edge that one of its ends lists twice. -/
def homeward : FlowGraph where
  blocks := [
    { address := 0, items := [], succs := [0, 1, 2], preds := [0, 3] },
    { address := 1, items := [], succs := [3], preds := [0] },
    { address := 2, items := [], succs := [3], preds := [0, 4, 0] },
    { address := 3, items := [], succs := [0, 5], preds := [1, 2, 4] },
    { address := 4, items := [], succs := [2, 3], preds := [] },
    { address := 5, items := [], succs := [8], preds := [3] }]
  keys := [0, 1, 2, 3, 4, 5]
  blocks_ne_nil := by decide
  length_keys := by decide
  nodup_keys := by decide

/-- Control that comes from `1` and from `2` flows together at `3`, and then at the entry; at `2` it
does not, as the block `4` is not reachable. -/
theorem frontiers_decide_merging_homeward :
    homeward.EdgesAgree ∧
    frontiers homeward (compute homeward) = [[0], [3], [3], [0], [], []] ∧
    (∃ p, homeward.Reachable p ∧ homeward.HasEdge p 3 ∧
      (∀ π, homeward.Path homeward.entry π p → 2 ∈ π) ∧ ¬ homeward.StrictlyDominates 2 3) ∧
    ¬ ∃ p, homeward.Reachable p ∧ homeward.HasEdge p 2 ∧
      (∀ π, homeward.Path homeward.entry π p → 0 ∈ π) ∧ ¬ homeward.StrictlyDominates 0 2 := by
  have hagree : homeward.EdgesAgree := by decide
  have htable : frontiers homeward (compute homeward) = [[0], [3], [3], [0], [], []] := by
    decide_cbv
  obtain ⟨-, hlists, -, -⟩ := frontiers_decide_merging hagree
  refine ⟨hagree, htable, ?_, ?_⟩
  · obtain ⟨ys, hys, -, hmem⟩ := hlists 2 (by decide)
    rw [htable] at hys
    cases hys
    exact (hmem 3).mp (by decide)
  · obtain ⟨ys, hys, -, hmem⟩ := hlists 0 (by decide)
    rw [htable] at hys
    cases hys
    exact (hmem 2).not.mp (by decide)

end Dominance

end FlowForm
