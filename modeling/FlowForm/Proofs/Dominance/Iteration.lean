import Mathlib
import FlowForm.Proofs.Dominance.Rounds

/-!
# Dominators under Way

What holds at every point of the computation of dominators, and not only when it is over. The
parents **under way** are those at the point where some rounds are done and, of the next one, some
blocks (`underway`). At each such point parents make a forest that never loses a dominator, because
a block is refined only after an earlier predecessor of it has been given a parent
(`midround_underway`).

This is what the search for a nearest common ancestor relies on. It is started for two blocks that
have a parent, so both ways up lead through ever earlier blocks until they meet; and since the order
of the blocks alone decides which of the two moves, it ends in one way only (`Meets.unique`).

The computation stops after the first round that changes nothing, which comes at the latest when
there have been as many rounds as there are blocks (`exists_iterate_fixed`).

## Main results

* `midround_underway`: the invariant at every point.
* `Forest.isNearest_meet`: each search finds the nearest common ancestor.
* `rounds_keep_dominators`: what holds throughout, and how it ends.
-/

namespace FlowForm.Dominance

variable {g : FlowGraph} {parents : Parents}

/-- The parents **under way**: `k` rounds are done, and of the next one the first `j` blocks. -/
def underway (g : FlowGraph) (k j : Nat) : Parents :=
  (g.reversePostorder.tail.take j).foldl (refine g g.reversePostorder)
    ((round g g.reversePostorder)^[k] (initial g))

/-! ### The invariant at every point -/

/-- What is known after any number of rounds. -/
theorem afterRounds_iterate (hagree : g.EdgesAgree) (k : Nat) :
    AfterRounds g k ((round g g.reversePostorder)^[k] (initial g)) := by
  induction k with
  | zero => exact afterRounds_initial g
  | succ k ih =>
      rw [Function.iterate_succ_apply']
      exact (ih.round hagree).2

/-- **What is known at any point of any round.** -/
theorem midround_underway (hagree : g.EdgesAgree) (k j : Nat) :
    Midround g k (g.entry :: g.reversePostorder.tail.take j) (g.reversePostorder.tail.drop j)
      (underway g k j) := by
  have hstart := afterRounds_iterate hagree k
  rw [AfterRounds, ← List.take_append_drop j g.reversePostorder.tail] at hstart
  exact (hstart.foldl_refine hagree).2

/-! ### Nearest common ancestors -/

/-- **The search ends in one way only**: the order of the blocks decides which of them moves. -/
theorem Meets.unique {order : List Nat} {a b c d : Nat} (h : Meets order parents a b c)
    (h' : Meets order parents a b d) : c = d := by
  induction h with
  | same a =>
      cases h' with
      | same => rfl
      | left hlt => exact absurd hlt (lt_irrefl _)
      | right hlt => exact absurd hlt (lt_irrefl _)
  | left hlt _ ih =>
      cases h' with
      | same => exact absurd hlt (lt_irrefl _)
      | left _ h' => exact ih h'
      | right hgt => exact absurd hlt hgt.not_gt
  | right hlt _ ih =>
      cases h' with
      | same => exact absurd hlt (lt_irrefl _)
      | left hgt => exact absurd hlt hgt.not_gt
      | right _ h' => exact ih h'

/-- **Each search for a common ancestor** in a forest, in going through the predecessors of a block
that have a parent: it is started with blocks that have a parent, ends, and finds the nearest
one. -/
theorem Forest.isNearest_meet (hf : Forest g parents) {first p : Nat} {before after : List Nat}
    (h : ∀ q ∈ first :: (before ++ p :: after), (parentOf parents q).isSome) :
    let c := before.foldl (fun c p => meet g.reversePostorder parents (2 * g.size) p c) first
    let d := meet g.reversePostorder parents (2 * g.size) p c
    (parentOf parents p).isSome ∧ (parentOf parents c).isSome ∧
      Meets g.reversePostorder parents p c d ∧ IsNearest parents [p, c] d := by
  have hfirst := h first (List.mem_cons_self ..)
  have hp := h p (by simp)
  have hbefore : ∀ q ∈ before, (parentOf parents q).isSome := fun q hq => h q (by simp [hq])
  obtain ⟨c, hfold, -, hnear⟩ := hf.gathers_foldl hfirst hbefore
  have hc := hf.isSome_of_above (hnear.above first (List.mem_cons_self ..)) hfirst
  have hmeets := hf.meets_meet_size hp hc
  simp only [hfold]
  exact ⟨hp, hc, hmeets, hf.isNearest_of_meets hp hc hmeets⟩

/-! ### The last round -/

/-- `settle` stops at the first round that changes nothing, if it may go on that long. -/
theorem settle_eq_iterate {order : List Nat} {bound k : Nat} (hbound : k < bound)
    (hfixed : round g order ((round g order)^[k] parents) = (round g order)^[k] parents)
    (hmoves : ∀ i < k,
      round g order ((round g order)^[i] parents) ≠ (round g order)^[i] parents) :
    settle g order bound parents = (round g order)^[k] parents := by
  induction bound generalizing k parents with
  | zero => exact absurd hbound (Nat.not_lt_zero k)
  | succ bound ih =>
      rw [settle_succ]
      cases k with
      | zero => exact if_pos hfixed
      | succ k =>
          have hfirst : round g order parents ≠ parents := hmoves 0 (Nat.succ_pos k)
          rw [if_neg hfirst, Function.iterate_succ_apply]
          rw [Function.iterate_succ_apply] at hfixed
          refine ih (Nat.lt_of_succ_lt_succ hbound) hfixed fun i hi => ?_
          have hmove := hmoves (i + 1) (Nat.succ_lt_succ hi)
          rw [Function.iterate_succ_apply] at hmove
          exact hmove

/-- **Some round changes nothing**, and there are no more rounds before it than blocks. -/
theorem exists_iterate_fixed (hagree : g.EdgesAgree) :
    ∃ k ≤ g.size,
      round g g.reversePostorder ((round g g.reversePostorder)^[k] (initial g)) =
        (round g g.reversePostorder)^[k] (initial g) ∧
      ∀ i < k, round g g.reversePostorder ((round g g.reversePostorder)^[i] (initial g)) ≠
        (round g g.reversePostorder)^[i] (initial g) := by
  have hexact := exact_of_size_le (afterRounds_iterate hagree g.size) (le_refl _)
  have hexists : ∃ k, round g g.reversePostorder ((round g g.reversePostorder)^[k] (initial g)) =
      (round g g.reversePostorder)^[k] (initial g) := ⟨g.size, hexact.round_eq hagree⟩
  exact ⟨Nat.find hexists, Nat.find_min' hexists (hexact.round_eq hagree), Nat.find_spec hexists,
    fun i hi => Nat.find_min hexists hi⟩

/-- **Dominators under way.** Take any graph whose notes agree, and any point of the computation.
Every block with a parent but the entry has one that stands strictly earlier and has a parent
itself. Going through the predecessors of any block that have a parent, each search for a common
ancestor is started with blocks that have a parent, ends, and finds their nearest one in the forest
as it is at this point; the bound on its moves is not felt. All dominators of a block with a parent
are among its ancestors. And some round changes nothing: the first one is where the computation
stops and what the tree is read off, and it comes after at most as many rounds as there are
blocks. -/
theorem rounds_keep_dominators (hagree : g.EdgesAgree) :
    (∀ k j,
      (∀ b c, b ≠ g.entry → parentOf (underway g k j) b = some c →
        g.position c < g.position b ∧ (parentOf (underway g k j) c).isSome = true) ∧
      (∀ b first before p after,
        placed g (underway g k j) b = first :: (before ++ p :: after) →
        let c := before.foldl
          (fun c p => meet g.reversePostorder (underway g k j) (2 * g.size) p c) first
        let d := meet g.reversePostorder (underway g k j) (2 * g.size) p c
        (parentOf (underway g k j) p).isSome = true ∧
          (parentOf (underway g k j) c).isSome = true ∧
          (∀ e, Meets g.reversePostorder (underway g k j) p c e ↔ e = d) ∧
          IsNearest (underway g k j) [p, c] d) ∧
      ∀ a b, (parentOf (underway g k j) b).isSome = true → g.Dominates a b →
        Above (underway g k j) a b) ∧
    ∃ k ≤ g.size,
      underway g (k + 1) 0 = underway g k 0 ∧
      (∀ i < k, underway g (i + 1) 0 ≠ underway g i 0) ∧
      (DominatorTree.compute g).parents = (underway g k 0).set g.entry none := by
  refine ⟨fun k j => ?_, ?_⟩
  · have hforest := (midround_underway hagree k j).forest
    refine ⟨hforest.descends, fun b first before p after hplaced => ?_, fun a b =>
      hforest.above_of_dominates⟩
    have hsome : ∀ q ∈ first :: (before ++ p :: after),
        (parentOf (underway g k j) q).isSome = true := by
      rw [← hplaced]
      exact fun q hq => (List.mem_filter.mp hq).2
    obtain ⟨hp, hc, hmeets, hnear⟩ := hforest.isNearest_meet hsome
    refine ⟨hp, hc, fun e => ⟨fun h => h.unique hmeets, ?_⟩, hnear⟩
    rintro rfl
    exact hmeets
  · obtain ⟨k, hk, hfixed, hmoves⟩ := exists_iterate_fixed hagree
    have hstart : ∀ i, underway g i 0 = (round g g.reversePostorder)^[i] (initial g) := fun _ => rfl
    have hbound : k < g.size * g.size + 1 :=
      Nat.lt_succ_of_le (hk.trans (Nat.le_mul_of_pos_left g.size g.size_pos))
    simp only [hstart, Function.iterate_succ_apply']
    refine ⟨k, hk, hfixed, hmoves, ?_⟩
    rw [← settle_eq_iterate hbound hfixed hmoves]
    rfl

/-- A graph in which `2` and `3` lead to each other and both can be entered from outside, `2` by way
of `1`. -/
def switchback : FlowGraph where
  blocks := [
    { address := 94, items := [], succs := [1, 3] },
    { address := 95, items := [], succs := [2], preds := [0] },
    { address := 96, items := [], succs := [3], preds := [1, 3] },
    { address := 97, items := [], succs := [2], preds := [0, 2] }]
  keys := [94, 95, 96, 97]
  blocks_ne_nil := by decide
  length_keys := by decide
  nodup_keys := by decide

/-- After the first round `2` still hangs below `1`, which does not dominate it. The second round
looks for the nearest common ancestor of its predecessors and finds the entry. -/
theorem rounds_keep_dominators_switchback :
    switchback.EdgesAgree ∧
    parentOf (underway switchback 1 1) 2 = some 1 ∧ ¬ switchback.Dominates 1 2 ∧
    placed switchback (underway switchback 1 1) 2 = [1, 3] ∧
    IsNearest (underway switchback 1 1) [3, 1] 0 ∧ Above (underway switchback 1 1) 0 2 ∧
    ∃ k ≤ 4, underway switchback (k + 1) 0 = underway switchback k 0 ∧
      (DominatorTree.compute switchback).parents = (underway switchback k 0).set 0 none := by
  have hagree : switchback.EdgesAgree := by decide
  have hparent : parentOf (underway switchback 1 1) 2 = some 1 := by decide_cbv
  have hplaced : placed switchback (underway switchback 1 1) 2 = [1, 3] := by decide_cbv
  have hmeet : meet switchback.reversePostorder (underway switchback 1 1) (2 * switchback.size) 3 1
      = 0 := by decide_cbv
  have hpath : switchback.Path switchback.entry [0, 3, 2] 2 :=
    (FlowGraph.Path.start.step (v := 3) ⟨by decide, by decide⟩).step ⟨by decide, by decide⟩
  obtain ⟨hpoints, k, hk, hfixed, -, hparents⟩ := rounds_keep_dominators hagree
  obtain ⟨-, hsearch, habove⟩ := hpoints 1 1
  obtain ⟨-, -, -, hnear⟩ := hsearch 2 1 [] 3 [] hplaced
  refine ⟨hagree, hparent, fun hdom => absurd (hdom.2.2 _ hpath) (by decide), hplaced,
    hmeet ▸ hnear, ?_, k, hk, hfixed, hparents⟩
  exact habove 0 2 (by rw [hparent]; rfl) (FlowGraph.Reachable.entry_dominates ⟨_, hpath⟩)

end FlowForm.Dominance
