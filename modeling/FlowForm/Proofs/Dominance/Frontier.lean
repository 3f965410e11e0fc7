import FlowForm.Dominance.Frontier
import FlowForm.Proofs.Dominance.Tree

/-!
# Frontiers are Exact

The computed frontiers are those defined by paths: `y` is in the frontier of `x` if `x` dominates
a block with an edge to `y` and does not strictly dominate `y` itself (`mem_frontierOf_iff`).

The computation never looks at this definition. It walks up from every predecessor of `y` as far
as the immediate dominator of `y`, and it does so only where there are two ways into `y`. Neither
loses anything. The immediate dominator of `y` dominates every predecessor, so the walk meets it,
and above it there are only strict dominators of `y`. If there is but one way in, the predecessor
on it is the immediate dominator, and the walk would end before its first step.

All frontiers grow in one loop over the blocks. A walk may come upon a block that another walk for
the same `y` has passed, and then `y` is in the frontier already. So `y` is added once, and nothing
but `y` is added at its turn, which makes every frontier ascend (`getElem?_foldl_fringed`).

## Main results

* `mem_frontierOf_iff`: what a frontier holds.
* `pairwise_frontierOf`: the order in which it lists its blocks.
-/

namespace FlowForm.Dominance

open DominatorTree

variable {g : FlowGraph}

/-- **The walk from a block up to a dominator of it** passes the dominators of the block that do
not dominate that dominator. -/
theorem mem_below_iff (hagree : g.EdgesAgree) {stop : Option Nat} {bound r b : Nat}
    (hb : g.Reachable b) (hbound : g.position b < bound)
    (hstop : ∀ d, stop = some d → g.Dominates d b) :
    r ∈ below (compute g) stop bound b ↔
      g.Dominates r b ∧ ∀ d, stop = some d → ¬ g.Dominates r d := by
  induction bound generalizing b with
  | zero => exact absurd hbound (Nat.not_lt_zero _)
  | succ bound ih =>
      rw [below]
      by_cases hend : some b = stop
      · rw [if_pos hend]
        simp only [List.not_mem_nil, false_iff, not_and]
        exact fun hr hnot => hnot b hend.symm hr
      rw [if_neg hend, List.mem_cons]
      -- A block at which the walk does not stop lies strictly below the dominator.
      have hself : ∀ d, stop = some d → ¬ g.Dominates b d := by
        intro d hd hbd
        have hdb := hstop d hd
        obtain rfl := dominates_antisymm hagree hdb hbd
        exact hend hd.symm
      by_cases hne : b = g.entry
      · have hroot : (compute g).idom? b = none := by
          rw [idom?_compute hagree, if_pos hne]
        simp only [hroot, List.not_mem_nil, or_false]
        constructor
        · rintro rfl
          exact ⟨hb.dominates_self, hself⟩
        · rintro ⟨hr, -⟩
          exact (hne ▸ hr).eq_entry.trans hne.symm
      · obtain ⟨e, he, himm, hlt⟩ := exists_idom? hagree hb hne
        have hstop' : ∀ d, stop = some d → g.Dominates d e := by
          intro d hd
          rcases (dominates_iff_of_idom? hagree he).mp (hstop d hd) with rfl | hde
          · exact absurd hd.symm hend
          · exact hde
        simp only [he]
        rw [ih himm.1.1.1 (by omega) hstop', dominates_iff_of_idom? hagree he]
        constructor
        · rintro (rfl | ⟨hr, hnot⟩)
          · exact ⟨.inl rfl, hself⟩
          · exact ⟨.inr hr, hnot⟩
        · rintro ⟨rfl | hr, hnot⟩
          · exact .inl rfl
          · exact .inr ⟨hr, hnot⟩

/-- The walk from a predecessor passes its dominators that do not strictly dominate the
block. -/
theorem mem_below_pred_iff (hagree : g.EdgesAgree) {r p y : Nat} (hp : g.Reachable p)
    (hedge : g.HasEdge p y) :
    r ∈ below (compute g) ((compute g).idom? y) (compute g).size p ↔
      g.Dominates r p ∧ ¬ g.StrictlyDominates r y := by
  have hbound : g.position p < (compute g).size := by
    rw [size_compute hagree]
    exact FlowGraph.position_lt_size hp
  have hstop : ∀ d, (compute g).idom? y = some d → g.Dominates d p := fun d hd =>
    ((idom?_eq_some hagree hd).2.2.1.1).dominates_pred hp hedge
  rw [mem_below_iff hagree hp hbound hstop]
  refine and_congr_right fun _ => ?_
  by_cases hne : y = g.entry
  · subst hne
    have hroot : (compute g).idom? g.entry = none := by rw [idom?_compute hagree, if_pos rfl]
    simp only [hroot, reduceCtorEq, false_implies, implies_true, true_iff]
    exact fun hr => hr.2 hr.1.eq_entry
  · obtain ⟨d, hd, -⟩ := exists_idom? hagree (hp.step hedge) hne
    rw [strictlyDominates_iff_of_idom? hagree hd]
    simp [hd]

/-- **One way in is no merge**: the only reachable predecessor of a block is its immediate
dominator. -/
theorem idom?_of_single_pred (hagree : g.EdgesAgree) {p y : Nat} (hne : y ≠ g.entry)
    (hp : g.Reachable p) (hedge : g.HasEdge p y)
    (honly : ∀ q, g.Reachable q → g.HasEdge q y → q = p) : (compute g).idom? y = some p := by
  have hy := hp.step hedge
  obtain ⟨q, hq, hqy, hlt⟩ := FlowGraph.exists_earlier_pred hy hne
  obtain rfl := honly q hq hqy
  have hqdom : g.StrictlyDominates q y := by
    refine ⟨FlowGraph.dominates_of_forall_pred hy hne fun r hr hry => ?_, ?_⟩
    · exact honly r hr hry ▸ hr.dominates_self
    · rintro rfl
      exact absurd hlt (lt_irrefl _)
  obtain ⟨d, hd, himm, -⟩ := exists_idom? hagree hy hne
  have hqd := (strictlyDominates_iff_of_idom? hagree hd).mp hqdom
  rw [hd, dominates_antisymm hagree hqd (himm.1.dominates_pred hq hqy)]

/-- The reachable predecessors of a block, as the computation lists them. -/
theorem mem_filter_isReachable (hagree : g.EdgesAgree) {p y : Nat} (hy : y < g.size) :
    p ∈ (g.preds y).filter (compute g).isReachable ↔ g.Reachable p ∧ g.HasEdge p y := by
  rw [List.mem_filter, isReachable_compute]
  constructor
  · rintro ⟨hmem, hp⟩
    exact ⟨hp, hagree.hasEdge hp.lt_size hy hmem⟩
  · rintro ⟨hp, hedge⟩
    exact ⟨hedge.mem_preds hagree, hp⟩

/-- The blocks whose frontier a block belongs to. -/
theorem mem_fringed_iff (hagree : g.EdgesAgree) {x y : Nat} (hy : y < g.size) :
    x ∈ fringed g (compute g) y ↔ g.InFrontier x y := by
  have hwalk : x ∈ ((g.preds y).filter (compute g).isReachable).flatMap
        (below (compute g) ((compute g).idom? y) (compute g).size) ↔ g.InFrontier x y := by
    rw [List.mem_flatMap]
    constructor
    · rintro ⟨p, hp, hx⟩
      obtain ⟨hp, hedge⟩ := (mem_filter_isReachable hagree hy).mp hp
      exact ⟨p, hp, hedge, (mem_below_pred_iff hagree hp hedge).mp hx⟩
    · rintro ⟨p, hp, hedge, hx⟩
      exact ⟨p, (mem_filter_isReachable hagree hy).mpr ⟨hp, hedge⟩,
        (mem_below_pred_iff hagree hp hedge).mpr hx⟩
  by_cases hways : ((compute g).isReachable y &&
      decide (2 ≤ ((g.preds y).filter (compute g).isReachable).length +
        if y = g.entry then 1 else 0)) = true
  · rw [show fringed g (compute g) y = _ from if_pos hways]
    exact hwalk
  · -- Where the computation does not walk at all, a walk would pass nothing.
    rw [show fringed g (compute g) y = [] from if_neg hways]
    simp only [List.not_mem_nil, false_iff]
    rintro ⟨p, hp, hedge, hdom, hnot⟩
    have hmem := (mem_filter_isReachable hagree hy).mpr ⟨hp, hedge⟩
    have hreach := (isReachable_compute g y).mpr (hp.step hedge)
    have hpos := List.length_pos_of_mem hmem
    rw [hreach, Bool.true_and, decide_eq_true_eq] at hways
    have hne : y ≠ g.entry := by
      intro hentry
      rw [if_pos hentry] at hways
      omega
    rw [if_neg hne] at hways
    obtain ⟨q, hq⟩ : ∃ q, (g.preds y).filter (compute g).isReachable = [q] :=
      List.length_eq_one_iff.mp (by omega)
    have honly : ∀ r, g.Reachable r → g.HasEdge r y → r = p := by
      intro r hr hry
      have hr' := (mem_filter_isReachable hagree hy).mpr ⟨hr, hry⟩
      rw [hq, List.mem_singleton] at hr' hmem
      exact hr'.trans hmem.symm
    have hidom := idom?_of_single_pred hagree hne hp hedge honly
    exact hnot ((strictlyDominates_iff_of_idom? hagree hidom).mpr hdom)

/-! ### The table -/

/-- **A block is added once** to each frontier that it belongs to, however many ways up come upon
it. -/
theorem getElem?_foldl_noteFrontier (id : Nat) (xs : List Nat) (table : List (List Nat)) (x : Nat) :
    (xs.foldl (noteFrontier id) table)[x]? =
      table[x]?.map fun ids => if x ∈ xs then Block.pushNew ids id else ids := by
  have htwice : ∀ ids, Block.pushNew (Block.pushNew ids id) id = Block.pushNew ids id := by
    intro ids
    by_cases hmem : id ∈ ids <;> simp [Block.pushNew, hmem]
  induction xs generalizing table with
  | nil => simp
  | cons y xs ih =>
      rw [List.foldl_cons, ih, noteFrontier]
      by_cases hy : y = x
      · by_cases hx : x ∈ xs <;> simp [hy, hx, htwice, Function.comp_def]
      · simp [hy, Ne.symm hy]

/-- **Frontiers grow together**: while blocks come up that are in none of them yet, each grows by
those that belong to it. -/
theorem getElem?_foldl_fringed (g : FlowGraph) (tree : DominatorTree) {news : List Nat}
    (hnews : news.Nodup) {table : List (List Nat)} {x : Nat} {ids : List Nat}
    (hids : table[x]? = some ids) (hfresh : ∀ id ∈ news, id ∉ ids) :
    (news.foldl (fun table id => (fringed g tree id).foldl (noteFrontier id) table) table)[x]? =
      some (ids ++ news.filter fun id => x ∈ fringed g tree id) := by
  induction news generalizing table ids with
  | nil => simp [hids]
  | cons id news ih =>
      obtain ⟨hid, hnews⟩ := List.nodup_cons.mp hnews
      have hnew : id ∉ ids := hfresh id List.mem_cons_self
      have hrest : ∀ other ∈ news, other ∉ ids := fun other hother =>
        hfresh other (List.mem_cons_of_mem _ hother)
      have hstep := getElem?_foldl_noteFrontier id (fringed g tree id) table x
      rw [hids, Option.map_some] at hstep
      by_cases hx : x ∈ fringed g tree id
      · rw [if_pos hx, Block.pushNew, if_neg (by simpa using hnew)] at hstep
        rw [List.foldl_cons, ih hnews hstep, List.filter_cons_of_pos (by simpa using hx),
          List.append_assoc, List.singleton_append]
        intro other hother
        have hne : other ≠ id := fun heq => hid (heq ▸ hother)
        simp [hrest other hother, hne]
      · rw [if_neg hx] at hstep
        rw [List.foldl_cons, ih hnews hstep hrest, List.filter_cons_of_neg (by simpa using hx)]

/-- The frontier of a block lists the blocks that it belongs to by their ways up. -/
theorem frontierOf_frontiers (g : FlowGraph) (tree : DominatorTree) {x : Nat} (hx : x < g.size) :
    frontierOf (frontiers g tree) x = g.ids.filter fun y => x ∈ fringed g tree y := by
  have hnodup : g.ids.Nodup := List.nodup_range
  have hempty : (List.replicate g.size ([] : List Nat))[x]? = some [] := by simp [hx]
  rw [frontierOf, frontiers, List.getD_eq_getElem?_getD,
    getElem?_foldl_fringed g tree hnodup hempty fun _ _ => List.not_mem_nil]
  rfl

/-- There is a frontier for every block. -/
theorem length_frontiers (g : FlowGraph) (tree : DominatorTree) :
    (frontiers g tree).length = g.size := by
  have hstep : ∀ (table : List (List Nat)) (id : Nat),
      ((fringed g tree id).foldl (noteFrontier id) table).length = table.length := by
    intro table id
    induction fringed g tree id generalizing table with
    | nil => rfl
    | cons x xs ih => rw [List.foldl_cons, ih, noteFrontier, List.length_modify]
  rw [frontiers]
  refine List.foldlRecOn g.ids _ (motive := fun table : List (List Nat) => table.length = g.size)
    List.length_replicate fun table hlength id _ => ?_
  rw [hstep, hlength]

/-- There is none for what is not a block. -/
theorem frontierOf_frontiers_eq_nil (g : FlowGraph) (tree : DominatorTree) {x : Nat}
    (hx : g.size ≤ x) : frontierOf (frontiers g tree) x = [] := by
  rw [frontierOf, List.getD_eq_getElem?_getD,
    List.getElem?_eq_none ((length_frontiers g tree).trans_le hx), Option.getD_none]

/-- **Frontiers are exact.** A block is in the frontier of another one if that dominates a
predecessor of it and does not strictly dominate it. -/
theorem mem_frontierOf_iff (hagree : g.EdgesAgree) {x y : Nat} :
    y ∈ frontierOf (frontiers g (compute g)) x ↔ g.InFrontier x y := by
  by_cases hx : x < g.size
  · rw [frontierOf_frontiers g _ hx, List.mem_filter, decide_eq_true_eq, FlowGraph.mem_ids]
    constructor
    · rintro ⟨hy, hfringed⟩
      exact (mem_fringed_iff hagree hy).mp hfringed
    · intro h
      obtain ⟨p, hp, hedge, -⟩ := id h
      exact ⟨hedge.2, (mem_fringed_iff hagree hedge.2).mpr h⟩
  · rw [frontierOf_frontiers_eq_nil g _ (Nat.le_of_not_lt hx)]
    refine ⟨fun h => absurd h List.not_mem_nil, ?_⟩
    rintro ⟨p, hp, hedge, hdom, -⟩
    exact absurd hdom.1.lt_size hx

/-- A frontier lists blocks in **ascending** order, since they come up in that order. -/
theorem pairwise_frontierOf (g : FlowGraph) (tree : DominatorTree) (x : Nat) :
    (frontierOf (frontiers g tree) x).Pairwise (· < ·) := by
  by_cases hx : x < g.size
  · rw [frontierOf_frontiers g tree hx]
    exact List.pairwise_lt_range.filter _
  · exact frontierOf_frontiers_eq_nil g tree (Nat.le_of_not_lt hx) ▸ List.Pairwise.nil

end FlowForm.Dominance
