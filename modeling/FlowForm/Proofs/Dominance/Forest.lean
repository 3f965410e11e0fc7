import Mathlib.Data.List.Perm.Subperm
import Mathlib.Order.Nat
import FlowForm.Dominance.Tree
import FlowForm.Proofs.Paths

/-!
# Parents as a Forest

While dominators are being found every block that has a parent hangs below it, and the entry is
its own parent. `Above parents a b` says that `a` is `b` or one of its ancestors. What keeps
this in order is the invariant `Forest`: a parent stands strictly earlier in reverse postorder
than its child and has a parent itself, and it never loses sight of a dominator, because every
strict dominator of the child dominates the parent.

The second half of the invariant speaks of one link at a time and of true dominance only, so
giving another block a new parent cannot break it. That all dominators of a block are among its
ancestors follows from it at any time (`Forest.above_of_dominates`).

`Meets` is the loop that looks for the nearest common ancestor, without a bound on its moves:
whichever of the two blocks stands later moves up until they are the same. In a forest this loop
ends, `meet` computes its result within the bound (`Forest.meets_meet`), and the result is the
nearest common ancestor (`Forest.isNearest_of_meets`).
-/

namespace FlowForm

/-- Position of a block in reverse postorder. -/
abbrev FlowGraph.position (g : FlowGraph) (b : Nat) : Nat :=
  Dominance.rank g.reversePostorder b

namespace FlowGraph

variable {g : FlowGraph}

/-! ### Positions -/

/-- The entry comes first, and every other block has an edge from one before it. -/
theorem exists_led_reversePostorder (g : FlowGraph) :
    ∃ rest, g.reversePostorder = g.entry :: rest ∧ Search.Led g.succs [g.entry] rest :=
  Search.reversePostorder_eq_cons g.entry

/-- The entry comes first. -/
theorem reversePostorder_eq_entry_cons (g : FlowGraph) :
    g.reversePostorder = g.entry :: g.reversePostorder.tail := by
  obtain ⟨rest, hrest, -⟩ := g.exists_led_reversePostorder
  rw [hrest, List.tail_cons]

/-- No block is listed twice. -/
theorem nodup_reversePostorder (g : FlowGraph) : g.reversePostorder.Nodup :=
  Search.nodup_reversePostorder g.entry

/-- There are at most as many reachable blocks as blocks. -/
theorem length_reversePostorder_le (g : FlowGraph) : g.reversePostorder.length ≤ g.size := by
  have hsub : g.reversePostorder ⊆ g.ids := fun b hb =>
    mem_ids.mpr (mem_reversePostorder_iff_reachable.mp hb).lt_size
  have hle := (g.nodup_reversePostorder.subperm hsub).length_le
  simpa [ids] using hle

/-- The entry has the first position. -/
@[simp]
theorem position_entry (g : FlowGraph) : g.position g.entry = 0 := by
  rw [position, Dominance.rank, reversePostorder_eq_entry_cons]
  exact List.idxOf_cons_self

/-- Two reachable blocks have different positions. -/
theorem position_inj {a b : Nat} (ha : g.Reachable a) (h : g.position a = g.position b) :
    a = b :=
  (List.idxOf_inj (mem_reversePostorder_iff_reachable.mpr ha)).mp h

/-- Positions of reachable blocks are bounded by the number of blocks. -/
theorem position_lt_size {b : Nat} (hb : g.Reachable b) : g.position b < g.size :=
  lt_of_lt_of_le (List.idxOf_lt_length_of_mem (mem_reversePostorder_iff_reachable.mpr hb))
    g.length_reversePostorder_le

/-- A reachable block with the first position is the entry. -/
theorem position_pos {b : Nat} (hne : b ≠ g.entry) : 0 < g.position b := by
  rcases Nat.eq_zero_or_pos (g.position b) with h | h
  · exact absurd (position_inj g.reachable_entry (by rw [position_entry, h])).symm hne
  · exact h

/-- The blocks before a listed block are those with a smaller position. -/
theorem mem_before_iff {before after : List Nat} {b u : Nat}
    (h : g.reversePostorder = before ++ b :: after) :
    u ∈ before ↔ g.position u < g.position b := by
  have hnodup := h ▸ g.nodup_reversePostorder
  have hb : b ∉ before := fun hb =>
    (List.nodup_append.mp hnodup).2.2 b hb b (List.mem_cons_self ..) rfl
  have hpos : g.position b = before.length := by
    rw [position, Dominance.rank, h, List.idxOf_append_of_notMem hb, List.idxOf_cons_self,
      Nat.add_zero]
  rw [hpos, position, Dominance.rank, h]
  constructor
  · intro hu
    rw [List.idxOf_append_of_mem hu]
    exact List.idxOf_lt_length_of_mem hu
  · intro hlt
    by_contra hu
    rw [List.idxOf_append_of_notMem hu] at hlt
    omega

/-- **Every reachable block but the entry has an earlier predecessor.** -/
theorem exists_earlier_pred {b : Nat} (hb : g.Reachable b) (hne : b ≠ g.entry) :
    ∃ p, g.Reachable p ∧ g.HasEdge p b ∧ g.position p < g.position b := by
  obtain ⟨rest, horder, hled⟩ := g.exists_led_reversePostorder
  have hmem : b ∈ rest := by
    have := mem_reversePostorder_iff_reachable.mpr hb
    rw [horder, List.mem_cons] at this
    exact this.resolve_left hne
  obtain ⟨as, bs, rfl, p, hp, hedge⟩ := hled.exists_before hmem
  have hsplit : g.reversePostorder = (g.entry :: as) ++ b :: bs := horder
  have hp' : p ∈ g.entry :: as := by
    rcases hp with hp | hp
    · exact List.mem_cons_of_mem _ hp
    · simpa using Or.inl hp
  refine ⟨p, ?_, ⟨hedge, hb.lt_size⟩, (mem_before_iff hsplit).mp hp'⟩
  exact mem_reversePostorder_iff_reachable.mp (hsplit ▸ List.mem_append_left _ hp')

end FlowGraph

namespace Dominance

variable {g : FlowGraph} {parents : Parents}

/-! ### Ancestors -/

/-- `a` is `b` itself or one of its **ancestors**. -/
inductive Above (parents : Parents) (a : Nat) : Nat → Prop
  | refl : Above parents a a
  | up {b c : Nat} : parentOf parents b = some c → Above parents a c → Above parents a b

/-- Ancestors of ancestors are ancestors. -/
theorem Above.trans {a b c : Nat} (h : Above parents a b) (h' : Above parents b c) :
    Above parents a c := by
  induction h' with
  | refl => exact h
  | up hc _ ih => exact .up hc ih

/-- An ancestor of a block other than itself is an ancestor of the parent. -/
theorem Above.of_ne {a b : Nat} (h : Above parents a b) (hne : a ≠ b) :
    ∃ c, parentOf parents b = some c ∧ Above parents a c := by
  cases h with
  | refl => exact absurd rfl hne
  | up hc h => exact ⟨_, hc, h⟩

/-- The parent of a block after one block has been given a new one. -/
theorem parentOf_set (parents : Parents) (id : Nat) (p : Option Nat) (b : Nat)
    (hid : id < parents.length) :
    parentOf (parents.set id p) b = if b = id then p else parentOf parents b := by
  by_cases h : b = id
  · subst h
    simp [parentOf, hid]
  · rw [if_neg h, parentOf, parentOf, List.getElem?_set_ne (Ne.symm h)]

/-- A new parent somewhere else does not change the ancestors of a block. -/
theorem above_set_iff {id : Nat} {p : Option Nat} (hid : id < parents.length) {a b : Nat}
    (hb : ¬ Above parents id b) : Above (parents.set id p) a b ↔ Above parents a b := by
  constructor
  · intro h
    induction h with
    | refl => exact .refl
    | @up b c hc _ ih =>
        have hne : b ≠ id := fun h => hb (h ▸ .refl)
        rw [parentOf_set _ _ _ _ hid, if_neg hne] at hc
        exact .up hc (ih fun h => hb (.up hc h))
  · intro h
    induction h with
    | refl => exact .refl
    | @up b c hc _ ih =>
        have hne : b ≠ id := fun h => hb (h ▸ .refl)
        refine .up ?_ (ih fun h => hb (.up hc h))
        rw [parentOf_set _ _ _ _ hid, if_neg hne]
        exact hc

/-- After a new parent was given to one block, an ancestor is an old one or is found through
that block. -/
theorem Above.of_set {id : Nat} {p : Option Nat} (hid : id < parents.length) {a b : Nat}
    (h : Above (parents.set id p) a b) :
    Above parents a b ∨ Above parents id b ∧ Above (parents.set id p) a id := by
  by_cases hb : Above parents id b
  · induction h with
    | refl => exact .inl .refl
    | @up b c hc hac ih =>
        by_cases hne : b = id
        · have hup : Above (parents.set id p) a b := .up hc hac
          exact .inr ⟨hb, hne ▸ hup⟩
        · have hc' := hc
          rw [parentOf_set _ _ _ _ hid, if_neg hne] at hc'
          obtain ⟨c', hc'', hid'⟩ := hb.of_ne (Ne.symm hne)
          obtain rfl : c' = c := Option.some.inj (hc''.symm.trans hc')
          rcases ih hid' with h | ⟨-, h⟩
          · exact .inl (.up hc' h)
          · exact .inr ⟨hb, h⟩
  · exact .inl ((above_set_iff hid hb).mp h)

/-! ### The invariant -/

/-- The **invariant** of the parents while dominators are being found. -/
structure Forest (g : FlowGraph) (parents : Parents) : Prop where
  length_eq : parents.length = g.size
  root : parentOf parents g.entry = some g.entry
  reachable : ∀ b, (parentOf parents b).isSome → g.Reachable b
  descends : ∀ b c, b ≠ g.entry → parentOf parents b = some c →
    g.position c < g.position b ∧ (parentOf parents c).isSome
  /-- A parent is dominated by whatever strictly dominates the child. -/
  shelters : ∀ b c, b ≠ g.entry → parentOf parents b = some c →
    ∀ a, g.StrictlyDominates a b → g.Dominates a c

namespace Forest

/-- Ancestors do not stand later than a block. -/
theorem position_le (hf : Forest g parents) {a b : Nat} (h : Above parents a b) :
    g.position a ≤ g.position b := by
  induction h with
  | refl => exact le_refl _
  | @up b c hc _ ih =>
      by_cases hne : b = g.entry
      · obtain rfl : g.entry = c := Option.some.inj (hf.root.symm.trans (hne ▸ hc))
        exact hne ▸ ih
      · exact le_of_lt (lt_of_le_of_lt ih (hf.descends b c hne hc).1)

/-- Ancestors of a block with a parent have a parent. -/
theorem isSome_of_above (hf : Forest g parents) {a b : Nat} (h : Above parents a b)
    (hb : (parentOf parents b).isSome) : (parentOf parents a).isSome := by
  induction h with
  | refl => exact hb
  | @up b c hc _ ih =>
      refine ih ?_
      by_cases hne : b = g.entry
      · obtain rfl : g.entry = c := Option.some.inj (hf.root.symm.trans (hne ▸ hc))
        simp [hf.root]
      · exact (hf.descends b c hne hc).2

/-- Two blocks that are above each other are the same. -/
theorem above_antisymm (hf : Forest g parents) {a b : Nat} (h : Above parents a b)
    (h' : Above parents b a) (ha : (parentOf parents a).isSome) : a = b :=
  FlowGraph.position_inj (hf.reachable a ha)
    (le_antisymm (hf.position_le h) (hf.position_le h'))

/-- Only the entry is above the entry. -/
theorem eq_entry_of_above (hf : Forest g parents) {a : Nat} (h : Above parents a g.entry) :
    a = g.entry := by
  by_contra hne
  have hle := hf.position_le h
  have hpos := FlowGraph.position_pos hne
  rw [FlowGraph.position_entry] at hle
  omega

/-- **Every dominator is an ancestor.** -/
theorem above_of_dominates (hf : Forest g parents) {a b : Nat}
    (hb : (parentOf parents b).isSome) (h : g.Dominates a b) : Above parents a b := by
  generalize hn : g.position b = n
  induction n using Nat.strong_induction_on generalizing b with
  | _ n ih =>
      by_cases hab : a = b
      · exact hab ▸ .refl
      by_cases hne : b = g.entry
      · exact absurd ((hne ▸ h).eq_entry.trans hne.symm) hab
      obtain ⟨c, hc⟩ := Option.isSome_iff_exists.mp hb
      obtain ⟨hlt, hsome⟩ := hf.descends b c hne hc
      exact .up hc (ih _ (hn ▸ hlt) hsome (hf.shelters b c hne hc a ⟨h, hab⟩) rfl)

/-- A dominator of a block dominates everything on the way up to it. -/
theorem dominates_of_above (hf : Forest g parents) {a b c : Nat} (hdom : g.Dominates a b)
    (hbc : Above parents c b) (hac : Above parents a c) (hb : (parentOf parents b).isSome) :
    g.Dominates a c := by
  induction hbc with
  | refl => exact hdom
  | @up b d hd hcd ih =>
      by_cases hne : b = g.entry
      · obtain rfl : g.entry = d := Option.some.inj (hf.root.symm.trans (hne ▸ hd))
        exact ih (hne ▸ hdom) (by simp [hf.root])
      by_cases hab : a = b
      · -- The way up from `a` leads back to `a` only if it does not move at all.
        have hcb : Above parents c b := .up hd hcd
        obtain rfl : b = c := hf.above_antisymm (hab ▸ hac) hcb hb
        exact hdom
      · exact ih (hf.shelters b d hne hd a ⟨hdom, hab⟩) (hf.descends b d hne hd).2

end Forest

/-! ### Nearest common ancestors -/

/-- **The loop of `meet` without a bound**: from `a` and `b` it ends with `c`. While the two are
different, the one that stands later moves up. -/
inductive Meets (order : List Nat) (parents : Parents) : Nat → Nat → Nat → Prop
  | same (a : Nat) : Meets order parents a a a
  | left {a b c : Nat} : rank order b < rank order a →
      Meets order parents (up parents a) b c → Meets order parents a b c
  | right {a b c : Nat} : rank order a < rank order b →
      Meets order parents a (up parents b) c → Meets order parents a b c

/-- `c` is the **nearest common ancestor** of the given blocks. -/
structure IsNearest (parents : Parents) (blocks : List Nat) (c : Nat) : Prop where
  above : ∀ b ∈ blocks, Above parents c b
  nearest : ∀ d, (∀ b ∈ blocks, Above parents d b) → Above parents d c

namespace Forest

/-- A block that is not first in the order moves up to an earlier one. -/
theorem up_spec (hf : Forest g parents) {a n : Nat} (ha : (parentOf parents a).isSome)
    (hlt : n < g.position a) :
    parentOf parents a = some (up parents a) ∧ (parentOf parents (up parents a)).isSome ∧
      g.position (up parents a) < g.position a := by
  obtain ⟨c, hc⟩ := Option.isSome_iff_exists.mp ha
  have hup : up parents a = c := by simp [up, hc]
  have hne : a ≠ g.entry := by
    rintro rfl
    rw [FlowGraph.position_entry] at hlt
    omega
  obtain ⟨hpos, hsome⟩ := hf.descends a c hne hc
  exact ⟨hup ▸ hc, hup ▸ hsome, hup ▸ hpos⟩

/-- **The loop ends**, and `meet` computes its result if it may move often enough. -/
theorem meets_meet (hf : Forest g parents) {bound a b : Nat}
    (ha : (parentOf parents a).isSome) (hb : (parentOf parents b).isSome)
    (hbound : g.position a + g.position b ≤ bound) :
    Meets g.reversePostorder parents a b (meet g.reversePostorder parents bound a b) := by
  induction bound generalizing a b with
  | zero =>
      obtain rfl : a = b := FlowGraph.position_inj (hf.reachable a ha) (by omega)
      exact .same a
  | succ bound ih =>
      rw [meet]
      split
      · rename_i hlt
        obtain ⟨-, hsome, hpos⟩ := hf.up_spec ha hlt
        exact .left hlt (ih hsome hb (by omega))
      · split
        · rename_i hlt
          obtain ⟨-, hsome, hpos⟩ := hf.up_spec hb hlt
          exact .right hlt (ih ha hsome (by omega))
        · rename_i hba hab
          have hpos : g.position a = g.position b :=
            le_antisymm (Nat.not_lt.mp hba) (Nat.not_lt.mp hab)
          obtain rfl : a = b := FlowGraph.position_inj (hf.reachable a ha) hpos
          exact .same a

/-- **What the loop ends with is the nearest common ancestor.** A move does not lose a common
ancestor, because the block that moves stands later than the other and so is none itself. -/
theorem isNearest_of_meets (hf : Forest g parents) {a b c : Nat}
    (ha : (parentOf parents a).isSome) (hb : (parentOf parents b).isSome)
    (h : Meets g.reversePostorder parents a b c) : IsNearest parents [a, b] c := by
  induction h with
  | same a => exact ⟨by simpa using Above.refl, fun d hd => hd a (List.mem_cons_self ..)⟩
  | @left a b c hlt _ ih =>
      obtain ⟨hup, hsome, -⟩ := hf.up_spec ha hlt
      obtain ⟨habove, hnearest⟩ := ih hsome hb
      refine ⟨?_, fun d hd => hnearest d ?_⟩
      · simp only [List.forall_mem_cons] at habove ⊢
        exact ⟨.up hup habove.1, habove.2⟩
      · simp only [List.forall_mem_cons] at hd ⊢
        refine ⟨?_, hd.2⟩
        have hne : d ≠ a := by
          rintro rfl
          exact absurd (hf.position_le hd.2.1) (Nat.not_le.mpr hlt)
        obtain ⟨c', hc', hd'⟩ := hd.1.of_ne hne
        obtain rfl : up parents a = c' := Option.some.inj (hup.symm.trans hc')
        exact hd'
  | @right a b c hlt _ ih =>
      obtain ⟨hup, hsome, -⟩ := hf.up_spec hb hlt
      obtain ⟨habove, hnearest⟩ := ih ha hsome
      refine ⟨?_, fun d hd => hnearest d ?_⟩
      · simp only [List.forall_mem_cons] at habove ⊢
        exact ⟨habove.1, .up hup habove.2.1, habove.2.2⟩
      · simp only [List.forall_mem_cons] at hd ⊢
        refine ⟨hd.1, ?_, hd.2.2⟩
        have hne : d ≠ b := by
          rintro rfl
          exact absurd (hf.position_le hd.1) (Nat.not_le.mpr hlt)
        obtain ⟨c', hc', hd'⟩ := hd.2.1.of_ne hne
        obtain rfl : up parents b = c' := Option.some.inj (hup.symm.trans hc')
        exact hd'

end Forest

end Dominance

end FlowForm
