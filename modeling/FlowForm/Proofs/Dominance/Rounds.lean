import FlowForm.Proofs.Dominance.Forest

/-!
# Rounds of Refinement

Dominators are found by going over the blocks in rounds, each block taking the nearest common
ancestor of its predecessors as its parent, until a round changes nothing. The bounds that
`settle` and `meet` carry are there to make them total. This module shows that they are never
felt: the loops without bounds, which `Settles` and the relations before it describe step by
step, end with just what `settle` returns (`settles_settled`).

Parents are overwritten within a round, so during a round the forest is partly old and partly
new, and the sets of ancestors need not shrink from one update to the next. What does grow is
what is known about paths. A **retreating** edge leads to a block that does not stand later. After
`k` rounds every ancestor of a block lies on every path to the block that has fewer than `k`
retreating edges (`Pinned`). This holds because an edge that is not retreating is followed
within one round, and a new parent for one block only lets ancestors of that block into the
others, where they lie on the part of a path that leads to that block.

A path that passes no block twice has fewer retreating edges than there are blocks, so after that
many rounds the ancestors of a block are its dominators (`exact_of_size_le`), and a further round
finds nothing to change (`Exact.round_eq`).
-/

namespace FlowForm.Dominance

variable {g : FlowGraph} {parents : Parents}

/-! ### The loops without bounds -/

/-- The predecessors of a block that have a parent. -/
def placed (g : FlowGraph) (parents : Parents) (id : Nat) : List Nat :=
  (g.preds id).filter fun p => (parentOf parents p).isSome

/-- Going through predecessors, from the ancestor found so far to the last one. -/
inductive Gathers (order : List Nat) (parents : Parents) : Nat → List Nat → Nat → Prop
  | done (c : Nat) : Gathers order parents c [] c
  | next {c p d e : Nat} {ps : List Nat} : Meets order parents p c d →
      Gathers order parents d ps e → Gathers order parents c (p :: ps) e

/-- Giving one block the parent that it should have. -/
inductive Refines (g : FlowGraph) (order : List Nat) (parents : Parents) (id : Nat) :
    Parents → Prop
  | keep : placed g parents id = [] → Refines g order parents id parents
  | replace {first c : Nat} {rest : List Nat} : placed g parents id = first :: rest →
      Gathers order parents first rest c → Refines g order parents id (parents.set id (some c))

/-- Going over the given blocks once. -/
inductive Passes (g : FlowGraph) (order : List Nat) : List Nat → Parents → Parents → Prop
  | done (parents : Parents) : Passes g order [] parents parents
  | next {id : Nat} {ids : List Nat} {p p' p'' : Parents} : Refines g order p id p' →
      Passes g order ids p' p'' → Passes g order (id :: ids) p p''

/-- **The loop over rounds without a bound**: it ends with the first round that changes
nothing. -/
inductive Settles (g : FlowGraph) (order : List Nat) : Parents → Parents → Prop
  | done {p : Parents} : Passes g order order.tail p p → Settles g order p p
  | again {p p' q : Parents} : Passes g order order.tail p p' → p' ≠ p →
      Settles g order p' q → Settles g order p q

/-! ### One block -/

/-- A predecessor with a parent has an edge to the block. -/
theorem Forest.hasEdge_of_mem_placed (hf : Forest g parents) (hagree : g.EdgesAgree)
    {b p : Nat} (hb : b < g.size) (hp : p ∈ placed g parents b) :
    g.HasEdge p b ∧ (parentOf parents p).isSome := by
  obtain ⟨hmem, hsome⟩ := List.mem_filter.mp hp
  exact ⟨hagree.hasEdge (hf.reachable p hsome).lt_size hb hmem, hsome⟩

/-- A block with an edge to another one is among its predecessors with a parent. -/
theorem mem_placed (hagree : g.EdgesAgree) {b p : Nat} (hedge : g.HasEdge p b)
    (hsome : (parentOf parents p).isSome) : p ∈ placed g parents b :=
  List.mem_filter.mpr ⟨hedge.mem_preds hagree, hsome⟩

/-- The bound on moves is large enough for all blocks. -/
theorem Forest.meets_meet_size (hf : Forest g parents) {a b : Nat}
    (ha : (parentOf parents a).isSome) (hb : (parentOf parents b).isSome) :
    Meets g.reversePostorder parents a b
      (meet g.reversePostorder parents (2 * g.size) a b) := by
  have hposa := FlowGraph.position_lt_size (hf.reachable a ha)
  have hposb := FlowGraph.position_lt_size (hf.reachable b hb)
  exact hf.meets_meet ha hb (by omega)

/-- **Going through predecessors finds their nearest common ancestor.** -/
theorem Forest.gathers_foldl (hf : Forest g parents) {c : Nat} {ps : List Nat}
    (hc : (parentOf parents c).isSome) (hps : ∀ p ∈ ps, (parentOf parents p).isSome) :
    ∃ e, ps.foldl (fun c p => meet g.reversePostorder parents (2 * g.size) p c) c = e ∧
      Gathers g.reversePostorder parents c ps e ∧ IsNearest parents (c :: ps) e := by
  induction ps generalizing c with
  | nil => exact ⟨c, rfl, .done c, by simpa using Above.refl, fun d hd => by simpa using hd⟩
  | cons p ps ih =>
      have hp := hps p (List.mem_cons_self ..)
      have hmeets := hf.meets_meet_size hp hc
      have hmeet := hf.isNearest_of_meets hp hc hmeets
      set d := meet g.reversePostorder parents (2 * g.size) p c
      have hd : (parentOf parents d).isSome :=
        hf.isSome_of_above (hmeet.above p (List.mem_cons_self ..)) hp
      obtain ⟨e, hfold, hgathers, habove, hnearest⟩ :=
        ih hd fun q hq => hps q (List.mem_cons_of_mem _ hq)
      refine ⟨e, hfold, .next hmeets hgathers, ?_, ?_⟩
      · simp only [List.forall_mem_cons] at habove ⊢
        exact ⟨habove.1.trans (hmeet.above c (by simp)),
          habove.1.trans (hmeet.above p (by simp)), habove.2⟩
      · intro x hx
        simp only [List.forall_mem_cons] at hx
        refine hnearest x ?_
        simp only [List.forall_mem_cons]
        exact ⟨hmeet.nearest x (by simpa using ⟨hx.2.1, hx.1⟩), hx.2.2⟩

/-- **What refining a block does**: as soon as an earlier predecessor has a parent, the block gets
the nearest common ancestor of its predecessors, and that stands before it. -/
theorem Forest.refine_spec (hf : Forest g parents) (hagree : g.EdgesAgree) {b p : Nat}
    (hedge : g.HasEdge p b) (hp : (parentOf parents p).isSome)
    (hlt : g.position p < g.position b) :
    ∃ c, refine g g.reversePostorder parents b = parents.set b (some c) ∧
      Refines g g.reversePostorder parents b (parents.set b (some c)) ∧
      IsNearest parents (placed g parents b) c ∧ (parentOf parents c).isSome ∧
      g.position c < g.position b := by
  have hmem := mem_placed hagree hedge hp
  obtain ⟨first, rest, hplaced⟩ := List.exists_cons_of_ne_nil (List.ne_nil_of_mem hmem)
  have hsome : ∀ q ∈ placed g parents b, (parentOf parents q).isSome := fun q hq =>
    (hf.hasEdge_of_mem_placed hagree hedge.2 hq).2
  have hsome' := hsome
  rw [hplaced, List.forall_mem_cons] at hsome'
  obtain ⟨c, hfold, hgathers, hnear⟩ := hf.gathers_foldl hsome'.1 hsome'.2
  rw [← hplaced] at hnear
  refine ⟨c, ?_, .replace hplaced hgathers, hnear, ?_, ?_⟩
  · have hcand : candidate? g g.reversePostorder parents b = some c := by
      rw [candidate?, show (g.preds b).filter _ = first :: rest from hplaced]
      exact congrArg some hfold
    simp [refine, hcand]
  · exact hf.isSome_of_above (hnear.above p hmem) hp
  · exact lt_of_le_of_lt (hf.position_le (hnear.above p hmem)) hlt

/-- **Refining keeps the forest.** A strict dominator of the block dominates its predecessors, so
it is a common ancestor of them, and it dominates whatever lies between. -/
theorem Forest.set (hf : Forest g parents) (hagree : g.EdgesAgree) {b c p : Nat}
    (hedge : g.HasEdge p b) (hp : (parentOf parents p).isSome)
    (hnear : IsNearest parents (placed g parents b) c)
    (hlt : g.position c < g.position b) : Forest g (parents.set b (some c)) := by
  have hmem := mem_placed hagree hedge hp
  have hreach := (hf.reachable p hp).step hedge
  have hlen : b < parents.length := hf.length_eq ▸ hedge.2
  have hne : b ≠ g.entry := by
    rintro rfl
    rw [FlowGraph.position_entry] at hlt
    omega
  have hc := hf.isSome_of_above (hnear.above p hmem) hp
  have hsome : ∀ d, (parentOf parents d).isSome →
      (parentOf (parents.set b (some c)) d).isSome := by
    intro d hd
    rw [parentOf_set _ _ _ _ hlen]
    split
    · rfl
    · exact hd
  refine ⟨by rw [List.length_set, hf.length_eq], ?_, ?_, ?_, ?_⟩
  · rw [parentOf_set _ _ _ _ hlen, if_neg (Ne.symm hne)]
    exact hf.root
  · intro d hd
    rw [parentOf_set _ _ _ _ hlen] at hd
    split at hd
    · rename_i hdb
      exact hdb ▸ hreach
    · exact hf.reachable d hd
  · intro d e hde he
    rw [parentOf_set _ _ _ _ hlen] at he
    split at he
    · rename_i hdb
      obtain rfl : c = e := Option.some.inj he
      exact ⟨hdb ▸ hlt, hsome c hc⟩
    · exact (hf.descends d e hde he).imp_right (hsome e)
  · intro d e hde he a ha
    rw [parentOf_set _ _ _ _ hlen] at he
    split at he
    · rename_i hdb
      obtain rfl : c = e := Option.some.inj he
      have hpred : ∀ q ∈ placed g parents b, Above parents a q := by
        intro q hq
        obtain ⟨hq', hqs⟩ := hf.hasEdge_of_mem_placed hagree hedge.2 hq
        exact hf.above_of_dominates hqs ((hdb ▸ ha).dominates_pred (hf.reachable q hqs) hq')
      exact hf.dominates_of_above ((hdb ▸ ha).dominates_pred (hf.reachable p hp) hedge)
        (hnear.above p hmem) (hnear.nearest a hpred) hp
    · exact hf.shelters d e hde he a ha

/-! ### Paths by retreating edges -/

/-- A path from the entry, of whose edges at most `k` are retreating. -/
inductive Walk (g : FlowGraph) : Nat → List Nat → Nat → Prop
  | start : Walk g 0 [g.entry] g.entry
  | forward {k u v : Nat} {π : List Nat} : Walk g k π u → g.HasEdge u v →
      g.position u < g.position v → Walk g k (π ++ [v]) v
  | back {k u v : Nat} {π : List Nat} : Walk g k π u → g.HasEdge u v →
      Walk g (k + 1) (π ++ [v]) v

/-- Forgetting the count of retreating edges. -/
theorem Walk.path {k b : Nat} {π : List Nat} (h : Walk g k π b) : g.Path g.entry π b := by
  induction h with
  | start => exact .start
  | forward _ hedge _ ih => exact ih.step hedge
  | back _ hedge ih => exact ih.step hedge

/-- No path has more retreating edges than edges. -/
theorem exists_walk {b : Nat} {π : List Nat} (h : g.Path g.entry π b) :
    ∃ k, Walk g k π b ∧ k + 1 = π.length := by
  induction h with
  | start => exact ⟨0, .start, rfl⟩
  | step _ hedge ih =>
      obtain ⟨k, hwalk, hk⟩ := ih
      exact ⟨k + 1, hwalk.back hedge, by simp [hk]⟩

/-- A walk can be cut off at any block that it contains. -/
theorem Walk.exists_initial {k b c : Nat} {π : List Nat} (h : Walk g k π b) (hc : c ∈ π) :
    ∃ j ρ, j ≤ k ∧ Walk g j ρ c ∧ ρ ⊆ π := by
  induction h with
  | start =>
      obtain rfl : c = g.entry := by simpa using hc
      exact ⟨0, _, le_refl _, .start, List.Subset.refl _⟩
  | @forward k u v π hwalk hedge hlt ih =>
      rcases List.mem_append.mp hc with hc | hc
      · obtain ⟨j, ρ, hj, hρ, hsub⟩ := ih hc
        exact ⟨j, ρ, hj, hρ, fun x hx => List.mem_append_left _ (hsub hx)⟩
      · obtain rfl : c = v := by simpa using hc
        exact ⟨k, _, le_refl _, hwalk.forward hedge hlt, List.Subset.refl _⟩
  | @back k u v π hwalk hedge ih =>
      rcases List.mem_append.mp hc with hc | hc
      · obtain ⟨j, ρ, hj, hρ, hsub⟩ := ih hc
        exact ⟨j, ρ, Nat.le_succ_of_le hj, hρ, fun x hx => List.mem_append_left _ (hsub hx)⟩
      · obtain rfl : c = v := by simpa using hc
        exact ⟨k + 1, _, le_refl _, hwalk.back hedge, List.Subset.refl _⟩

/-- The ancestors of a block lie on every walk to it with **fewer than `k` retreating edges**. -/
def Pinned (g : FlowGraph) (k : Nat) (parents : Parents) (b : Nat) : Prop :=
  ∀ j π a, j < k → Walk g j π b → Above parents a b → a ∈ π

/-! ### One round -/

/-- What holds **within round `k + 1`**, when the blocks in `before` are done and those in
`after` are still to come. -/
structure Midround (g : FlowGraph) (k : Nat) (before after : List Nat) (parents : Parents) :
    Prop where
  forest : Forest g parents
  order : g.reversePostorder = before ++ after
  entry_mem : g.entry ∈ before
  before_placed : ∀ b ∈ before, (parentOf parents b).isSome
  /-- From the second round on every block has a parent. -/
  after_placed : 0 < k → ∀ b ∈ after, (parentOf parents b).isSome
  before_pinned : ∀ b ∈ before, Pinned g (k + 1) parents b
  after_pinned : ∀ b ∈ after, Pinned g k parents b

namespace Midround

variable {k b : Nat} {before after : List Nat}

/-- A block still to come is reachable, is not the entry, and has an earlier predecessor that is
done. -/
theorem exists_pred (h : Midround g k before (b :: after) parents) :
    b ≠ g.entry ∧ ∃ p ∈ before, g.HasEdge p b ∧ g.position p < g.position b := by
  have hb : g.Reachable b :=
    FlowGraph.mem_reversePostorder_iff_reachable.mp (h.order ▸ by simp)
  have hne : b ≠ g.entry := by
    rintro rfl
    exact absurd ((FlowGraph.mem_before_iff h.order).mp h.entry_mem) (lt_irrefl _)
  obtain ⟨p, -, hedge, hlt⟩ := FlowGraph.exists_earlier_pred hb hne
  exact ⟨hne, p, (FlowGraph.mem_before_iff h.order).mpr hlt, hedge, hlt⟩

/-- The blocks from which a walk enters the next block have a parent, and their ancestors lie on
the walk. -/
theorem pinned_pred (h : Midround g k before (b :: after) parents) {j u : Nat} {π : List Nat}
    (hwalk : Walk g j π u) (hj : j < k ∨ j < k + 1 ∧ g.position u < g.position b) :
    (parentOf parents u).isSome ∧ ∀ a, Above parents a u → a ∈ π := by
  have hu : u ∈ before ++ b :: after := by
    rw [← h.order]
    exact FlowGraph.mem_reversePostorder_iff_reachable.mpr ⟨π, hwalk.path⟩
  rcases List.mem_append.mp hu with hu | hu
  · exact ⟨h.before_placed u hu, fun a => h.before_pinned u hu j π a (by omega) hwalk⟩
  · rcases hj with hj | ⟨hj, hlt⟩
    · exact ⟨h.after_placed (by omega) u hu, fun a => h.after_pinned u hu j π a hj hwalk⟩
    · have hmem := (FlowGraph.mem_before_iff h.order).mpr hlt
      exact ⟨h.before_placed u hmem, fun a => h.before_pinned u hmem j π a hj hwalk⟩

/-- **One step of a round.** -/
theorem refine_next (hagree : g.EdgesAgree) (h : Midround g k before (b :: after) parents) :
    Refines g g.reversePostorder parents b (refine g g.reversePostorder parents b) ∧
      Midround g k (before ++ [b]) after (refine g g.reversePostorder parents b) := by
  obtain ⟨hne, p, hp, hedge, hlt⟩ := h.exists_pred
  have hps := h.before_placed p hp
  obtain ⟨c, hrefine, hrefines, hnear, hc, hclt⟩ :=
    h.forest.refine_spec hagree hedge hps hlt
  have hforest := h.forest.set hagree hedge hps hnear hclt
  have hlen : b < parents.length := h.forest.length_eq ▸ hedge.2
  rw [hrefine]
  refine ⟨hrefines, hforest, ?_, List.mem_append_left _ h.entry_mem, ?_, ?_, ?_, ?_⟩
  · rw [h.order, List.append_assoc, List.singleton_append]
  · intro d hd
    rw [parentOf_set _ _ _ _ hlen]
    split
    · rfl
    · rename_i hdb
      exact h.before_placed d ((List.mem_append.mp hd).resolve_right (by simpa using hdb))
  · intro hk d hd
    rw [parentOf_set _ _ _ _ hlen]
    split
    · rfl
    · exact h.after_placed hk d (List.mem_cons_of_mem _ hd)
  all_goals
    -- What stands before the block is not below it, so its ancestors are as they were.
    have hkeep : ∀ {a d : Nat}, g.position d < g.position b →
        (Above (parents.set b (some c)) a d ↔ Above parents a d) := fun hd =>
      above_set_iff hlen fun hbd => absurd (h.forest.position_le hbd) (Nat.not_le.mpr hd)
    have hself : Pinned g (k + 1) (parents.set b (some c)) b := by
      intro j π a hj hwalk ha
      by_cases hab : a = b
      · exact hab ▸ hwalk.path.last_mem
      obtain ⟨c', hc', hac⟩ := ha.of_ne hab
      rw [parentOf_set _ _ _ _ hlen, if_pos rfl] at hc'
      obtain rfl : c = c' := Option.some.inj hc'
      have hac := (hkeep hclt).mp hac
      cases hwalk with
      | start => exact absurd rfl hne
      | forward hwalk hedge' hlt' =>
          obtain ⟨hsome, hmem⟩ := h.pinned_pred hwalk (.inr ⟨hj, hlt'⟩)
          exact List.mem_append_left _
            (hmem a (hac.trans (hnear.above _ (mem_placed hagree hedge' hsome))))
      | back hwalk hedge' =>
          obtain ⟨hsome, hmem⟩ := h.pinned_pred hwalk (.inl (by omega))
          exact List.mem_append_left _
            (hmem a (hac.trans (hnear.above _ (mem_placed hagree hedge' hsome))))
  · intro d hd
    rcases List.mem_append.mp hd with hd | hd
    · intro j π a hj hwalk ha
      have hdlt := (FlowGraph.mem_before_iff h.order).mp hd
      exact h.before_pinned d hd j π a hj hwalk ((hkeep hdlt).mp ha)
    · obtain rfl : d = b := by simpa using hd
      exact hself
  · intro d hd j π a hj hwalk ha
    have hpinned := h.after_pinned d (List.mem_cons_of_mem _ hd)
    rcases ha.of_set hlen with ha | ⟨hbd, ha⟩
    · exact hpinned j π a hj hwalk ha
    · -- The block itself lies on the walk, and the ancestor on the part that leads to it.
      obtain ⟨i, ρ, hi, hρ, hsub⟩ := hwalk.exists_initial (hpinned j π b hj hwalk hbd)
      exact hsub (hself i ρ a (by omega) hρ ha)

/-- **Part of a round**, from any point in it to any later one. -/
theorem foldl_refine (hagree : g.EdgesAgree) {ids : List Nat}
    (h : Midround g k before (ids ++ after) parents) :
    Passes g g.reversePostorder ids parents (ids.foldl (refine g g.reversePostorder) parents) ∧
      Midround g k (before ++ ids) after (ids.foldl (refine g g.reversePostorder) parents) := by
  induction ids generalizing before parents with
  | nil => exact ⟨.done parents, by simpa using h⟩
  | cons b ids ih =>
      obtain ⟨hrefines, hnext⟩ := h.refine_next hagree
      obtain ⟨hpasses, hend⟩ := ih hnext
      refine ⟨.next hrefines hpasses, ?_⟩
      rw [List.append_assoc, List.singleton_append] at hend
      exact hend

end Midround

/-- What holds **after `k` rounds**. -/
abbrev AfterRounds (g : FlowGraph) (k : Nat) (parents : Parents) : Prop :=
  Midround g k [g.entry] g.reversePostorder.tail parents

/-- The ancestors of the entry are known from the beginning. -/
theorem Forest.pinned_entry (hf : Forest g parents) (k : Nat) : Pinned g k parents g.entry := by
  intro j π a _ hwalk ha
  exact hf.eq_entry_of_above ha ▸ hwalk.path.first_mem

/-- **A round leads from one number of rounds to the next.** -/
theorem AfterRounds.round (hagree : g.EdgesAgree) {k : Nat} (h : AfterRounds g k parents) :
    Passes g g.reversePostorder g.reversePostorder.tail parents
        (round g g.reversePostorder parents) ∧
      AfterRounds g (k + 1) (round g g.reversePostorder parents) := by
  have hwhole : Midround g k [g.entry] (g.reversePostorder.tail ++ []) parents := by
    rw [List.append_nil]
    exact h
  obtain ⟨hpasses, hend⟩ := Midround.foldl_refine hagree hwhole
  have hmem : ∀ b ∈ g.reversePostorder.tail, b ∈ [g.entry] ++ g.reversePostorder.tail :=
    fun b hb => List.mem_append_right _ hb
  refine ⟨hpasses, hend.forest, g.reversePostorder_eq_entry_cons, List.mem_cons_self .., ?_, ?_,
    ?_, ?_⟩
  · intro b hb
    obtain rfl : b = g.entry := by simpa using hb
    exact hend.before_placed _ hend.entry_mem
  · exact fun _ b hb => hend.before_placed b (hmem b hb)
  · intro b hb
    obtain rfl : b = g.entry := by simpa using hb
    exact hend.forest.pinned_entry _
  · exact fun b hb => hend.before_pinned b (hmem b hb)

/-! ### All rounds -/

/-- Before the first round only the entry has a parent. -/
theorem parentOf_initial (g : FlowGraph) (b : Nat) :
    parentOf (initial g) b = if b = g.entry then some g.entry else none := by
  rw [initial, parentOf_set _ _ _ _ (by simpa using g.entry_lt_size)]
  split
  · rfl
  · rw [parentOf]
    rw [List.getElem?_replicate]
    split <;> rfl

/-- The rounds start with a forest. -/
theorem forest_initial (g : FlowGraph) : Forest g (initial g) where
  length_eq := by simp [initial]
  root := by rw [parentOf_initial, if_pos rfl]
  reachable := by
    intro b hb
    rw [parentOf_initial] at hb
    split at hb
    · rename_i h
      exact h ▸ g.reachable_entry
    · simp at hb
  descends := by
    intro b c hne hc
    rw [parentOf_initial, if_neg hne] at hc
    simp at hc
  shelters := by
    intro b c hne hc
    rw [parentOf_initial, if_neg hne] at hc
    simp at hc

/-- Before the first round nothing is known but the ancestors of the entry. -/
theorem afterRounds_initial (g : FlowGraph) : AfterRounds g 0 (initial g) where
  forest := forest_initial g
  order := g.reversePostorder_eq_entry_cons
  entry_mem := List.mem_cons_self ..
  before_placed := by
    intro b hb
    obtain rfl : b = g.entry := by simpa using hb
    simp [(forest_initial g).root]
  after_placed := fun h => absurd h (lt_irrefl 0)
  before_pinned := by
    intro b hb
    obtain rfl : b = g.entry := by simpa using hb
    exact (forest_initial g).pinned_entry _
  after_pinned := fun _ _ j _ _ hj => absurd hj (Nat.not_lt_zero j)

/-- Parents are **exact** when the ancestors of every reachable block are its dominators. -/
structure Exact (g : FlowGraph) (parents : Parents) : Prop where
  forest : Forest g parents
  placed : ∀ b, g.Reachable b → (parentOf parents b).isSome
  above_iff : ∀ a b, g.Reachable b → (Above parents a b ↔ g.Dominates a b)

/-- **After as many rounds as there are blocks the parents are exact.** -/
theorem exact_of_size_le {k : Nat} (h : AfterRounds g k parents) (hk : g.size ≤ k) :
    Exact g parents := by
  have hpos := g.size_pos
  have hlisted : ∀ b, g.Reachable b → b = g.entry ∨ b ∈ g.reversePostorder.tail := by
    intro b hb
    have hmem := FlowGraph.mem_reversePostorder_iff_reachable.mpr hb
    rw [g.reversePostorder_eq_entry_cons] at hmem
    exact List.mem_cons.mp hmem
  have hplaced : ∀ b, g.Reachable b → (parentOf parents b).isSome := by
    intro b hb
    rcases hlisted b hb with rfl | hb
    · exact h.before_placed _ h.entry_mem
    · exact h.after_placed (by omega) b hb
  have hpinned : ∀ b, g.Reachable b → Pinned g k parents b := by
    intro b hb
    rcases hlisted b hb with rfl | hb
    · exact h.forest.pinned_entry k
    · exact h.after_pinned b hb
  refine ⟨h.forest, hplaced, fun a b hb => ⟨fun ha => ?_, fun ha => ?_⟩⟩
  · have hreach := h.forest.reachable a (h.forest.isSome_of_above ha (hplaced b hb))
    refine ⟨hreach, hb, fun π hπ => ?_⟩
    obtain ⟨ρ, hρ, hnodup, hsub⟩ := hπ.exists_nodup
    have hids : ρ ⊆ g.ids := fun x hx => FlowGraph.mem_ids.mpr (hρ.reachable_of_mem hx).lt_size
    have hlen : ρ.length ≤ g.size := by
      simpa [FlowGraph.ids] using (hnodup.subperm hids).length_le
    obtain ⟨j, hwalk, hj⟩ := exists_walk hρ
    exact hsub (hpinned b hb j ρ a (by omega) hwalk ha)
  · exact h.forest.above_of_dominates (hplaced b hb) ha

namespace Exact

/-- In an exact forest a parent is the **immediate dominator** of its child. -/
theorem isImmediateDominator (h : Exact g parents) {b c : Nat} (hne : b ≠ g.entry)
    (hc : parentOf parents b = some c) : g.IsImmediateDominator c b := by
  have hb : g.Reachable b := h.forest.reachable b (by simp [hc])
  obtain ⟨hlt, -⟩ := h.forest.descends b c hne hc
  have hcb : c ≠ b := by
    rintro rfl
    exact absurd hlt (lt_irrefl _)
  refine ⟨⟨(h.above_iff c b hb).mp (.up hc .refl), hcb⟩, fun a ha _ => ?_⟩
  exact h.forest.shelters b c hne hc a ha

/-- There is only one immediate dominator. -/
theorem immediateDominator_unique (h : Exact g parents) {b c d : Nat}
    (hc : g.IsImmediateDominator c b) (hd : g.IsImmediateDominator d b) : c = d := by
  by_contra hne
  have hcd := hd.2 c hc.1 hne
  have hdc := hc.2 d hd.1 (Ne.symm hne)
  exact hne (h.forest.above_antisymm ((h.above_iff c d hcd.2.1).mpr hcd)
    ((h.above_iff d c hdc.2.1).mpr hdc) (h.placed c hcd.1))

/-- **Exact parents are not refined any further.** The parent that a block would get dominates
its predecessors, hence the block itself, and is dominated by the parent that it has. -/
theorem refine_eq (h : Exact g parents) (hagree : g.EdgesAgree) {b : Nat}
    (hb : g.Reachable b) (hne : b ≠ g.entry) :
    refine g g.reversePostorder parents b = parents ∧
      Refines g g.reversePostorder parents b parents := by
  obtain ⟨p, hp, hedge, hlt⟩ := FlowGraph.exists_earlier_pred hb hne
  obtain ⟨c, hrefine, hrefines, hnear, hc, hclt⟩ :=
    h.forest.refine_spec hagree hedge (h.placed p hp) hlt
  have hforest := h.forest.set hagree hedge (h.placed p hp) hnear hclt
  have hlen : b < parents.length := h.forest.length_eq ▸ hedge.2
  obtain ⟨d, hd⟩ := Option.isSome_iff_exists.mp (h.placed b hb)
  have hcb : g.StrictlyDominates c b := by
    refine ⟨FlowGraph.dominates_of_forall_pred hb hne fun q hq hqb => ?_, ?_⟩
    · exact (h.above_iff c q hq).mp (hnear.above q (mem_placed hagree hqb (h.placed q hq)))
    · rintro rfl
      exact absurd hclt (lt_irrefl _)
  have himm := h.isImmediateDominator hne hd
  have hcd : g.IsImmediateDominator c b := by
    refine ⟨hcb, fun a ha _ => hforest.shelters b c hne ?_ a ha⟩
    rw [parentOf_set _ _ _ _ hlen, if_pos rfl]
  obtain rfl : c = d := h.immediateDominator_unique hcd himm
  have hset : parents.set b (some c) = parents := by
    have hget : parents[b] = some c := by
      simpa [parentOf, List.getElem?_eq_getElem hlen] using hd
    rw [← hget, List.set_getElem_self]
  rw [hset] at hrefine hrefines
  exact ⟨hrefine, hrefines⟩

/-- A round over exact parents changes nothing. -/
theorem round_eq (h : Exact g parents) (hagree : g.EdgesAgree) :
    round g g.reversePostorder parents = parents := by
  have hall : ∀ bs : List Nat, (∀ b ∈ bs, g.Reachable b ∧ b ≠ g.entry) →
      bs.foldl (refine g g.reversePostorder) parents = parents := by
    intro bs hbs
    induction bs with
    | nil => rfl
    | cons b bs ih =>
        obtain ⟨⟨hb, hne⟩, hbs⟩ := List.forall_mem_cons.mp hbs
        rw [List.foldl_cons, (h.refine_eq hagree hb hne).1]
        exact ih hbs
  refine hall _ fun b hb => ⟨?_, ?_⟩
  · exact FlowGraph.mem_reversePostorder_iff_reachable.mp (List.mem_of_mem_tail hb)
  · have hnodup := g.nodup_reversePostorder
    rw [g.reversePostorder_eq_entry_cons, List.nodup_cons] at hnodup
    rintro rfl
    exact hnodup.1 hb

end Exact

/-- A round that changes nothing is the last one. -/
theorem settle_succ (g : FlowGraph) (order : List Nat) (bound : Nat) (parents : Parents) :
    settle g order (bound + 1) parents =
      if round g order parents = parents then parents
      else settle g order bound (round g order parents) := rfl

/-- **The loop over rounds ends**, and `settle` computes its result if it may go on long enough.
The result is exact. -/
theorem AfterRounds.settle (hagree : g.EdgesAgree) {bound k : Nat}
    (h : AfterRounds g k parents) (hbound : g.size + 1 ≤ k + bound) :
    Settles g g.reversePostorder parents (settle g g.reversePostorder bound parents) ∧
      Exact g (settle g g.reversePostorder bound parents) := by
  induction bound generalizing k parents with
  | zero =>
      have hexact := exact_of_size_le h (by omega)
      obtain ⟨hpasses, -⟩ := h.round hagree
      rw [hexact.round_eq hagree] at hpasses
      exact ⟨.done hpasses, hexact⟩
  | succ bound ih =>
      obtain ⟨hpasses, hnext⟩ := h.round hagree
      rw [settle_succ]
      by_cases heq : Dominance.round g g.reversePostorder parents = parents
      · rw [if_pos heq]
        rw [heq] at hpasses
        refine ⟨.done hpasses, ?_⟩
        -- Parents that a round does not change are those after any number of further rounds.
        have hmore : ∀ n, AfterRounds g (k + n) parents := by
          intro n
          induction n with
          | zero => exact h
          | succ n ih => exact heq ▸ (ih.round hagree).2
        exact exact_of_size_le (hmore g.size) (Nat.le_add_left ..)
      · rw [if_neg heq]
        obtain ⟨hsettles, hexact⟩ := ih hnext (by omega)
        exact ⟨.again hpasses heq hsettles, hexact⟩

/-- The parents that the dominator tree is read off. -/
def settled (g : FlowGraph) : Parents :=
  settle g g.reversePostorder (g.size * g.size + 1) (initial g)

/-- The bound on rounds is large enough. -/
theorem settles_settled (hagree : g.EdgesAgree) :
    Settles g g.reversePostorder (initial g) (settled g) ∧ Exact g (settled g) := by
  refine (afterRounds_initial g).settle hagree ?_
  have hle := Nat.le_mul_of_pos_left g.size g.size_pos
  omega

end FlowForm.Dominance
