import Mathlib
import FlowForm.Proofs.Ssa.Construction

/-!
# Construction Has Enough Versions

Construction counts the versions that it is going to need before it starts, and afterwards it never
runs out of them. `Costs n x` says that the step `x` goes through whenever `n` versions are left
and uses up exactly these, and that it fails with fewer. Steps in sequence cost the sum of what they
cost, so that renaming a block costs one version for each of its placeholders and definitions, and
the walk over the dominator tree the sum of that over its blocks (`demand`).

The sum is the count. The walk visits each reachable block once, so its definitions are those
counted, and a block gets a placeholder from a site if and only if the site lists the block.

The count is therefore **exact**: renaming would fail halfway if and only if the check beforehand
refuses to start it (`rename_eq_error_iff`), and so a build never stops in the middle of its changes
(`state_of_build_error`).

## Main results

* `costs_renameGraph`: what renaming needs in all.
* `sum_demand`: it is what has been counted.
* `exists_construct`: renaming and construction go through if the versions counted are there.
* `rename_eq_error_iff`: renaming fails without them.
* `state_of_build_error`: a build that fails has changed nothing.
* `advance_construct`: construction that goes through uses up the versions counted.
-/

namespace FlowForm.Ssa

open DominatorTree

variable {α β : Type}

/-! ### What steps need -/

/-- A step **costs** `n` versions if it goes through whenever so many are left and uses up exactly
these, and fails for lack of versions otherwise. -/
structure Costs (n : Nat) (x : Rename α) : Prop where
  enough : ∀ p, n ≤ p.counter.remaining → ∃ a r, x.run p = .ok (a, r) ∧
    p.counter.remaining = r.counter.remaining + n
  short : ∀ p, p.counter.remaining < n → x.run p = .error .versionsExhausted

/-- A step that always goes through and draws nothing. -/
theorem costs_zero {x : Rename α}
    (h : ∀ p, ∃ a r, x.run p = .ok (a, r) ∧ r.counter = p.counter) : Costs 0 x where
  enough p _ := by
    obtain ⟨a, r, hrun, hr⟩ := h p
    exact ⟨a, r, hrun, by rw [hr, Nat.add_zero]⟩
  short p hp := absurd hp (Nat.not_lt_zero _)

/-- Returning a value costs nothing. -/
theorem costs_pure (a : α) : Costs 0 (pure a) :=
  costs_zero fun p => ⟨a, p, rfl, rfl⟩

/-- Two steps in sequence cost what both of them cost. -/
theorem Costs.bind {m n : Nat} {x : Rename α} {f : α → Rename β} (hx : Costs m x)
    (hf : ∀ a, Costs n (f a)) : Costs (m + n) (x >>= f) where
  enough p hp := by
    obtain ⟨a, q, hrun, hq⟩ := hx.enough p (by omega)
    obtain ⟨b, r, hrun', hr⟩ := (hf a).enough q (by omega)
    exact ⟨b, r, run_bind_eq_ok.mpr ⟨a, q, hrun, hrun'⟩, by omega⟩
  short p hp := by
    rw [StateT.run_bind]
    rcases Nat.lt_or_ge p.counter.remaining m with hless | henough
    · rw [hx.short p hless]
      rfl
    · -- The first step goes through, and leaves too little for the second.
      obtain ⟨a, q, hrun, hq⟩ := hx.enough p henough
      rw [hrun]
      exact (hf a).short q (by omega)

/-- A step that needs nothing, followed by another one. -/
theorem Costs.after {n : Nat} {x : Rename α} {f : α → Rename β} (hx : Costs 0 x)
    (hf : ∀ a, Costs n (f a)) : Costs n (x >>= f) := by
  have h := hx.bind hf
  rwa [Nat.zero_add] at h

/-- A step followed by one that needs nothing. -/
theorem Costs.before {n : Nat} {x : Rename α} {f : α → Rename β} (hx : Costs n x)
    (hf : ∀ a, Costs 0 (f a)) : Costs n (x >>= f) :=
  hx.bind hf

/-- Changing the counts needs nothing. -/
theorem costs_modify {f : Progress → Progress} (hf : ∀ p, (f p).counter = p.counter) :
    Costs 0 (modify f) :=
  costs_zero fun p => ⟨⟨⟩, f p, rfl, hf p⟩

/-- Counting uses needs nothing. -/
theorem costs_countUses (n : Nat) : Costs 0 (countUses n) :=
  costs_modify fun _ => rfl

/-- **Drawing** needs one version. -/
theorem costs_draw : Costs 1 draw where
  enough p hp := by
    rw [Counter.remaining] at hp
    have hlt : p.counter.current < maxVersion := by omega
    let counter : Counter := { current := p.counter.current + 1, current_le := hlt }
    have hnext : p.counter.next = .ok (p.counter.current, counter) :=
      Counter.next_eq_ok_iff.mpr ⟨rfl, rfl⟩
    refine ⟨p.counter.current, { p with counter }, ?_, ?_⟩
    · rw [run_draw, hnext]
      rfl
    · change maxVersion - p.counter.current = maxVersion - (p.counter.current + 1) + 1
      omega
  short p hp := by
    have hlast : ¬ p.counter.current < maxVersion := by
      rw [Counter.remaining] at hp
      omega
    rw [run_draw, Counter.next, dif_neg hlast]
    rfl

/-- Defining a variable needs one version. -/
theorem costs_defineVar (env : Env) (v : Var) : Costs 1 (defineVar env v) :=
  costs_draw.before fun _ => costs_pure _

/-- Renaming an assignment needs one version. -/
theorem costs_renameAssignment (env : Env) (s : Assignment) :
    Costs 1 (renameAssignment env s) := by
  refine .after ((costs_countUses _).after fun _ => costs_pure _) fun value => ?_
  refine (costs_defineVar env s.target).before ?_
  rintro ⟨target, env⟩
  exact .after (costs_modify fun _ => rfl) fun _ => costs_pure _

/-- Renaming **one thing after the other** needs the sum of what each of them needs. -/
theorem costs_renameAll {rename : Env → α → Rename (α × Env)} {need : α → Nat}
    (h : ∀ env x, Costs (need x) (rename env x)) (env : Env) (xs : List α) :
    Costs (xs.map need).sum (renameAll rename env xs) := by
  induction xs generalizing env with
  | nil => exact costs_pure _
  | cons x xs ih =>
      rw [List.map_cons, List.sum_cons]
      refine (h env x).bind ?_
      rintro ⟨x, env⟩
      exact (ih env).before fun _ => costs_pure _

/-- Renaming an item needs a version for each definition. -/
theorem costs_renameItem (env : Env) (item : Item) :
    Costs item.defs.length (renameItem env item) := by
  have hneed : (item.statements.map fun _ => 1).sum = item.defs.length := by
    rw [Item.defs, List.length_map, List.map_const', List.sum_replicate_nat, Nat.mul_one]
  rw [← hneed]
  refine (costs_renameAll costs_renameAssignment env item.statements).before ?_
  rintro ⟨statements, env⟩
  exact ((costs_countUses _).after fun _ => costs_pure _).after fun _ => costs_pure _

/-- Renaming a placeholder needs one version. -/
theorem costs_renamePhi (env : Env) (phi : Phi) : Costs 1 (renamePhi env phi) :=
  (costs_defineVar env phi.var).before fun _ => costs_pure _

/-- Renaming a **block** needs a version for each placeholder and each definition. -/
theorem costs_renameBlock (env : Env) (b : Block) :
    Costs (b.phis.length + b.defs.length) (renameBlock env b) := by
  have hphis : (b.phis.map fun _ => 1).sum = b.phis.length := by
    rw [List.map_const', List.sum_replicate_nat, Nat.mul_one]
  have hdefs : (b.items.map fun item => item.defs.length).sum = b.defs.length :=
    List.length_flatMap.symm
  rw [← hphis, ← hdefs]
  refine (costs_renameAll costs_renamePhi env b.phis).bind ?_
  rintro ⟨phis, env⟩
  exact (costs_renameAll costs_renameItem env b.items).before fun _ => costs_pure _

/-! ### The walk over the tree -/

/-- The versions that renaming a block **demands**. -/
def demand (g : FlowGraph) (id : Nat) : Nat :=
  match g.block? id with
  | some b => b.phis.length + b.defs.length
  | none => 0

/-- Changing one block changes no demand but its own. -/
theorem demand_modifyBlock {g : FlowGraph} {id i : Nat} (f : Block → Block) (hne : id ≠ i) :
    demand (g.modifyBlock id f) i = demand g i := by
  rw [demand, demand, FlowGraph.block?_modifyBlock]
  simp [hne]

/-- Renaming the blocks of a walk needs what they demand in all. -/
theorem costs_renameBlocks {tree : DominatorTree} {ids : List Nat} (hnodup : ids.Nodup)
    (g : FlowGraph) (exits : Exits) :
    Costs (ids.map (demand g)).sum (renameBlocks tree ids g exits) := by
  induction ids generalizing g exits with
  | nil => exact costs_pure _
  | cons id ids ih =>
      obtain ⟨hfresh, hnodup⟩ := List.nodup_cons.mp hnodup
      rw [List.map_cons, List.sum_cons, renameBlocks, demand]
      cases g.block? id with
      | none =>
          simp only [Nat.zero_add]
          exact ih hnodup g exits
      | some b =>
          refine (costs_renameBlock _ b).bind ?_
          rintro ⟨b', env⟩
          -- The blocks that follow are other ones, so renaming this one leaves their demand.
          have hsame : ids.map (demand g) = ids.map (demand (g.modifyBlock id fun _ => b')) := by
            refine List.map_congr_left fun i hi => (demand_modifyBlock _ ?_).symm
            rintro rfl
            exact hfresh hi
          rw [hsame]
          exact ih hnodup _ _

/-- Filling in operands needs nothing. -/
theorem costs_fillOperands (exits : Exits) (ids : List Nat) (g : FlowGraph) :
    Costs 0 (fillOperands exits ids g) :=
  costs_zero fun p => ⟨_, _, run_fillOperands_eq exits ids g p, rfl⟩

/-- **Renaming a graph** needs what the blocks of the tree demand in all. -/
theorem costs_renameGraph {tree : DominatorTree} (hnodup : tree.preorder.Nodup)
    (g : FlowGraph) : Costs (tree.preorder.map (demand g)).sum (renameGraph tree g) := by
  refine (costs_renameBlocks hnodup g _).before ?_
  rintro ⟨g, exits⟩
  exact costs_fillOperands exits tree.preorder g

/-! ### What has been counted -/

variable {g : FlowGraph}

/-- The blocks of a walk get as many placeholders as their sites list, if the sites list none but
these blocks and none of them twice. -/
theorem sum_sites {ids : List Nat} (hnodup : ids.Nodup) {sites : List Site}
    (hsites : ∀ site ∈ sites, site.blocks.Nodup ∧ site.blocks ⊆ ids) :
    (ids.map fun id => (sites.filter (·.blocks.contains id)).length).sum = siteCount sites := by
  induction sites with
  | nil => simp [siteCount]
  | cons site sites ih =>
      obtain ⟨hblocks, hsub⟩ := hsites site (List.mem_cons_self ..)
      have hcons : ∀ id, ((site :: sites).filter (·.blocks.contains id)).length =
          (if site.blocks.contains id then 1 else 0) +
            (sites.filter (·.blocks.contains id)).length := by
        intro id
        rw [List.filter_cons]
        split
        · rw [List.length_cons, Nat.add_comm]
        · rw [Nat.zero_add]
      have hhere : (ids.map fun id => if site.blocks.contains id then 1 else 0).sum =
          site.blocks.length := by
        rw [List.sum_map_ite, List.map_const', List.map_const', List.sum_replicate_nat,
          List.sum_replicate_nat, Nat.mul_zero, Nat.add_zero, Nat.mul_one]
        refine ((List.perm_ext_iff_of_nodup (hnodup.filter _) hblocks).mpr fun id => ?_).length_eq
        rw [List.mem_filter, decide_eq_true_eq, List.contains_iff_mem]
        exact ⟨fun h => h.2, fun h => ⟨hsub h, h⟩⟩
      have hrest := ih fun site hsite => hsites site (List.mem_cons_of_mem _ hsite)
      rw [siteCount, List.flatMap_cons, List.length_append]
      simp only [hcons, List.sum_map_add]
      rw [hhere, hrest, siteCount]

/-- Sites list reachable blocks, and none of them twice. -/
theorem blocks_of_mem_sites (hagree : g.EdgesAgree) {site : Site}
    (hsite : site ∈ sites g (compute g)) :
    site.blocks.Nodup ∧ site.blocks ⊆ (compute g).preorder := by
  refine ⟨?_, fun id hid => ?_⟩
  · obtain ⟨x, -, rfl⟩ := List.mem_map.mp hsite
    exact Search.nodup_preorder _
  · have hneeds : Needs g id site.name := ⟨site, hsite, rfl, hid⟩
    exact (mem_preorder_iff hagree).mpr (hneeds.reachable hagree)

/-- The reachable blocks are those of the tree's preorder. -/
theorem preorder_perm (hagree : g.EdgesAgree) :
    (compute g).preorder.Perm ((reachableBlocks g (compute g)).map (·.1)) := by
  have hnodup : ((reachableBlocks g (compute g)).map (·.1)).Nodup := by
    rw [reachableBlocks, List.map_filterMap]
    refine List.Nodup.filterMap (fun i j id hi hj => ?_) List.nodup_range
    have hself : ∀ k, id ∈ Option.map (·.1) (if (compute g).isReachable k = true then
        (g.block? k).map fun b => (k, b) else none) → id = k := by
      intro k hk
      split at hk
      · cases hb : g.block? k with
        | none => simp [hb] at hk
        | some b => simpa [hb, eq_comm] using hk
      · cases hk
    rw [← hself i hi, ← hself j hj]
  refine (List.perm_ext_iff_of_nodup (nodup_preorder hagree) hnodup).mpr fun id => ?_
  rw [mem_preorder_iff hagree, List.mem_map]
  constructor
  · intro hid
    obtain ⟨b, hb⟩ := FlowGraph.exists_block? hid.lt_size
    exact ⟨(id, b), mem_reachableBlocks.mpr ⟨hid, hb⟩, rfl⟩
  · rintro ⟨⟨i, b⟩, hmem, rfl⟩
    exact (mem_reachableBlocks.mp hmem).1

/-- The blocks of the tree have as many definitions as have been counted. -/
theorem sum_defsOf (hagree : g.EdgesAgree) :
    ((compute g).preorder.map fun id => (defsOf g id).length).sum =
      definitionCount g (compute g) := by
  rw [((preorder_perm hagree).map _).sum_eq, List.map_map, definitionCount, List.length_flatMap]
  congr 1
  refine List.map_congr_left ?_
  rintro ⟨id, b⟩ hmem
  rw [Function.comp_apply, defsOf_eq (mem_reachableBlocks.mp hmem).2]

/-- What a block demands once placeholders are in place. -/
theorem demand_placed (hssa : isInSsa g = false) {id : Nat} {b : Block}
    (hb : g.block? id = some b) :
    demand (placed g) id =
      ((sites g (compute g)).filter (·.blocks.contains id)).length + (defsOf g id).length := by
  rw [demand, defsOf_eq hb, placed, placePhis, FlowGraph.block?_mapBlocks, hb]
  simp only [Option.map_some, (isInSsa_eq_false hssa hb).1, List.nil_append, List.length_map]
  rfl

/-- **What renaming demands is what has been counted.** -/
theorem sum_demand (hagree : g.EdgesAgree) (hssa : isInSsa g = false) :
    ((compute g).preorder.map (demand (placed g))).sum = versionsNeeded g := by
  have hdemand : ∀ id ∈ (compute g).preorder, demand (placed g) id =
      ((sites g (compute g)).filter (·.blocks.contains id)).length + (defsOf g id).length := by
    intro id hid
    obtain ⟨b, hb⟩ := FlowGraph.exists_block? ((mem_preorder_iff hagree).mp hid).lt_size
    exact demand_placed hssa hb
  rw [List.map_congr_left hdemand, List.sum_map_add, sum_defsOf hagree,
    sum_sites (nodup_preorder hagree) fun _ => blocks_of_mem_sites hagree, versionsNeeded]

/-! ### Construction -/

/-- Without the versions that it needs construction **fails**. -/
theorem construct_eq_versionsExhausted {counter : Counter} (hvalid : g.validate = .ok ())
    (hssa : isInSsa g = false) (hless : counter.remaining < versionsNeeded g) :
    construct g counter = .error .versionsExhausted := by
  simp [construct_eq_error_iff, run_build, hvalid, hssa, hless]

/-- With the versions that it needs **renaming goes through**, construction has its outcome, and
exactly these versions are used up. -/
theorem exists_construct {counter : Counter} (hvalid : g.validate = .ok ())
    (hssa : isInSsa g = false) (henough : versionsNeeded g ≤ counter.remaining) :
    ∃ result, (renameGraph (compute g) (placed g)).run (outset g counter) =
        .ok (result.graph, { counter := result.counter, stats := result.stats }) ∧
      construct g counter = .ok result ∧
      result.counter.current = counter.current + versionsNeeded g := by
  have hagree := FlowGraph.edgesAgree_of_validate hvalid
  have hdemand := sum_demand hagree hssa
  obtain ⟨g', r, hrun, hleft⟩ := (costs_renameGraph (nodup_preorder hagree) (placed g)).enough
    (outset g counter) (hdemand.trans_le henough)
  refine ⟨{ graph := g', counter := r.counter, stats := r.stats }, hrun, ?_, ?_⟩
  · have hrename := run_rename hagree (outset g counter)
    simp only [hrun] at hrename
    simp only [construct_eq_ok_iff, run_build, hvalid, hssa, Bool.false_eq_true, if_false,
      Nat.not_lt.mpr henough, hrename]
  · have hspent : maxVersion - counter.current =
        maxVersion - r.counter.current + versionsNeeded g := hdemand ▸ hleft
    have hbefore := counter.current_le
    have hafter := r.counter.current_le
    change r.counter.current = counter.current + versionsNeeded g
    omega

/-- **The count is exact**: renaming fails, for lack of versions, if and only if fewer are left than
have been counted. -/
theorem rename_eq_error_iff {counter : Counter} (hvalid : g.validate = .ok ())
    (hssa : isInSsa g = false) {e : SsaError} :
    ((rename (compute g) (outset g counter).stats).run.run (placed g, counter)).1 = .error e ↔
      e = .versionsExhausted ∧ counter.remaining < versionsNeeded g := by
  have hagree := FlowGraph.edgesAgree_of_validate hvalid
  have hrename := run_rename hagree (outset g counter)
  rcases Nat.lt_or_ge counter.remaining (versionsNeeded g) with hless | henough
  · have hrun := (costs_renameGraph (nodup_preorder hagree) (placed g)).short (outset g counter)
      (hless.trans_eq (sum_demand hagree hssa).symm)
    simp only [hrun] at hrename
    rw [hrename]
    exact ⟨fun h => ⟨(Except.error.inj h).symm, hless⟩, fun h => h.1 ▸ rfl⟩
  · obtain ⟨result, hrun, -⟩ := exists_construct hvalid hssa henough
    simp only [hrun] at hrename
    rw [hrename]
    refine ⟨fun h => ?_, fun h => absurd h.2 (Nat.not_lt.mpr henough)⟩
    cases h

/-- **A build that fails has changed nothing.** What is refused is refused before any change, and
what has passed the checks does not fail, as renaming has all the versions that it costs. -/
theorem state_of_build_error {counter : Counter} {e : SsaError} {s : FlowGraph × Counter}
    (h : build.run.run (g, counter) = (.error e, s)) : s = (g, counter) := by
  rw [run_build] at h
  cases hvalid : g.validate with
  | error defect =>
      simp only [hvalid] at h
      cases h
      rfl
  | ok _ =>
      simp only [hvalid] at h
      split at h
      · cases h
        rfl
      · rename_i hssa
        split at h
        · cases h
          rfl
        · rename_i henough
          have herror := congrArg Prod.fst h
          rw [rename_eq_error_iff hvalid (by simpa using hssa)] at herror
          exact absurd herror.2 henough

/-- **A build, by what construction yields.** -/
theorem run_build_eq (g : FlowGraph) (counter : Counter) :
    build.run.run (g, counter) =
      match construct g counter with
      | .ok result => (.ok result.stats, result.graph, result.counter)
      | .error e => (.error e, g, counter) := by
  cases hresult : construct g counter with
  | ok result => exact construct_eq_ok_iff.mp hresult
  | error e =>
      have herror := construct_eq_error_iff.mp hresult
      rcases hout : build.run.run (g, counter) with ⟨answer, s⟩
      rw [hout] at herror
      obtain rfl : answer = .error e := herror
      rw [state_of_build_error hout]

/-- Construction that succeeds has had the versions that it needs, and **has used them up**. -/
theorem advance_construct {counter : Counter} {result : Result}
    (h : construct g counter = .ok result) :
    result.counter.current = counter.current + versionsNeeded g := by
  obtain ⟨hvalid, hssa, -⟩ := construct_eq_ok h
  rcases Nat.lt_or_ge counter.remaining (versionsNeeded g) with hless | henough
  · rw [construct_eq_versionsExhausted hvalid hssa hless] at h
    cases h
  · obtain ⟨result', -, hresult', hadvance⟩ := exists_construct hvalid hssa henough
    rw [hresult'] at h
    cases h
    exact hadvance

end FlowForm.Ssa
