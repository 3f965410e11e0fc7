import FlowForm.Proofs.Ssa.Events

/-!
# Renaming Resolves

What renaming does to a block, read off its result: it changes nothing but versions, the
environment in which it starts **resolves** the events of the result and has been moved forward by
them at the end, the versions defined are those drawn from the counter, one after the other, and the
counts go up by what has been assigned and bound.
`Renames` says all of this for anything that has events, so that the lemma about lists
(`renames_renameAll`) serves statements, items and placeholders alike.

Blocks are renamed in an order in which no block stands before its immediate dominator. The
environment that a block starts in is therefore the final one of the dominator, and the whole walk
can be described by the environments that it ends with (`renameBlocks_spec`).

## Main results

* `renames_renameBlock`: what renaming does to one block.
* `renameBlocks_spec`: what it does to all blocks of the walk.
-/

namespace FlowForm.Ssa

variable {α β : Type} {p q r : Progress}

/-! ### Steps that succeed -/

/-- A sequence of two steps succeeds if both do. -/
theorem run_bind_eq_ok {m : Rename α} {f : α → Rename β} {b : β} :
    (m >>= f).run p = .ok (b, r) ↔ ∃ a q, m.run p = .ok (a, q) ∧ (f a).run q = .ok (b, r) := by
  rw [StateT.run_bind]
  cases hm : m.run p with
  | error e => simp [bind, Except.bind]
  | ok aq =>
      obtain ⟨a, q⟩ := aq
      constructor
      · intro h
        exact ⟨a, q, rfl, h⟩
      · rintro ⟨a', q', h, hf⟩
        cases h
        exact hf

/-- Returning a value leaves everything as it is. -/
theorem run_pure_eq_ok {a b : α} :
    (pure a : Rename α).run p = .ok (b, r) ↔ a = b ∧ p = r := by
  constructor
  · intro h
    cases h
    exact ⟨rfl, rfl⟩
  · rintro ⟨rfl, rfl⟩
    rfl

/-- A change of the counts succeeds. -/
theorem run_modify_eq_ok {f : Progress → Progress} {u : PUnit} :
    (modify f : Rename PUnit).run p = .ok (u, r) ↔ r = f p := by
  constructor
  · intro h
    cases h
    rfl
  · rintro rfl
    rfl

/-- The versions **drawn** between two points: those from where the counter stood on, in
order. -/
structure Draws (p r : Progress) (versions : List Nat) : Prop where
  versions_eq : versions = List.range' p.counter.current versions.length
  counter_eq : r.counter.current = p.counter.current + versions.length

/-- Nothing is drawn while the counter stands still. -/
theorem Draws.none (h : r.counter = p.counter) : Draws p r [] :=
  ⟨rfl, by rw [h]; rfl⟩

/-- What is drawn first and what is drawn after that. -/
theorem Draws.append {vs ws : List Nat} (h : Draws p q vs) (h' : Draws q r ws) :
    Draws p r (vs ++ ws) := by
  refine ⟨?_, ?_⟩
  · rw [List.length_append, ← List.range'_append_1, ← h.versions_eq, ← h.counter_eq,
      ← h'.versions_eq]
  · rw [h'.counter_eq, h.counter_eq, List.length_append, Nat.add_assoc]

/-- Versions are drawn in ascending order. -/
theorem Draws.pairwise {vs : List Nat} (h : Draws p r vs) : vs.Pairwise (· < ·) := by
  rw [h.versions_eq]
  exact List.pairwise_lt_range'

/-- No version is drawn twice. -/
theorem Draws.nodup {vs : List Nat} (h : Draws p r vs) : vs.Nodup :=
  h.pairwise.imp Nat.ne_of_lt

/-- What is **counted** between two points: assignments, and uses that are bound to a version.
Placeholders are counted beforehand. -/
structure Counts (p r : Progress) (definitions uses : Nat) : Prop where
  phis_eq : r.stats.phis = p.stats.phis
  definitions_eq : r.stats.definitions = p.stats.definitions + definitions
  uses_eq : r.stats.renamedUses = p.stats.renamedUses + uses

/-- Nothing is counted while the counts stand still. -/
theorem Counts.none (h : r.stats = p.stats) : Counts p r 0 0 :=
  ⟨by rw [h], by rw [h]; rfl, by rw [h]; rfl⟩

/-- What is counted first and what is counted after that. -/
theorem Counts.append {m n k l : Nat} (h : Counts p q m k) (h' : Counts q r n l) :
    Counts p r (m + n) (k + l) := by
  refine ⟨h'.phis_eq.trans h.phis_eq, ?_, ?_⟩
  · rw [h'.definitions_eq, h.definitions_eq, Nat.add_assoc]
  · rw [h'.uses_eq, h.uses_eq, Nat.add_assoc]

/-- Drawing is what the counter does. -/
theorem run_draw (p : Progress) :
    draw.run p = p.counter.next.map fun out => (out.1, { p with counter := out.2 }) := by
  simp only [draw, StateT.run_bind, StateT.run_get, pure_bind, StateT.run_monadLift,
    StateT.run_set, StateT.run_pure]
  cases p.counter.next <;> rfl

/-- Drawing yields the version that the counter stands at, and counts nothing. -/
theorem draws_draw {n : Nat} (h : draw.run p = .ok (n, r)) :
    Draws p r [n] ∧ r.stats = p.stats := by
  rw [run_draw] at h
  cases hnext : p.counter.next with
  | error e =>
      rw [hnext] at h
      cases h
  | ok out =>
      rw [hnext] at h
      cases h
      obtain ⟨hversion, hcounter⟩ := Counter.next_eq_ok_iff.mp hnext
      exact ⟨⟨congrArg (fun version => [version]) hversion, hcounter⟩, rfl⟩

/-- Counting uses draws nothing. -/
theorem counts_countUses {n : Nat} {u : Unit} (h : (countUses n).run p = .ok (u, r)) :
    r.counter = p.counter ∧ Counts p r 0 n := by
  rw [countUses, run_modify_eq_ok] at h
  rw [h]
  exact ⟨rfl, rfl, rfl, rfl⟩

/-! ### The shape of a renaming -/

/-- A step that **renames** `x` to `x'`: nothing but versions changes, the environment resolves the
result and is moved forward by it, the versions defined are those drawn, and what is counted are
the assignments and the bound uses of the result. -/
structure Renames (events : α → List Event) (defs : α → List Var) (erase : α → α) (env : Env)
    (p : Progress) (x x' : α) (env' : Env) (r : Progress) : Prop where
  erase_eq : erase x' = erase x
  resolves : env.Resolves (events x')
  env_eq : env' = env.after (events x')
  draws : Draws p r (definedVersions (events x'))
  counts : Counts p r (defs x').length (boundUses (events x'))

/-- The versions defined by one list of events after the other. -/
theorem definedVersions_append (es fs : List Event) :
    definedVersions (es ++ fs) = definedVersions es ++ definedVersions fs :=
  List.filterMap_append

/-- Uses define nothing. -/
theorem definedVersions_uses (vs : List Var) : definedVersions (vs.map .use) = [] := by
  rw [definedVersions, List.filterMap_map]
  exact List.filterMap_eq_nil_iff.mpr fun _ _ => rfl

/-- The uses bound among one list of events after the other. -/
theorem boundUses_append (es fs : List Event) :
    boundUses (es ++ fs) = boundUses es + boundUses fs :=
  List.countP_append

/-- The uses that are bound among uses. -/
theorem boundUses_uses (vs : List Var) : boundUses (vs.map .use) = vs.countP Var.isVersioned :=
  List.countP_map

/-- Renaming **one thing after the other**. -/
theorem renames_renameAll {events : α → List Event} {defs : α → List Var} {erase : α → α}
    {rename : Env → α → Rename (α × Env)}
    (hrename : ∀ {env x p x' env' r}, (rename env x).run p = .ok ((x', env'), r) →
      Renames events defs erase env p x x' env' r)
    {env env' : Env} {xs xs' : List α}
    (h : (renameAll rename env xs).run p = .ok ((xs', env'), r)) :
    Renames (List.flatMap events) (List.flatMap defs) (List.map erase) env p xs xs' env' r := by
  induction xs generalizing env p xs' with
  | nil =>
      rw [renameAll, run_pure_eq_ok] at h
      obtain ⟨hpair, rfl⟩ := h
      cases hpair
      exact ⟨rfl, trivial, rfl, .none rfl, .none rfl⟩
  | cons x xs ih =>
      rw [renameAll, run_bind_eq_ok] at h
      obtain ⟨⟨x₁, env₁⟩, q₁, hx, h⟩ := h
      rw [run_bind_eq_ok] at h
      obtain ⟨⟨xs₁, env₂⟩, q₂, hxs, h⟩ := h
      rw [run_pure_eq_ok] at h
      obtain ⟨hpair, rfl⟩ := h
      cases hpair
      have hhead := hrename hx
      have htail := ih hxs
      rw [hhead.env_eq] at htail
      refine ⟨?_, ?_, ?_, ?_, ?_⟩
      · rw [List.map_cons, List.map_cons, hhead.erase_eq, htail.erase_eq]
      · exact Env.resolves_append.mpr ⟨hhead.resolves, htail.resolves⟩
      · rw [List.flatMap_cons, Env.after_append, htail.env_eq]
      · rw [List.flatMap_cons, definedVersions_append]
        exact hhead.draws.append htail.draws
      · rw [List.flatMap_cons, List.flatMap_cons, List.length_append, boundUses_append]
        exact hhead.counts.append htail.counts

/-! ### Statements, items and placeholders -/

/-- An expression whose uses are resolved is still the same expression. -/
theorem erase_mapVars_resolve (env : Env) (e : Expr) :
    (e.mapVars env.resolve).erase = e.erase := by
  rw [Expr.erase, Expr.mapVars_mapVars]
  rfl

/-- Resolved uses are resolved. -/
theorem resolves_map_resolve (env : Env) (vs : List Var) :
    env.Resolves ((vs.map env.resolve).map .use) := by
  refine Env.resolves_uses.mpr fun v hv => ?_
  obtain ⟨w, -, rfl⟩ := List.mem_map.mp hv
  rfl

/-- Renaming a statement. -/
theorem renames_renameAssignment {env env' : Env} {s s' : Assignment}
    (h : (renameAssignment env s).run p = .ok ((s', env'), r)) :
    Renames Assignment.events (fun s => [s.target]) Assignment.erase env p s s' env' r := by
  rw [renameAssignment, run_bind_eq_ok] at h
  obtain ⟨value, q₁, hvalue, h⟩ := h
  rw [renameExpr, run_bind_eq_ok] at hvalue
  obtain ⟨_, q₀, hcount, hvalue⟩ := hvalue
  obtain ⟨rfl, rfl⟩ := run_pure_eq_ok.mp hvalue
  rw [run_bind_eq_ok] at h
  obtain ⟨⟨target, env₁⟩, q₂, htarget, h⟩ := h
  rw [defineVar, run_bind_eq_ok] at htarget
  obtain ⟨n, q₃, hdraw, htarget⟩ := htarget
  obtain ⟨hpair, rfl⟩ := run_pure_eq_ok.mp htarget
  cases hpair
  rw [run_bind_eq_ok] at h
  obtain ⟨_, q₄, hmodify, h⟩ := h
  obtain ⟨hpair, rfl⟩ := run_pure_eq_ok.mp h
  cases hpair
  have hversions : ∀ e : Expr, definedVersions (Assignment.events
      ⟨s.target.withVersion (some n), e⟩) = [n] := fun e => by
    rw [Assignment.events, definedVersions_append, definedVersions_uses]
    rfl
  obtain ⟨hcounter, hcounts⟩ := counts_countUses hcount
  obtain ⟨hdraws, hstats⟩ := draws_draw hdraw
  have hlast := run_modify_eq_ok.mp hmodify
  refine ⟨?_, ?_, ?_, ?_, ?_⟩
  · rw [Assignment.erase, Assignment.erase, erase_mapVars_resolve, Var.erase_withVersion]
  · rw [Assignment.events, Env.resolves_append, Expr.vars_mapVars]
    exact ⟨resolves_map_resolve env _, rfl, trivial⟩
  · rw [Assignment.events, Env.after_append, Env.after_uses]
    rfl
  · -- Only drawing the version moves the counter; what stands around it counts uses.
    rw [hversions]
    have hfirst : Draws p q₀ [] := .none hcounter
    have hnone : Draws q₃ q₄ [] := .none (by rw [hlast])
    exact (hfirst.append hdraws).append hnone
  · rw [Assignment.events, boundUses_append, boundUses_uses]
    have hone : Counts q₃ q₄ 1 0 := by
      rw [hlast]
      exact ⟨rfl, rfl, rfl⟩
    exact (hcounts.append (.none hstats)).append hone

/-- Renaming an item. -/
theorem renames_renameItem {env env' : Env} {item item' : Item}
    (h : (renameItem env item).run p = .ok ((item', env'), r)) :
    Renames Item.events Item.defs Item.erase env p item item' env' r := by
  rw [renameItem, run_bind_eq_ok] at h
  obtain ⟨⟨statements, env₁⟩, q₁, hstatements, h⟩ := h
  rw [run_bind_eq_ok] at h
  obtain ⟨terminator, q₂, hterminator, h⟩ := h
  obtain ⟨hpair, rfl⟩ := run_pure_eq_ok.mp h
  cases hpair
  rw [renameTerminator, run_bind_eq_ok] at hterminator
  obtain ⟨_, q₃, hcount, hterminator⟩ := hterminator
  obtain ⟨rfl, rfl⟩ := run_pure_eq_ok.mp hterminator
  have hall := renames_renameAll renames_renameAssignment hstatements
  obtain ⟨hcounter, hcounts⟩ := counts_countUses hcount
  refine ⟨?_, ?_, ?_, ?_, ?_⟩
  · rw [Item.erase, Item.erase, hall.erase_eq, Terminator.erase, Terminator.mapVars_mapVars]
    rfl
  · rw [Item.events, Env.resolves_append, Terminator.vars_mapVars, ← hall.env_eq]
    exact ⟨hall.resolves, resolves_map_resolve _ _⟩
  · rw [Item.events, Env.after_append, Env.after_uses, hall.env_eq]
  · rw [Item.events, definedVersions_append, definedVersions_uses]
    exact hall.draws.append (.none hcounter)
  · rw [Item.events, boundUses_append, boundUses_uses, Item.defs, List.map_eq_flatMap]
    exact hall.counts.append hcounts

/-- Renaming a placeholder. -/
theorem renames_renamePhi {env env' : Env} {phi phi' : Phi}
    (h : (renamePhi env phi).run p = .ok ((phi', env'), r)) :
    Renames Phi.events (fun _ => []) Phi.erase env p phi phi' env' r := by
  rw [renamePhi, run_bind_eq_ok] at h
  obtain ⟨⟨var, env₁⟩, q₁, hvar, h⟩ := h
  obtain ⟨hpair, rfl⟩ := run_pure_eq_ok.mp h
  cases hpair
  rw [defineVar, run_bind_eq_ok] at hvar
  obtain ⟨n, q₂, hdraw, hvar⟩ := hvar
  obtain ⟨hpair, rfl⟩ := run_pure_eq_ok.mp hvar
  cases hpair
  obtain ⟨hdraws, hstats⟩ := draws_draw hdraw
  exact ⟨rfl, ⟨rfl, trivial⟩, rfl, hdraws, .none hstats⟩

/-- Renaming a **block**. -/
theorem renames_renameBlock {env env' : Env} {b b' : Block}
    (h : (renameBlock env b).run p = .ok ((b', env'), r)) :
    Renames Block.events Block.defs Block.erase env p b b' env' r := by
  rw [renameBlock, run_bind_eq_ok] at h
  obtain ⟨⟨phis, env₁⟩, q₁, hphis, h⟩ := h
  rw [run_bind_eq_ok] at h
  obtain ⟨⟨items, env₂⟩, q₂, hitems, h⟩ := h
  obtain ⟨hpair, rfl⟩ := run_pure_eq_ok.mp h
  cases hpair
  have hfirst := renames_renameAll renames_renamePhi hphis
  have hsecond := renames_renameAll renames_renameItem hitems
  rw [hfirst.env_eq] at hsecond
  refine ⟨?_, ?_, ?_, ?_, ?_⟩
  · rw [Block.erase, Block.erase, hfirst.erase_eq, hsecond.erase_eq]
  · exact Env.resolves_append.mpr ⟨hfirst.resolves, hsecond.resolves⟩
  · rw [Block.events, Env.after_append]
    exact hsecond.env_eq
  · rw [Block.events, definedVersions_append]
    exact hfirst.draws.append hsecond.draws
  · have hcounts := hfirst.counts.append hsecond.counts
    rw [List.flatMap_eq_nil_iff.mpr fun _ _ => rfl, List.length_nil, Nat.zero_add,
      ← boundUses_append] at hcounts
    exact hcounts

/-! ### The walk over the tree -/

/-- The placeholders of a block. -/
def phisOf (g : FlowGraph) (id : Nat) : List Phi :=
  match g.block? id with
  | some b => b.phis
  | none => []

/-- The placeholders of a block that is there. -/
theorem phisOf_eq {g : FlowGraph} {id : Nat} {b : Block} (h : g.block? id = some b) :
    phisOf g id = b.phis := by
  rw [phisOf, h]

/-- The definitions of a block. -/
def defsOf (g : FlowGraph) (id : Nat) : List Var :=
  match g.block? id with
  | some b => b.defs
  | none => []

/-- The definitions of a block that is there. -/
theorem defsOf_eq {g : FlowGraph} {id : Nat} {b : Block} (h : g.block? id = some b) :
    defsOf g id = b.defs := by
  rw [defsOf, h]

/-- What renaming the blocks `ids` leaves behind, by the environments at their ends: every block
among them is renamed in the environment in which its immediate dominator ends, and the others
stay as they are. -/
structure Walked (tree : DominatorTree) (ids : List Nat) (g : FlowGraph) (exits : Exits)
    (p : Progress) (g' : FlowGraph) (exits' : Exits) (r : Progress) : Prop where
  keys_eq : g'.keys = g.keys
  unresolved_eq : g'.unresolved = g.unresolved
  size_eq : g'.size = g.size
  outside : ∀ id ∉ ids, g'.block? id = g.block? id ∧ exits' id = exits id
  inside : ∀ id ∈ ids, ∃ b b', g.block? id = some b ∧ g'.block? id = some b' ∧
    b'.erase = b.erase ∧ (entryEnv tree exits' id).Resolves b'.events ∧
    exits' id = (entryEnv tree exits' id).after b'.events
  draws : Draws p r (ids.flatMap fun id => definedVersions (g'.eventsOf id))
  counts : Counts p r (ids.flatMap (defsOf g')).length (boundUses (g'.eventsAlong ids))

/-- A block starts in the same environment as long as its immediate dominator ends in the
same. -/
theorem entryEnv_congr {tree : DominatorTree} {exits exits' : Exits} {id : Nat}
    (h : ∀ d, tree.idom? id = some d → exits' d = exits d) :
    entryEnv tree exits' id = entryEnv tree exits id := by
  rw [entryEnv, entryEnv]
  cases hd : tree.idom? id with
  | none => rfl
  | some d => exact h d hd

/-- **Renaming the blocks of a walk.** No block may stand before its immediate dominator. -/
theorem renameBlocks_spec {tree : DominatorTree} {ids : List Nat} {g g' : FlowGraph}
    {exits exits' : Exits} (hids : ∀ id ∈ ids, id < g.size) (hnodup : ids.Nodup)
    (hself : ∀ id ∈ ids, tree.idom? id ≠ some id)
    (horder : ids.Pairwise fun a b => tree.idom? a ≠ some b)
    (h : (renameBlocks tree ids g exits).run p = .ok ((g', exits'), r)) :
    Walked tree ids g exits p g' exits' r := by
  induction ids generalizing g exits p with
  | nil =>
      rw [renameBlocks, run_pure_eq_ok] at h
      obtain ⟨hpair, rfl⟩ := h
      cases hpair
      exact ⟨rfl, rfl, rfl, fun _ _ => ⟨rfl, rfl⟩, by simp, .none rfl, .none rfl⟩
  | cons id ids ih =>
      obtain ⟨b, hb⟩ := FlowGraph.exists_block? (hids id (List.mem_cons_self ..))
      rw [renameBlocks] at h
      simp only [hb] at h
      rw [run_bind_eq_ok] at h
      obtain ⟨⟨b', env⟩, q, hblock, h⟩ := h
      obtain ⟨hfresh, hnodup⟩ := List.nodup_cons.mp hnodup
      obtain ⟨hlater, horder⟩ := List.pairwise_cons.mp horder
      have hrenames := renames_renameBlock hblock
      have hrest := ih (fun i hi => by simpa using hids i (List.mem_cons_of_mem _ hi)) hnodup
        (fun i hi => hself i (List.mem_cons_of_mem _ hi)) horder h
      -- What comes later touches neither this block nor the environment of its dominator.
      obtain ⟨hkept, hexit⟩ := hrest.outside id hfresh
      rw [FlowGraph.block?_modifyBlock, hb, Option.map_some, if_pos rfl] at hkept
      rw [if_pos rfl] at hexit
      have hentry : entryEnv tree exits' id = entryEnv tree exits id := by
        refine entryEnv_congr fun d hd => ?_
        have hne : d ≠ id := by
          rintro rfl
          exact hself d (List.mem_cons_self ..) hd
        have hout : d ∉ ids := fun hmem => hlater d hmem hd
        rw [(hrest.outside d hout).2, if_neg hne]
      refine ⟨hrest.keys_eq, hrest.unresolved_eq, by simpa using hrest.size_eq, ?_, ?_, ?_, ?_⟩
      · intro i hi
        rw [List.mem_cons, not_or] at hi
        obtain ⟨hne, hi⟩ := hi
        obtain ⟨hsame, hexits⟩ := hrest.outside i hi
        rw [if_neg hne] at hexits
        refine ⟨?_, hexits⟩
        rw [hsame, FlowGraph.block?_modifyBlock]
        simp [Ne.symm hne]
      · intro i hi
        rcases List.mem_cons.mp hi with rfl | hi
        · refine ⟨b, b', hb, hkept, hrenames.erase_eq, ?_, ?_⟩
          · rw [hentry]
            exact hrenames.resolves
          · rw [hentry, hexit]
            exact hrenames.env_eq
        · obtain ⟨c, c', hc, hrest⟩ := hrest.inside i hi
          have hne : id ≠ i := by
            rintro rfl
            exact hfresh hi
          rw [FlowGraph.block?_modifyBlock] at hc
          exact ⟨c, c', by simpa [hne] using hc, hrest⟩
      · rw [List.flatMap_cons, FlowGraph.eventsOf_eq hkept]
        exact hrenames.draws.append hrest.draws
      · rw [FlowGraph.eventsAlong, List.flatMap_cons, List.flatMap_cons, List.length_append,
          boundUses_append, FlowGraph.eventsOf_eq hkept, defsOf_eq hkept]
        exact hrenames.counts.append hrest.counts

/-- Renaming keeps all edges. -/
theorem Walked.succs_eq {tree : DominatorTree} {ids : List Nat} {g g' : FlowGraph}
    {exits exits' : Exits} (h : Walked tree ids g exits p g' exits' r) : g'.succs = g.succs := by
  funext i
  rw [FlowGraph.succs, FlowGraph.succs]
  by_cases hi : i ∈ ids
  · obtain ⟨b, b', hb, hb', herase, -⟩ := h.inside i hi
    have hsame : b'.erase.succs = b.erase.succs := congrArg Block.succs herase
    rw [hb, hb']
    exact hsame
  · rw [(h.outside i hi).1]

end FlowForm.Ssa
