import Mathlib.Data.List.Pairwise
import FlowForm.Proofs.Ssa.InPlace
import FlowForm.Proofs.Ssa.Placement

/-!
# What Construction Leaves Behind

Construction keeps the outline of a graph, and there are environments at both ends of every
reachable block that tell which definition reaches a point. `Reaching` says what such environments
satisfy, and it is all that later results need to know: neither dominators nor frontiers occur in
it.

The one law that takes an argument is that of an edge `u → b`: whatever variable has no
placeholder in `b` is in the same state at the end of `u` as at the start of `b`
(`exits_eq_entryEnv`). Renaming starts `b` where its **immediate dominator** ends, so the argument
climbs from `u` to that dominator. Every block passed on the way dominates `u` without strictly
dominating `b`, so that it has `b` in its frontier. Would it define the variable, `b` would need a
placeholder.

## Main results

* `exits_eq_entryEnv`: the law of an edge.
* `Rebuilt.sameOutline`: construction changes versions and placeholders only.
* `reaching_construct`: construction leaves environments that reach.
-/

namespace FlowForm.Ssa

open DominatorTree Dominance

/-- Environments at the start and at the end of each block **reach** if nothing is defined at the
entry, the events of a block are resolved and lead from its start to its end, an edge keeps
whatever has no placeholder at its target, operands are what comes along their edges, no block has
two placeholders for one variable, and no version is defined twice. -/
structure Reaching (g : FlowGraph) (entering leaving : Nat → Env) : Prop where
  entry : entering g.entry = Env.empty
  resolves : ∀ b, g.Reachable b → (entering b).Resolves (g.eventsOf b)
  leaving_eq : ∀ b, g.Reachable b → leaving b = (entering b).after (g.eventsOf b)
  edge : ∀ u b, g.Reachable u → g.HasEdge u b → ∀ x,
    (∃ phi ∈ phisOf g b, phi.var.name = x) ∨ leaving u x = entering b x
  reachable_of_phi : ∀ b, ∀ phi ∈ phisOf g b, g.Reachable b
  operand : ∀ u b, g.Reachable u → g.HasEdge u b → ∀ phi ∈ phisOf g b,
    phi.operand? (some u) =
      some { pred := some u, var := { name := phi.var.name, version := leaving u phi.var.name } }
  entry_operand : ∀ phi ∈ phisOf g g.entry,
    phi.operand? none = some { pred := none, var := { name := phi.var.name } }
  operand_sound : ∀ b, ∀ phi ∈ phisOf g b, ∀ op ∈ phi.operands,
    op.var.name = phi.var.name ∧ (op.var.version = none ∨ ∃ u, op.pred = some u ∧
      g.Reachable u ∧ g.HasEdge u b ∧ op.var.version = leaving u phi.var.name)
  nodup_names : ∀ b, ((phisOf g b).map (·.var.name)).Nodup
  nodup : ∀ b, g.Reachable b → (definedVersions (g.eventsOf b)).Nodup
  owner : ∀ a b, g.Reachable a → g.Reachable b → ∀ n ∈ definedVersions (g.eventsOf a),
    n ∈ definedVersions (g.eventsOf b) → a = b

variable {g : FlowGraph}

/-! ### The law of an edge -/

section Edge

variable {exits : Exits} {x : String} {u b : Nat}

/-- A block that dominates the source of an edge and does not strictly dominate its target is
either the **child** of the target's immediate dominator, or its own immediate dominator is such a
block again. -/
theorem idom?_step (hagree : g.EdgesAgree) (hedge : g.HasEdge u b) {r d : Nat}
    (hr : g.Dominates r u) (hstop : ¬ g.StrictlyDominates r b)
    (hd : (compute g).idom? r = some d) (hstrict : g.StrictlyDominates d b) :
    (compute g).idom? b = some d := by
  have hu : g.Reachable u := hr.2.1
  have hne : b ≠ g.entry := by
    rintro rfl
    exact hstrict.2 hstrict.1.eq_entry
  obtain ⟨d', hd', himm, -⟩ := exists_idom? hagree hstrict.1.2.1 hne
  have hdd' : g.Dominates d d' := (strictlyDominates_iff_of_idom? hagree hd').mp hstrict
  -- Both `r` and the immediate dominator of `b` dominate `u`, so one of them dominates the other.
  have hd'u : g.Dominates d' u := himm.1.dominates_pred hu hedge
  have hd'r : g.StrictlyDominates d' r := by
    rcases dominates_total hagree hr hd'u with h | h
    · refine absurd ⟨h.trans himm.1.1, ?_⟩ hstop
      rintro rfl
      exact himm.1.2 (dominates_antisymm hagree himm.1.1 h)
    · refine ⟨h, ?_⟩
      rintro rfl
      exact hstop himm.1
  have hd'd : g.Dominates d' d := (strictlyDominates_iff_of_idom? hagree hd).mp hd'r
  rw [hd', dominates_antisymm hagree hdd' hd'd]

/-- Climbing from a dominator of `u`: where no block that dominates `u` without strictly
dominating `b` defines a variable, its state is that at the start of `b`. -/
theorem exits_eq_of_dominates (hagree : g.EdgesAgree) (hedge : g.HasEdge u b)
    (hpass : ∀ r, g.Dominates r u → ¬ g.StrictlyDominates r b →
      exits r x = entryEnv (compute g) exits r x)
    {r : Nat} (hr : g.Dominates r u) (hstop : ¬ g.StrictlyDominates r b) :
    exits r x = entryEnv (compute g) exits b x := by
  generalize hn : g.position r = n
  induction n using Nat.strong_induction_on generalizing r with
  | _ n ih =>
      rw [hpass r hr hstop]
      by_cases hentry : r = g.entry
      · -- The entry strictly dominates every other block, so `b` is the entry itself.
        obtain rfl : r = b := by
          by_contra hne
          have hb := (hr.2.1.step hedge).entry_dominates
          exact hstop (hentry ▸ ⟨hb, hentry ▸ hne⟩)
        rfl
      · obtain ⟨d, hd, himm, hlt⟩ := exists_idom? hagree hr.1 hentry
        have henv : entryEnv (compute g) exits r x = exits d x := by
          rw [entryEnv, hd]
        rw [henv]
        by_cases hstrict : g.StrictlyDominates d b
        · rw [entryEnv, idom?_step hagree hedge hr hstop hd hstrict]
        · exact ih _ (hn ▸ hlt) (himm.1.1.trans hr) hstrict rfl

/-- **The law of an edge**, for any environments that agree with the immediate dominators and any
definitions that are closed under frontiers. -/
theorem exits_eq_entryEnv (hagree : g.EdgesAgree) (hu : g.Reachable u) (hedge : g.HasEdge u b)
    (hkeep : ∀ r, g.Reachable r → ¬ Needs g r x → ¬ Assigns g r x →
      exits r x = entryEnv (compute g) exits r x)
    (hneeds : ¬ Needs g b x) : exits u x = entryEnv (compute g) exits b x := by
  by_cases hstrict : g.StrictlyDominates u b
  · -- Then `u` is the immediate dominator: whatever lies between them would dominate `u`.
    have hne : b ≠ g.entry := by
      rintro rfl
      exact hstrict.2 hstrict.1.eq_entry
    obtain ⟨d, hd, himm, -⟩ := exists_idom? hagree hstrict.1.2.1 hne
    have hdu : g.Dominates d u := himm.1.dominates_pred hu hedge
    have hud : g.Dominates u d := (strictlyDominates_iff_of_idom? hagree hd).mp hstrict
    rw [entryEnv, hd, dominates_antisymm hagree hud hdu]
  · refine exits_eq_of_dominates hagree hedge (fun r hr hstop => ?_) hu.dominates_self hstrict
    have hfrontier : b ∈ frontier g r :=
      (mem_frontierOf_iff hagree).mpr ⟨u, hu, hedge, hr, hstop⟩
    refine hkeep r hr.1 (fun h => ?_) (fun h => ?_)
    · exact hneeds (needs_of_needs hagree h hfrontier)
    · exact hneeds (needs_of_assigns hagree hr.1 h hfrontier)

end Edge

/-! ### The steps of construction -/

/-- No block stands before its immediate dominator in the preorder of the tree. -/
theorem pairwise_preorder (hagree : g.EdgesAgree) :
    (compute g).preorder.Pairwise fun a b => (compute g).idom? a ≠ some b := by
  refine (pairwise_strictlyDominates hagree).imp fun hnot hidom => ?_
  obtain ⟨-, -, himm, -⟩ := idom?_eq_some hagree hidom
  exact hnot himm.1

/-- No block is its own immediate dominator. -/
theorem idom?_ne_self (hagree : g.EdgesAgree) (b : Nat) : (compute g).idom? b ≠ some b := by
  intro h
  obtain ⟨hreach, hne, -⟩ := idom?_eq_some hagree h
  obtain ⟨d, hd, himm, -⟩ := exists_idom? hagree hreach hne
  rw [h] at hd
  exact himm.1.2 (Option.some.inj hd).symm

/-- A graph that is not in single-assignment form has no placeholders and no version at any
definition. -/
theorem isInSsa_eq_false (h : isInSsa g = false) {id : Nat} {b : Block}
    (hb : g.block? id = some b) : b.phis = [] ∧ ∀ v ∈ b.defs, v.version = none := by
  have hmem : b ∈ g.blocks := List.mem_of_getElem? hb
  have hblock := List.any_eq_false.mp h b hmem
  simp only [Bool.or_eq_true, not_or, Bool.not_eq_true', Bool.not_eq_false,
    List.isEmpty_iff, List.any_eq_true, not_exists, not_and, Bool.not_eq_true] at hblock
  refine ⟨hblock.1, fun v hv => ?_⟩
  exact Option.isNone_iff_eq_none.mp (by simpa [Var.isVersioned] using hblock.2 v hv)

/-- The graph in which placeholders have been placed. -/
abbrev placed (g : FlowGraph) : FlowGraph :=
  placePhis g (sites g (compute g))

/-- Placing placeholders changes no edge. -/
theorem succs_placed (g : FlowGraph) : (placed g).succs = g.succs := by
  funext i
  rw [placed, placePhis, FlowGraph.succs_mapBlocks]
  exact fun _ _ => rfl

/-- Where renaming starts: no version has been drawn, and the placeholders have been counted. -/
abbrev outset (g : FlowGraph) (counter : Counter) : Progress where
  counter := counter
  stats := { phis := siteCount (sites g (compute g)) }

/-- The versions that construction **needs**: one for each placeholder to be placed and one for
each definition in a reachable block. -/
def versionsNeeded (g : FlowGraph) : Nat :=
  siteCount (sites g (compute g)) + definitionCount g (compute g)

/-- **The steps of a build**: what is checked before anything is changed, and what follows. -/
theorem run_build (g : FlowGraph) (counter : Counter) :
    build.run.run (g, counter) =
      match g.validate with
      | .error defect => (.error (.malformed defect), g, counter)
      | .ok () =>
        if isInSsa g then (.error .alreadyInSsa, g, counter)
        else if counter.remaining < versionsNeeded g then (.error .versionsExhausted, g, counter)
        else (rename (compute g) (outset g counter).stats).run.run (placed g, counter) := by
  rw [build, runState_bind]
  change (match g.validate with
    | .error defect => _
    | .ok () => _ : Build Stats).run.run (g, counter) = _
  cases g.validate with
  | error defect => rfl
  | ok _ =>
      dsimp only
      split
      · rfl
      · rw [versionsNeeded]
        split
        · rfl
        · rfl

/-- **What follows** when everything has been checked, by what renaming by environments yields. -/
theorem run_rename (hagree : g.EdgesAgree) (p : Progress) :
    match (renameGraph (compute g) (placed g)).run p with
    | .ok (g', r) =>
      (rename (compute g) p.stats).run.run (placed g, p.counter) = (.ok r.stats, g', r.counter)
    | .error e => ((rename (compute g) p.stats).run.run (placed g, p.counter)).1 = .error e := by
  have hsize : (placed g).size = g.size := FlowGraph.size_mapBlocks ..
  have hsettled := settled_rename hagree hsize p
  have hrename : ∀ out,
      (Renamer.rename (compute g)).run.run (placed g, p.renamer Stacks.empty) = out →
      (rename (compute g) p.stats).run.run (placed g, p.counter) =
        (out.1.map fun _ => out.2.2.stats, out.2.1, out.2.2.counter) := by
    rintro out rfl
    rfl
  generalize hout : (Renamer.rename (compute g)).run.run (placed g, p.renamer Stacks.empty) = out
    at hsettled
  rw [hrename out hout]
  cases hrun : (renameGraph (compute g) (placed g)).run p with
  | error e =>
      rw [hrun] at hsettled
      rcases out with ⟨e' | _, s⟩
      · cases hsettled
        rfl
      · cases hsettled
  | ok result =>
      rw [hrun] at hsettled
      rcases out with ⟨e' | _, s⟩
      · cases hsettled
      · cases hsettled
        rfl

/-- Construction yields what a build leaves behind. -/
theorem construct_eq_ok_iff {counter : Counter} {result : Result} :
    construct g counter = .ok result ↔
      build.run.run (g, counter) = (.ok result.stats, result.graph, result.counter) := by
  rw [construct]
  rcases build.run.run (g, counter) with ⟨e | stats, graph, counter'⟩
  · constructor
    all_goals
      intro h
      cases h
  · constructor
    all_goals
      intro h
      cases h
      rfl

/-- Construction fails as a build does. -/
theorem construct_eq_error_iff {counter : Counter} {e : SsaError} :
    construct g counter = .error e ↔ (build.run.run (g, counter)).1 = .error e := by
  rw [construct]
  rcases build.run.run (g, counter) with ⟨e' | stats, graph, counter'⟩ <;> simp [Except.map]

/-- Construction that succeeds has gone through **all of its steps**. -/
theorem construct_eq_ok {counter : Counter} {result : Result}
    (h : construct g counter = .ok result) :
    g.validate = .ok () ∧ isInSsa g = false ∧ ∃ g' exits q,
      (renameBlocks (compute g) (compute g).preorder (placed g) fun _ => Env.empty).run
        (outset g counter) = .ok ((g', exits), q) ∧
      (fillOperands exits (compute g).preorder g').run q =
        .ok (result.graph, { counter := result.counter, stats := result.stats }) := by
  rw [construct_eq_ok_iff, run_build] at h
  cases hvalid : g.validate with
  | error defect =>
      rw [hvalid] at h
      cases h
  | ok _ =>
      simp only [hvalid] at h
      split at h
      · cases h
      · rename_i hssa
        split at h
        · cases h
        · refine ⟨rfl, by simpa using hssa, ?_⟩
          have hrename := run_rename (FlowGraph.edgesAgree_of_validate hvalid) (outset g counter)
          cases hrun : (renameGraph (compute g) (placed g)).run (outset g counter) with
          | error e =>
              simp only [hrun, h] at hrename
              cases hrename
          | ok out =>
              simp only [hrun, h] at hrename
              obtain ⟨graph, counter', stats⟩ := result
              cases hrename
              rw [renameGraph, run_bind_eq_ok] at hrun
              obtain ⟨⟨g', exits⟩, q, hblocks, hfill⟩ := hrun
              exact ⟨g', exits, q, hblocks, hfill⟩

/-- Construction that is seen to succeed in some respect succeeds. -/
theorem exists_of_map_construct {β : Type} {counter : Counter} {f : Result → β} {b : β}
    (h : (construct g counter).map f = .ok b) :
    ∃ result, construct g counter = .ok result ∧ f result = b := by
  cases hresult : construct g counter with
  | error e =>
      rw [hresult] at h
      cases h
  | ok result =>
      rw [hresult] at h
      exact ⟨result, rfl, Except.ok.inj h⟩

/-- Construction that succeeds has **walked** over the tree and filled in the operands. -/
theorem walked_construct {counter : Counter} {result : Result}
    (h : construct g counter = .ok result) : ∃ g' exits q,
      Walked (compute g) (compute g).preorder (placed g) (fun _ => Env.empty) (outset g counter)
        g' exits q ∧
      (fillOperands exits (compute g).preorder g').run q =
        .ok (result.graph, { counter := result.counter, stats := result.stats }) := by
  obtain ⟨hvalid, -, g', exits, q, hrename, hfill⟩ := construct_eq_ok h
  have hagree := FlowGraph.edgesAgree_of_validate hvalid
  refine ⟨g', exits, q, renameBlocks_spec (fun id hid => ?_) (nodup_preorder hagree)
    (fun id _ => idom?_ne_self hagree id) (pairwise_preorder hagree) hrename, hfill⟩
  rw [placed, placePhis, FlowGraph.size_mapBlocks]
  exact ((mem_preorder_iff hagree).mp hid).lt_size

/-- What construction makes of each block: the reachable ones get their placeholders, are renamed
in the environment in which the immediate dominator ends and have their operands filled in, and
the others stay as they are. -/
structure Rebuilt (g g' : FlowGraph) (exits : Exits) : Prop where
  keys_eq : g'.keys = g.keys
  unresolved_eq : g'.unresolved = g.unresolved
  unreachable : ∀ id, ¬ g.Reachable id → g'.block? id = g.block? id
  reachable : ∀ id b, g.Reachable id → g.block? id = some b → ∃ b', g'.block? id =
      some (filledBlock exits (sourcesInto g.succs (compute g).preorder id) b') ∧
    b'.outline = b.outline ∧ b'.phis.map Phi.erase = (phisOf (placed g) id).map Phi.erase ∧
    (entryEnv (compute g) exits id).Resolves b'.events ∧
    exits id = (entryEnv (compute g) exits id).after b'.events
  nodup : ((compute g).preorder.flatMap fun id => definedVersions (g'.eventsOf id)).Nodup

/-- Filling in operands keeps the events of a block. -/
theorem events_filledBlock (exits : Exits) (sources : List Nat) (b : Block) :
    (filledBlock exits sources b).events = b.events := by
  have hphi : ∀ phi, (fillFrom exits sources phi).events = phi.events := fun phi => by
    rw [Phi.events, (filled_fillFrom exits sources phi).var_eq, Phi.events]
  rw [Block.events, Block.events, filledBlock, List.flatMap_map]
  simp only [hphi]
  rfl

/-- Filling in operands keeps the events of all blocks. -/
theorem eventsOf_fillOperands (exits : Exits) (ids : List Nat) (g : FlowGraph) :
    (ids.foldl (fun g id => (g.succs id).foldl (filledEdge exits id) g) g).eventsOf =
      g.eventsOf := by
  funext id
  rw [FlowGraph.eventsOf, FlowGraph.eventsOf, block?_fillOperands]
  cases g.block? id with
  | none => rfl
  | some b => exact events_filledBlock ..

/-- Blocks that stay the same when versions are erased have the same outline. -/
theorem outline_eq_of_erase_eq {b b' : Block} (h : b'.erase = b.erase) :
    b'.outline = b.outline :=
  congrArg (fun c : Block => { c with phis := [] }) h

/-- A block that needs no placeholder is left alone when placeholders are placed. -/
theorem block?_placed_of_not_reachable (hagree : g.EdgesAgree) (hssa : isInSsa g = false)
    {id : Nat} (hid : ¬ g.Reachable id) : (placed g).block? id = g.block? id := by
  cases hb : g.block? id with
  | none => rw [placed, placePhis, FlowGraph.block?_mapBlocks, hb, Option.map_none]
  | some b =>
      have hnone : b.phis = [] := (isInSsa_eq_false hssa hb).1
      obtain ⟨phis, hplaced⟩ := block?_placePhis (sites g (compute g)) hb
      have hphis : phis = [] := by
        refine List.eq_nil_iff_forall_not_mem.mpr fun phi hphi => ?_
        have hmem : phi ∈ phisOf (placed g) id := by
          rw [phisOf_eq hplaced]
          exact hphi
        obtain ⟨x, hneeds, -⟩ := (mem_phis_placePhis_iff hb hnone).mp hmem
        exact hid (hneeds.reachable hagree)
      rw [hplaced, hphis, ← hnone]

/-- **Construction rebuilds the graph** block by block. -/
theorem rebuilt_construct {counter : Counter} {result : Result}
    (h : construct g counter = .ok result) : ∃ exits, Rebuilt g result.graph exits := by
  obtain ⟨hvalid, hssa, -⟩ := construct_eq_ok h
  have hagree := FlowGraph.edgesAgree_of_validate hvalid
  obtain ⟨g', exits, q, hwalked, hfill⟩ := walked_construct h
  obtain ⟨hgraph, -⟩ := run_fillOperands hfill
  have hblock : ∀ id, result.graph.block? id =
      (g'.block? id).map (filledBlock exits (sourcesInto g'.succs (compute g).preorder id)) := by
    intro id
    rw [hgraph]
    exact block?_fillOperands exits (compute g).preorder g' id
  have hsuccs : g'.succs = g.succs := hwalked.succs_eq.trans (succs_placed g)
  refine ⟨exits, ?_⟩
  constructor
  case keys_eq =>
    rw [hgraph, (kept_fillOperands ..).1]
    exact hwalked.keys_eq
  case unresolved_eq =>
    rw [hgraph, (kept_fillOperands ..).2]
    exact hwalked.unresolved_eq
  case unreachable =>
    intro id hid
    have hout : id ∉ (compute g).preorder := fun hmem => hid ((mem_preorder_iff hagree).mp hmem)
    rw [hblock, (hwalked.outside id hout).1, block?_placed_of_not_reachable hagree hssa hid]
    cases hb : g.block? id with
    | none => rfl
    | some b =>
        have hphis : (b.phis.map (fillFrom exits (sourcesInto g'.succs (compute g).preorder id))) =
            b.phis := by
          rw [(isInSsa_eq_false hssa hb).1]
          rfl
        rw [Option.map_some, filledBlock, hphis]
  case reachable =>
    intro id b hid hb
    obtain ⟨b₁, b₂, hb₁, hb₂, herase, hresolves, hexit⟩ :=
      hwalked.inside id ((mem_preorder_iff hagree).mpr hid)
    refine ⟨b₂, by rw [hblock, hb₂, hsuccs]; rfl, ?_, ?_, hresolves, hexit⟩
    · obtain ⟨phis, hplaced⟩ := block?_placePhis (sites g (compute g)) hb
      obtain rfl : { b with phis } = b₁ := Option.some.inj (hplaced.symm.trans hb₁)
      have houtline := outline_eq_of_erase_eq herase
      exact houtline
    · rw [phisOf_eq hb₁]
      exact congrArg Block.phis herase
  case nodup =>
    rw [hgraph, eventsOf_fillOperands]
    exact hwalked.draws.nodup

/-- **Construction keeps the outline** of a graph. -/
theorem Rebuilt.sameOutline {g' : FlowGraph} {exits : Exits} (h : Rebuilt g g' exits) :
    g.SameOutline g' := by
  refine ⟨h.keys_eq, fun id => ?_⟩
  by_cases hid : g.Reachable id
  · obtain ⟨b, hb⟩ := FlowGraph.exists_block? hid.lt_size
    obtain ⟨b', hb', houtline, -⟩ := h.reachable id b hid hb
    rw [hb, hb', Option.map_some, Option.map_some, ← houtline]
    rfl
  · rw [h.unreachable id hid]

/-! ### Placeholders of the result -/

namespace Rebuilt

variable {g' : FlowGraph} {exits : Exits}

/-- The events of a reachable block are resolved by the environment in which its immediate
dominator ends. -/
theorem events (h : Rebuilt g g' exits) {id : Nat} (hid : g.Reachable id) :
    (entryEnv (compute g) exits id).Resolves (g'.eventsOf id) ∧
      exits id = (entryEnv (compute g) exits id).after (g'.eventsOf id) := by
  obtain ⟨b, hb⟩ := FlowGraph.exists_block? hid.lt_size
  obtain ⟨b', hb', -, -, hresolves, hexit⟩ := h.reachable id b hid hb
  rw [FlowGraph.eventsOf_eq hb', events_filledBlock]
  exact ⟨hresolves, hexit⟩

/-- **Every placeholder** of the result is what filling in from the reachable predecessors of its
block makes of one that was needed. -/
theorem exists_before (h : Rebuilt g g' exits) (hssa : isInSsa g = false) {id : Nat} {phi : Phi}
    (hphi : phi ∈ phisOf g' id) :
    ∃ b, g.block? id = some b ∧ Needs g id phi.var.name ∧ g.Reachable id ∧
      ∃ before, before.var.name = phi.var.name ∧
        before.operands = (Phi.unversioned phi.var.name (phiSources g id b)).operands ∧
        phi = fillFrom exits (sourcesInto g.succs (compute g).preorder id) before := by
  by_cases hid : g.Reachable id
  · obtain ⟨b, hb⟩ := FlowGraph.exists_block? hid.lt_size
    obtain ⟨b', hb', -, hphis, -⟩ := h.reachable id b hid hb
    rw [phisOf_eq hb'] at hphi
    obtain ⟨before, hbefore, rfl⟩ := List.mem_map.mp hphi
    have hmem : before.erase ∈ (phisOf (placed g) id).map Phi.erase := by
      rw [← hphis]
      exact List.mem_map.mpr ⟨before, hbefore, rfl⟩
    obtain ⟨first, hfirst, herase⟩ := List.mem_map.mp hmem
    obtain ⟨x, hneeds, rfl⟩ :=
      (mem_phis_placePhis_iff hb (isInSsa_eq_false hssa hb).1).mp hfirst
    have hname : x = before.var.name := congrArg (fun phi : Phi => phi.var.name) herase
    have hoperands : (Phi.unversioned x (phiSources g id b)).erase.operands =
        before.erase.operands := congrArg Phi.operands herase
    rw [(filled_fillFrom ..).var_eq, ← hname]
    exact ⟨b, hb, hneeds, hid, before, hname.symm, hoperands.symm, rfl⟩
  · rw [phisOf, h.unreachable id hid] at hphi
    split at hphi
    · rename_i b hb
      simp [(isInSsa_eq_false hssa hb).1] at hphi
    · simp at hphi

/-- Every placeholder of the result is one that was needed, **filled in** from the reachable
predecessors of its block. -/
theorem exists_needs (h : Rebuilt g g' exits) (hssa : isInSsa g = false) {id : Nat} {phi : Phi}
    (hphi : phi ∈ phisOf g' id) :
    ∃ b, g.block? id = some b ∧ Needs g id phi.var.name ∧ g.Reachable id ∧
      ∃ before, before.var.name = phi.var.name ∧
        before.operands = (Phi.unversioned phi.var.name (phiSources g id b)).operands ∧
        Filled exits (sourcesInto g.succs (compute g).preorder id) before phi := by
  obtain ⟨b, hb, hneeds, hid, before, hname, hoperands, hphi⟩ := h.exists_before hssa hphi
  exact ⟨b, hb, hneeds, hid, before, hname, hoperands, hphi ▸ filled_fillFrom ..⟩

/-- A block that needs a placeholder **has one**. -/
theorem exists_phi (h : Rebuilt g g' exits) (hagree : g.EdgesAgree) (hssa : isInSsa g = false)
    {id : Nat} {x : String} (hneeds : Needs g id x) : ∃ phi ∈ phisOf g' id, phi.var.name = x := by
  have hid := hneeds.reachable hagree
  obtain ⟨b, hb⟩ := FlowGraph.exists_block? hid.lt_size
  obtain ⟨b', hb', -, hphis, -⟩ := h.reachable id b hid hb
  have hmem : (Phi.unversioned x (phiSources g id b)).erase ∈ b'.phis.map Phi.erase := by
    rw [hphis]
    refine List.mem_map.mpr ⟨_, ?_, rfl⟩
    exact (mem_phis_placePhis_iff hb (isInSsa_eq_false hssa hb).1).mpr ⟨x, hneeds, rfl⟩
  obtain ⟨before, hbefore, herase⟩ := List.mem_map.mp hmem
  refine ⟨fillFrom exits (sourcesInto g.succs (compute g).preorder id) before, ?_, ?_⟩
  · rw [phisOf_eq hb']
    exact List.mem_map.mpr ⟨before, hbefore, rfl⟩
  · rw [(filled_fillFrom ..).var_eq]
    exact congrArg (fun phi : Phi => phi.var.name) herase

/-- **The placeholders of the result** are for the variables that their blocks need one for. -/
theorem exists_phi_iff (h : Rebuilt g g' exits) (hagree : g.EdgesAgree) (hssa : isInSsa g = false)
    {id : Nat} {x : String} : (∃ phi ∈ phisOf g' id, phi.var.name = x) ↔ Needs g id x := by
  constructor
  · rintro ⟨phi, hphi, rfl⟩
    obtain ⟨-, -, hneeds, -⟩ := h.exists_needs hssa hphi
    exact hneeds
  · exact h.exists_phi hagree hssa

/-- **The sources of the operands** are the predecessors of the block in order, behind the outside
at the entry. -/
theorem map_pred_operands (h : Rebuilt g g' exits) (hssa : isInSsa g = false) {id : Nat} {phi : Phi}
    (hphi : phi ∈ phisOf g' id) :
    phi.operands.map (·.pred) =
      (if id = g.entry then [none] else []) ++ (g.preds id).map some := by
  obtain ⟨b, hb, -, -, before, -, hoperands, hfilled⟩ := h.exists_needs hssa hphi
  have hpreds : g.preds id = b.preds := by rw [FlowGraph.preds, hb]
  have hsources : (Phi.unversioned phi.var.name (phiSources g id b)).operands.map (·.pred) =
      phiSources g id b := by
    rw [Phi.unversioned, List.map_map]
    exact List.map_id _
  rw [hfilled.preds_eq, hoperands, hsources, phiSources, hpreds]

/-- What the events of a block define has a placeholder or is assigned. -/
theorem needs_or_assigns (h : Rebuilt g g' exits) (hssa : isInSsa g = false) {id : Nat}
    {x : String} (hid : g.Reachable id) (hdefines : Defines (g'.eventsOf id) x) :
    Needs g id x ∨ Assigns g id x := by
  obtain ⟨b, hb⟩ := FlowGraph.exists_block? hid.lt_size
  obtain ⟨b', hb', houtline⟩ := h.sameOutline.exists_block hb
  rw [FlowGraph.eventsOf_eq hb', Block.events, defines_append] at hdefines
  rcases hdefines with ⟨v, hv, rfl⟩ | hitems
  · obtain ⟨phi, hphi, hevent⟩ := List.mem_flatMap.mp hv
    obtain rfl : v = phi.var := by simpa [Phi.events] using hevent
    obtain ⟨-, -, hneeds, -⟩ := h.exists_needs hssa (phisOf_eq hb' ▸ hphi)
    exact .inl hneeds
  · have hitemsErase : b'.items.map Item.erase = b.items.map Item.erase :=
      congrArg Block.items houtline
    rw [← defines_map_erase, Block.itemEvents_erase hitemsErase, defines_map_erase,
      Block.defines_itemEvents] at hitems
    exact .inr ⟨b, hb, hitems⟩

/-- No variable has two placeholders in one block. -/
theorem nodup_names (h : Rebuilt g g' exits) (hssa : isInSsa g = false) (id : Nat) :
    ((phisOf g' id).map (·.var.name)).Nodup := by
  by_cases hid : g.Reachable id
  · obtain ⟨b, hb⟩ := FlowGraph.exists_block? hid.lt_size
    obtain ⟨b', hb', -, hphis, -⟩ := h.reachable id b hid hb
    have hnames : (phisOf g' id).map (·.var.name) = (phisOf (placed g) id).map (·.var.name) := by
      have herase := congrArg (List.map fun phi : Phi => phi.var.name) hphis
      rw [List.map_map, List.map_map] at herase
      rw [phisOf_eq hb', filledBlock, List.map_map]
      refine Eq.trans (List.map_congr_left fun phi _ => ?_) herase
      have hvar := (filled_fillFrom exits (sourcesInto g.succs (compute g).preorder id) phi).var_eq
      rw [Function.comp_apply, Function.comp_apply, hvar]
      rfl
    rw [hnames]
    exact nodup_names_placePhis hb (isInSsa_eq_false hssa hb).1
  · rw [phisOf, h.unreachable id hid]
    split
    · rename_i b hb
      rw [(isInSsa_eq_false hssa hb).1]
      exact List.nodup_nil
    · exact List.nodup_nil

/-- A placeholder has an operand for each **edge** from a reachable block, with the version that
comes along it. -/
theorem operand?_edge (h : Rebuilt g g' exits) (hagree : g.EdgesAgree) (hssa : isInSsa g = false)
    {u id : Nat} (hu : g.Reachable u) (hedge : g.HasEdge u id) {phi : Phi}
    (hphi : phi ∈ phisOf g' id) :
    phi.operand? (some u) =
      some { pred := some u, var := ⟨phi.var.name, exits u phi.var.name⟩ } := by
  obtain ⟨b, hb, -, -, before, hname, hoperands, hfilled⟩ := h.exists_needs hssa hphi
  have hsource : some u ∈ phiSources g id b := by
    have hpred := hedge.mem_preds hagree
    rw [FlowGraph.preds, hb] at hpred
    exact List.mem_append_right _ (List.mem_map.mpr ⟨u, hpred, rfl⟩)
  have hbefore := operand?_unversioned (x := phi.var.name) hsource
  rw [Phi.operand?, ← hoperands] at hbefore
  have hinto : u ∈ sourcesInto g.succs (compute g).preorder id :=
    mem_sourcesInto.mpr ⟨(mem_preorder_iff hagree).mpr hu, hedge.1⟩
  rw [hfilled.complete u hinto _ hbefore, hname]
  rfl

/-- At the entry a placeholder has an operand for what comes **from outside**. -/
theorem operand?_outside (h : Rebuilt g g' exits) (hssa : isInSsa g = false) {phi : Phi}
    (hphi : phi ∈ phisOf g' g.entry) :
    phi.operand? none = some { pred := none, var := { name := phi.var.name } } := by
  obtain ⟨b, hb, -, -, before, hname, hoperands, hfilled⟩ := h.exists_needs hssa hphi
  have hsource : none ∈ phiSources g g.entry b := by
    rw [phiSources, if_pos rfl]
    exact List.mem_cons_self ..
  have hbefore := operand?_unversioned (x := phi.var.name) hsource
  rw [Phi.operand?, ← hoperands] at hbefore
  rw [hfilled.kept none fun _ _ => by simp]
  exact hbefore

/-- **Every version among the operands** comes along an edge from a reachable block. -/
theorem operand_source (h : Rebuilt g g' exits) (hagree : g.EdgesAgree)
    (hssa : isInSsa g = false) {id : Nat} {phi : Phi} (hphi : phi ∈ phisOf g' id) {op : Operand}
    (hop : op ∈ phi.operands) : op.var.name = phi.var.name ∧
      (op.var.version = none ∨ ∃ u, op.pred = some u ∧ g.Reachable u ∧ g.HasEdge u id ∧
        op.var.version = exits u phi.var.name) := by
  obtain ⟨b, hb, -, -, before, hname, hoperands, hfilled⟩ := h.exists_needs hssa hphi
  obtain ⟨first, hfirst, -, hopName, hversion⟩ := hfilled.sound op hop
  rw [hoperands] at hfirst
  obtain ⟨source, -, rfl⟩ := List.mem_map.mp hfirst
  refine ⟨hopName, hversion.imp_right ?_⟩
  rintro ⟨u, hu, hpred, heq⟩
  obtain ⟨hmem, hsucc⟩ := mem_sourcesInto.mp hu
  rw [hname] at heq
  exact ⟨u, hpred, (mem_preorder_iff hagree).mp hmem, ⟨hsucc, FlowGraph.lt_size_of_block? hb⟩,
    heq⟩

end Rebuilt

/-- **Construction leaves environments that reach**, and changes nothing but placeholders and
versions. -/
theorem reaching_construct {counter : Counter} {result : Result}
    (h : construct g counter = .ok result) :
    g.SameOutline result.graph ∧ ∃ entering leaving, Reaching result.graph entering leaving := by
  obtain ⟨hvalid, hssa, -⟩ := construct_eq_ok h
  have hagree := FlowGraph.edgesAgree_of_validate hvalid
  obtain ⟨exits, hbuilt⟩ := rebuilt_construct h
  have hsame := hbuilt.sameOutline
  refine ⟨hsame, entryEnv (compute g) exits, exits, ?_⟩
  have hkeep : ∀ x r, g.Reachable r → ¬ Needs g r x → ¬ Assigns g r x →
      exits r x = entryEnv (compute g) exits r x := by
    intro x r hr hneeds hassigns
    rw [(hbuilt.events hr).2]
    refine Env.after_of_not_defines fun hdefines => ?_
    rcases hbuilt.needs_or_assigns hssa hr hdefines with h | h
    · exact hneeds h
    · exact hassigns h
  obtain ⟨hnodup, hdisjoint⟩ := List.nodup_flatMap.mp hbuilt.nodup
  constructor
  case entry =>
    rw [entryEnv, show (compute g).idom? result.graph.entry = none from ?_]
    cases hidom : (compute g).idom? result.graph.entry with
    | none => rfl
    | some d => exact absurd rfl (idom?_eq_some hagree hidom).2.1
  case resolves => exact fun b hb => (hbuilt.events (hsame.reachable_iff.mp hb)).1
  case leaving_eq => exact fun b hb => (hbuilt.events (hsame.reachable_iff.mp hb)).2
  case edge =>
    intro u b hu hedge x
    by_cases hneeds : Needs g b x
    · exact .inl (hbuilt.exists_phi hagree hssa hneeds)
    · exact .inr (exits_eq_entryEnv hagree (hsame.reachable_iff.mp hu)
        (hsame.hasEdge_iff.mp hedge) (hkeep x) hneeds)
  case reachable_of_phi =>
    intro b phi hphi
    obtain ⟨-, -, -, hb, -⟩ := hbuilt.exists_needs hssa hphi
    exact hsame.reachable_iff.mpr hb
  case operand =>
    intro u b hu hedge phi hphi
    exact hbuilt.operand?_edge hagree hssa (hsame.reachable_iff.mp hu) (hsame.hasEdge_iff.mp hedge)
      hphi
  case entry_operand => exact fun phi hphi => hbuilt.operand?_outside hssa hphi
  case operand_sound =>
    intro b phi hphi op hop
    obtain ⟨hname, hversion⟩ := hbuilt.operand_source hagree hssa hphi hop
    refine ⟨hname, hversion.imp_right ?_⟩
    rintro ⟨u, hpred, hu, hedge, heq⟩
    exact ⟨u, hpred, hsame.reachable_iff.mpr hu, hsame.hasEdge_iff.mpr hedge, heq⟩
  case nodup_names => exact hbuilt.nodup_names hssa
  case nodup =>
    intro b hb
    exact hnodup b ((mem_preorder_iff hagree).mpr (hsame.reachable_iff.mp hb))
  case owner =>
    intro a b ha hb n hna hnb
    by_contra hne
    have : Std.Symm (Function.onFun List.Disjoint fun id =>
        definedVersions (result.graph.eventsOf id)) := ⟨fun _ _ h _ h₁ h₂ => h h₂ h₁⟩
    have hpair := hdisjoint.forall
      ((mem_preorder_iff hagree).mpr (hsame.reachable_iff.mp ha))
      ((mem_preorder_iff hagree).mpr (hsame.reachable_iff.mp hb)) hne
    exact hpair hna hnb

end FlowForm.Ssa
