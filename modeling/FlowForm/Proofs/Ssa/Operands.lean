import Mathlib.Algebra.GroupWithZero.Nat
import FlowForm.Proofs.Ssa.Renaming

/-!
# Filling in Operands

Filling in operands draws no version and changes nothing but the versions of operands. What a
placeholder looks like in the end is what becomes of it when the sources of its block's incoming
edges are gone through in the order in which they come up (`block?_fillOperands`), and one pass over
some sources gives each of them that has an operand the version that its environment has, while
every other operand stays as it was (`Filled`).

## Main results

* `filled_fillFrom`: what filling in from some sources does to a placeholder.
* `block?_fillOperands`: what filling in does to the blocks of a graph.
* `run_fillOperands_eq`: filling in as a fold over edges, and what it counts.
-/

namespace FlowForm

/-! ### Changes that keep the edges -/

namespace FlowGraph

/-- Successors after a change of all blocks that keeps them. -/
theorem succs_mapBlocks (g : FlowGraph) {f : Nat → Block → Block}
    (hf : ∀ id b, (f id b).succs = b.succs) (i : Nat) : (g.mapBlocks f).succs i = g.succs i := by
  rw [succs, succs, block?_mapBlocks]
  cases g.block? i with
  | none => rfl
  | some b => simp only [Option.map_some, hf]

end FlowGraph

namespace Ssa

variable {p r : Progress}

/-! ### One placeholder -/

/-- Filling in keeps the operands for other sources. -/
theorem find?_setFirst_of_ne {pred : Nat} {version : Option Nat} {source : Option Nat}
    (h : source ≠ some pred) (ops : List Operand) :
    (setFirst pred version ops).find? (·.pred == source) = ops.find? (·.pred == source) := by
  induction ops with
  | nil => rfl
  | cons op ops ih =>
      rw [setFirst]
      split
      · rename_i hpred
        have hne : (op.pred == source) = false := by simpa [hpred] using h.symm
        simp only [List.find?_cons, hne]
      · simp only [List.find?_cons, ih]

/-- The first operand for a source is the one that is filled in. -/
theorem find?_setFirst_self {pred : Nat} {version : Option Nat} {ops : List Operand}
    {op : Operand} (h : ops.find? (·.pred == some pred) = some op) :
    (setFirst pred version ops).find? (·.pred == some pred) =
      some { op with var := op.var.withVersion version } := by
  induction ops with
  | nil => simp at h
  | cons o ops ih =>
      rw [setFirst]
      by_cases hpred : o.pred = some pred
      · simp only [List.find?_cons, hpred, beq_self_eq_true, Option.some.injEq] at h
        subst h
        simp [hpred]
      · have hne : (o.pred == some pred) = false := by simpa using hpred
        simp only [List.find?_cons, hne] at h
        simp only [hpred, if_false, List.find?_cons, hne]
        exact ih h

/-- An operand is as it was or has been filled in. -/
theorem mem_setFirst {pred : Nat} {version : Option Nat} {ops : List Operand} {op' : Operand}
    (h : op' ∈ setFirst pred version ops) :
    op' ∈ ops ∨ ∃ op ∈ ops, op.pred = some pred ∧
      op' = { op with var := op.var.withVersion version } := by
  induction ops with
  | nil => simp [setFirst] at h
  | cons op ops ih =>
      rw [setFirst] at h
      split at h
      · rename_i hpred
        rcases List.mem_cons.mp h with rfl | h
        · exact .inr ⟨op, List.mem_cons_self .., hpred, rfl⟩
        · exact .inl (List.mem_cons_of_mem _ h)
      · rcases List.mem_cons.mp h with rfl | h
        · exact .inl (List.mem_cons_self ..)
        · rcases ih h with h | ⟨o, ho, hpred, heq⟩
          · exact .inl (List.mem_cons_of_mem _ h)
          · exact .inr ⟨o, List.mem_cons_of_mem _ ho, hpred, heq⟩

/-- Filling in keeps the sources in order. -/
theorem map_pred_setFirst (pred : Nat) (version : Option Nat) (ops : List Operand) :
    (setFirst pred version ops).map (·.pred) = ops.map (·.pred) := by
  induction ops with
  | nil => rfl
  | cons op ops ih =>
      rw [setFirst]
      split
      · rfl
      · rw [List.map_cons, List.map_cons, ih]

/-- Fills in the operands for some sources, one after the other. -/
def fillFrom (exits : Exits) (sources : List Nat) (phi : Phi) : Phi :=
  sources.foldl (fun phi pred => fillPhi pred (exits pred) phi) phi

/-- A placeholder that has been **filled in** from some sources: its variable and the sources of its
operands stay, an operand keeps its name and has the version it had or that of its source, the
operand for each source has that version, and the others stay. -/
structure Filled (exits : Exits) (sources : List Nat) (phi phi' : Phi) : Prop where
  var_eq : phi'.var = phi.var
  preds_eq : phi'.operands.map (·.pred) = phi.operands.map (·.pred)
  sound : ∀ op' ∈ phi'.operands, ∃ op ∈ phi.operands, op'.pred = op.pred ∧
    op'.var.name = op.var.name ∧ (op'.var.version = op.var.version ∨
      ∃ pred ∈ sources, op'.pred = some pred ∧ op'.var.version = exits pred phi.var.name)
  complete : ∀ pred ∈ sources, ∀ op, phi.operand? (some pred) = some op →
    phi'.operand? (some pred) =
      some { op with var := op.var.withVersion (exits pred phi.var.name) }
  kept : ∀ source, (∀ pred ∈ sources, source ≠ some pred) →
    phi'.operand? source = phi.operand? source

/-- What **filling in** does to a placeholder. -/
theorem filled_fillFrom (exits : Exits) (sources : List Nat) (phi : Phi) :
    Filled exits sources phi (fillFrom exits sources phi) := by
  induction sources generalizing phi with
  | nil =>
      exact ⟨rfl, rfl, fun op hop => ⟨op, hop, rfl, rfl, .inl rfl⟩, by simp, fun _ _ => rfl⟩
  | cons pred sources ih =>
      have hrest := ih (fillPhi pred (exits pred) phi)
      refine ⟨hrest.var_eq, hrest.preds_eq.trans (map_pred_setFirst ..), ?_, ?_, ?_⟩
      · intro op' hop'
        obtain ⟨op, hop, hpred, hname, hversion⟩ := hrest.sound op' hop'
        rcases mem_setFirst hop with hop | ⟨o, ho, hfirst, rfl⟩
        · refine ⟨op, hop, hpred, hname, hversion.imp_right ?_⟩
          rintro ⟨q, hq, h⟩
          exact ⟨q, List.mem_cons_of_mem _ hq, h⟩
        · refine ⟨o, ho, hpred, hname, .inr ?_⟩
          rcases hversion with hversion | ⟨q, hq, h⟩
          · exact ⟨pred, List.mem_cons_self .., hpred.trans hfirst, hversion⟩
          · exact ⟨q, List.mem_cons_of_mem _ hq, h⟩
      · intro q hq op hop
        by_cases hmem : q ∈ sources
        · -- What a later source says about an operand hides what an earlier one said.
          by_cases heq : q = pred
          · subst heq
            have hfirst : (fillPhi q (exits q) phi).operand? (some q) =
                some { op with var := op.var.withVersion (exits q phi.var.name) } :=
              find?_setFirst_self hop
            have hlast := hrest.complete q hmem _ hfirst
            exact hlast
          · have hne : some q ≠ some pred := fun h => heq (Option.some.inj h)
            refine hrest.complete q hmem op ?_
            rw [← hop]
            exact find?_setFirst_of_ne hne phi.operands
        · obtain rfl : q = pred := (List.mem_cons.mp hq).resolve_right hmem
          rw [show fillFrom exits (q :: sources) phi =
            fillFrom exits sources (fillPhi q (exits q) phi) from rfl, hrest.kept (some q)]
          · exact find?_setFirst_self hop
          · rintro q' hq' heq
            exact hmem (Option.some.inj heq ▸ hq')
      · intro source hsource
        rw [show fillFrom exits (pred :: sources) phi =
          fillFrom exits sources (fillPhi pred (exits pred) phi) from rfl,
          hrest.kept source fun q hq => hsource q (List.mem_cons_of_mem _ hq)]
        exact find?_setFirst_of_ne (hsource pred (List.mem_cons_self ..)) phi.operands

/-! ### The graph -/

/-- What has been reached when some more uses have been bound. -/
def Progress.addUses (p : Progress) (uses : Nat) : Progress :=
  { p with stats.renamedUses := p.stats.renamedUses + uses }

/-- Uses may be added one after the other or at once. -/
@[simp]
theorem Progress.addUses_addUses (p : Progress) (m n : Nat) :
    (p.addUses m).addUses n = p.addUses (m + n) := by
  simp only [addUses, Nat.add_assoc]

/-- Nothing else is counted. -/
theorem counts_addUses (p : Progress) (n : Nat) : Counts p (p.addUses n) 0 n :=
  ⟨rfl, rfl, rfl⟩

/-- Steps of a fold that do what `step` does and count what `cost` says make a fold of `step`. What
they count is the sum of what each of them counts, if that does not depend on those before. -/
theorem run_foldlM_eq {α β : Type} {f : β → α → Rename β} {step : β → α → β}
    {cost : β → α → Nat}
    (hstep : ∀ a x p, (f a x).run p = .ok (step a x, p.addUses (cost a x)))
    (hcost : ∀ a x, cost (step a x) = cost a) (xs : List α) (a : β) (p : Progress) :
    (xs.foldlM f a).run p = .ok (xs.foldl step a, p.addUses (xs.map (cost a)).sum) := by
  induction xs generalizing a p with
  | nil => rfl
  | cons x xs ih =>
      rw [List.foldlM_cons, run_bind_eq_ok]
      refine ⟨_, _, hstep a x p, ?_⟩
      rw [ih, hcost, Progress.addUses_addUses]
      rfl

/-- The graph with the operands for one edge filled in. -/
def filledEdge (exits : Exits) (pred : Nat) (g : FlowGraph) (succ : Nat) : FlowGraph :=
  g.modifyBlock succ fun b => { b with phis := b.phis.map (fillPhi pred (exits pred)) }

/-- The number of operands that are **bound** to a version along the edge from `pred` to `succ`. -/
def boundOperands (exits : Exits) (g : FlowGraph) (pred succ : Nat) : Nat :=
  (phisOf g succ).countP (fillBinds pred (exits pred))

/-- Filling in the operands for one edge. -/
theorem run_fillEdge (exits : Exits) (pred : Nat) (g : FlowGraph) (succ : Nat) (p : Progress) :
    (fillEdge exits pred g succ).run p =
      .ok (filledEdge exits pred g succ, p.addUses (boundOperands exits g pred succ)) := by
  rw [fillEdge, boundOperands, phisOf]
  cases hb : g.block? succ with
  | none => rfl
  | some b => rfl

/-- The block with its placeholders filled in from some sources. -/
def filledBlock (exits : Exits) (sources : List Nat) (b : Block) : Block :=
  { b with phis := b.phis.map (fillFrom exits sources) }

/-- Filling in from no source. -/
theorem filledBlock_nil (exits : Exits) (b : Block) : filledBlock exits [] b = b := by
  have hphis : b.phis.map (fillFrom exits []) = b.phis := List.map_id b.phis
  rw [filledBlock, hphis]

/-- Filling in from some sources and then from others. -/
theorem filledBlock_filledBlock (exits : Exits) (ps qs : List Nat) (b : Block) :
    filledBlock exits qs (filledBlock exits ps b) = filledBlock exits (ps ++ qs) b := by
  simp [filledBlock, fillFrom]

/-- The sources of the edges into a block, in the order in which they come up. -/
def sourcesInto (succs : Nat → List Nat) (ids : List Nat) (id : Nat) : List Nat :=
  ids.flatMap fun pred => List.replicate ((succs pred).count id) pred

/-- A source is a block with an edge. -/
theorem mem_sourcesInto {succs : Nat → List Nat} {ids : List Nat} {id pred : Nat} :
    pred ∈ sourcesInto succs ids id ↔ pred ∈ ids ∧ id ∈ succs pred := by
  rw [sourcesInto, List.mem_flatMap]
  constructor
  · rintro ⟨q, hq, hmem⟩
    obtain ⟨hcount, rfl⟩ := List.mem_replicate.mp hmem
    exact ⟨hq, List.count_pos_iff.mp (Nat.pos_of_ne_zero hcount)⟩
  · rintro ⟨hids, hsucc⟩
    exact ⟨pred, hids, List.mem_replicate.mpr ⟨Nat.ne_of_gt (List.count_pos_iff.mpr hsucc), rfl⟩⟩

/-- What filling in for the edges of one block does to the blocks. -/
theorem block?_foldl_filledEdge (exits : Exits) (pred : Nat) (targets : List Nat)
    (g : FlowGraph) (id : Nat) :
    (targets.foldl (filledEdge exits pred) g).block? id =
      (g.block? id).map (filledBlock exits (List.replicate (targets.count id) pred)) := by
  induction targets generalizing g with
  | nil =>
      rw [List.foldl_nil, List.count_nil, List.replicate_zero, funext (filledBlock_nil exits)]
      exact Option.map_id'.symm
  | cons t targets ih =>
      rw [List.foldl_cons, ih, filledEdge, FlowGraph.block?_modifyBlock, Option.map_map]
      congr 1
      funext b
      by_cases ht : t = id
      · rw [Function.comp_apply, if_pos ht, ht, List.count_cons_self, Nat.add_comm,
          List.replicate_add, ← filledBlock_filledBlock]
        rfl
      · rw [Function.comp_apply, if_neg ht, List.count_cons_of_ne ht]

/-- Filling in changes no edge. -/
theorem succs_foldl_filledEdge (exits : Exits) (pred : Nat) (targets : List Nat)
    (g : FlowGraph) : (targets.foldl (filledEdge exits pred) g).succs = g.succs := by
  funext i
  rw [FlowGraph.succs, FlowGraph.succs, block?_foldl_filledEdge]
  cases g.block? i with
  | none => rfl
  | some b => rfl

/-- **What filling in operands does to the blocks of a graph.** -/
theorem block?_fillOperands (exits : Exits) (ids : List Nat) (g : FlowGraph) (id : Nat) :
    (ids.foldl (fun g id => (g.succs id).foldl (filledEdge exits id) g) g).block? id =
      (g.block? id).map (filledBlock exits (sourcesInto g.succs ids id)) := by
  induction ids generalizing g with
  | nil =>
      rw [List.foldl_nil, sourcesInto, List.flatMap_nil, funext (filledBlock_nil exits)]
      exact Option.map_id'.symm
  | cons pred ids ih =>
      rw [List.foldl_cons, ih, succs_foldl_filledEdge, block?_foldl_filledEdge, Option.map_map]
      congr 1
      funext b
      exact filledBlock_filledBlock ..

/-- Filling in for the edges of one block keeps what a graph has besides its blocks. -/
theorem kept_foldl_filledEdge (exits : Exits) (pred : Nat) (targets : List Nat) (g : FlowGraph) :
    (targets.foldl (filledEdge exits pred) g).keys = g.keys ∧
      (targets.foldl (filledEdge exits pred) g).unresolved = g.unresolved := by
  induction targets generalizing g with
  | nil => exact ⟨rfl, rfl⟩
  | cons t targets ih => exact ih (filledEdge exits pred g t)

/-- Filling in keeps what a graph has besides its blocks. -/
theorem kept_fillOperands (exits : Exits) (ids : List Nat) (g : FlowGraph) :
    (ids.foldl (fun g id => (g.succs id).foldl (filledEdge exits id) g) g).keys = g.keys ∧
      (ids.foldl (fun g id => (g.succs id).foldl (filledEdge exits id) g) g).unresolved =
        g.unresolved := by
  induction ids generalizing g with
  | nil => exact ⟨rfl, rfl⟩
  | cons pred ids ih =>
      rw [List.foldl_cons, (ih _).1, (ih _).2]
      exact kept_foldl_filledEdge exits pred _ g

/-- An operand can be filled in or not whatever has been filled in before. -/
theorem fillBinds_fillFrom (exits : Exits) (sources : List Nat) (pred : Nat) (env : Env)
    (phi : Phi) : fillBinds pred env (fillFrom exits sources phi) = fillBinds pred env phi := by
  have hfilled := filled_fillFrom exits sources phi
  have hsome : ∀ psi : Phi, (psi.operand? (some pred)).isSome =
      (psi.operands.map (·.pred)).any (· == some pred) := fun psi => by
    rw [Phi.operand?, List.any_map, List.isSome_find?]
    rfl
  rw [fillBinds, fillBinds, hsome, hsome, hfilled.preds_eq, hfilled.var_eq]

/-- Filling in for the edges of one block changes nothing about which operands are bound. -/
theorem boundOperands_foldl_filledEdge (exits : Exits) (pred : Nat) (targets : List Nat)
    (g : FlowGraph) :
    boundOperands exits (targets.foldl (filledEdge exits pred) g) = boundOperands exits g := by
  funext q succ
  rw [boundOperands, boundOperands, phisOf, phisOf, block?_foldl_filledEdge]
  cases g.block? succ with
  | none => rfl
  | some b =>
      simp only [Option.map_some, filledBlock, List.countP_map]
      exact List.countP_congr fun phi _ => by
        rw [Function.comp_apply, fillBinds_fillFrom]

/-- Filling in operands changes no edge. -/
theorem succs_fillOperands (exits : Exits) (ids : List Nat) (g : FlowGraph) :
    (ids.foldl (fun g id => (g.succs id).foldl (filledEdge exits id) g) g).succs = g.succs := by
  induction ids generalizing g with
  | nil => rfl
  | cons pred ids ih => rw [List.foldl_cons, ih, succs_foldl_filledEdge]

/-- Filling in operands changes nothing about which of them are bound. -/
theorem boundOperands_fillOperands (exits : Exits) (ids : List Nat) (g : FlowGraph) :
    boundOperands exits (ids.foldl (fun g id => (g.succs id).foldl (filledEdge exits id) g) g) =
      boundOperands exits g := by
  induction ids generalizing g with
  | nil => rfl
  | cons pred ids ih => rw [List.foldl_cons, ih, boundOperands_foldl_filledEdge]

/-- Filling in the operands for the edges of one block. -/
theorem run_foldlM_fillEdge (exits : Exits) (pred : Nat) (targets : List Nat) (g : FlowGraph)
    (p : Progress) :
    (targets.foldlM (fillEdge exits pred) g).run p =
      .ok (targets.foldl (filledEdge exits pred) g,
        p.addUses (targets.map (boundOperands exits g pred)).sum) :=
  run_foldlM_eq (run_fillEdge exits pred)
    (fun g succ => congrFun (boundOperands_foldl_filledEdge exits pred [succ] g) pred) targets g p

/-- **Filling in operands goes through**. It is a fold over the edges. -/
theorem run_fillOperands_eq (exits : Exits) (ids : List Nat) (g : FlowGraph) (p : Progress) :
    (fillOperands exits ids g).run p =
      .ok (ids.foldl (fun g id => (g.succs id).foldl (filledEdge exits id) g) g, p.addUses
        (ids.map fun id => ((g.succs id).map (boundOperands exits g id)).sum).sum) := by
  refine run_foldlM_eq (fun g id p => run_foldlM_fillEdge exits id (g.succs id) g p)
    (fun g id => ?_) ids g p
  funext j
  rw [succs_foldl_filledEdge, boundOperands_foldl_filledEdge]

/-- **Filling in operands** draws nothing, and counts the operands that are bound along edges. -/
theorem run_fillOperands {exits : Exits} {ids : List Nat} {g g' : FlowGraph}
    (h : (fillOperands exits ids g).run p = .ok (g', r)) :
    g' = ids.foldl (fun g id => (g.succs id).foldl (filledEdge exits id) g) g ∧
      r.counter = p.counter ∧
      Counts p r 0 (ids.map fun id => ((g.succs id).map (boundOperands exits g id)).sum).sum := by
  rw [run_fillOperands_eq] at h
  cases h
  exact ⟨rfl, rfl, counts_addUses p _⟩

end Ssa

end FlowForm
