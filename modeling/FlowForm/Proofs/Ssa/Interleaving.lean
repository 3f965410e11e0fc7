import FlowForm.Proofs.Ssa.Operands

/-!
# Filling In While Renaming

Operands may be filled in when all blocks have been renamed, or those of each block's successors as
soon as the block has been renamed itself (`visitBlocks`). Both come to the same
(`run_visitBlocks`), because neither step looks at what the other one changes. Renaming reads no
operand, and filling in reads a placeholder's name, which renaming keeps, and the environment at the
end of a block, which is settled once the block is done.

A step **shifts** along a change if it does the same to what has been changed, whatever has been
counted before (`Shifts`). Renaming shifts along every filling in.

## Main results

* `shifts_renameBlocks`: renaming blocks shifts along filling in for the edges of a block.
* `run_visitBlocks`: filling in block by block and filling in at the end.
-/

namespace FlowForm.Ssa

variable {α β γ : Type} {p r : Progress}

/-- Renames the blocks in the order given, and fills in what the successors of a block get from it
before the next block comes up. -/
def visitBlocks (tree : DominatorTree) :
    List Nat → FlowGraph → Exits → Rename (FlowGraph × Exits)
  | [], g, exits => return (g, exits)
  | id :: ids, g, exits => do
    match g.block? id with
    | none => visitBlocks tree ids g exits
    | some b =>
      let (renamed, env) ← renameBlock (entryEnv tree exits id) b
      let exits := fun x => if x = id then env else exits x
      let g := g.modifyBlock id fun _ => renamed
      let filled ← (g.succs id).foldlM (fillEdge exits id) g
      visitBlocks tree ids filled exits

/-- Renames the blocks in the order given, and fills in operands when all of them are done. -/
def renameThenFill (tree : DominatorTree) (ids : List Nat) (g : FlowGraph) (exits : Exits) :
    Rename (FlowGraph × Exits) := do
  let (g, exits) ← renameBlocks tree ids g exits
  let filled ← fillOperands exits ids g
  return (filled, exits)

/-! ### Steps that shift -/

/-- A step `y` **shifts** `x` along `f` if it does the same, with `f` applied to the result, however
many uses have been counted before. -/
def Shifts (f : α → β) (x : Rename α) (y : Rename β) : Prop :=
  ∀ p n, y.run (p.addUses n) = (x.run p).map fun out => (f out.1, out.2.addUses n)

/-- Returning a value. -/
theorem shifts_pure (f : α → β) (a : α) : Shifts f (pure a) (pure (f a)) :=
  fun _ _ => rfl

/-- Two steps in sequence. -/
theorem Shifts.bind {δ : Type} {f : α → β} {f' : γ → δ} {x : Rename α} {y : Rename β}
    {next : α → Rename γ} {next' : β → Rename δ} (h : Shifts f x y)
    (hnext : ∀ a, Shifts f' (next a) (next' (f a))) : Shifts f' (x >>= next) (y >>= next') := by
  intro p n
  rw [StateT.run_bind, StateT.run_bind, h p n]
  cases x.run p with
  | error e => rfl
  | ok out => exact hnext out.1 out.2 n

/-- Counting may be done in any order. -/
theorem shifts_countUses (uses : Nat) : Shifts id (countUses uses) (countUses uses) := by
  intro p n
  have hcomm : (p.addUses n).addUses uses = (p.addUses uses).addUses n := by
    rw [Progress.addUses_addUses, Progress.addUses_addUses, Nat.add_comm]
  exact congrArg (fun q => Except.ok ((), q)) hcomm

/-- Drawing a version does not depend on what has been counted. -/
theorem shifts_draw : Shifts id draw draw := by
  intro p n
  rw [run_draw, run_draw]
  change p.counter.next.map _ = _
  cases p.counter.next <;> rfl

/-- Renaming one thing after the other. -/
theorem shifts_renameAll {f : α → α} {rename : Env → α → Rename (α × Env)}
    (hrename : ∀ env x, Shifts (Prod.map f id) (rename env x) (rename env (f x))) (env : Env)
    (xs : List α) :
    Shifts (Prod.map (List.map f) id) (renameAll rename env xs)
      (renameAll rename env (xs.map f)) := by
  induction xs generalizing env with
  | nil => exact shifts_pure (Prod.map (List.map f) id) ([], env)
  | cons x xs ih =>
      rw [List.map_cons, renameAll, renameAll]
      refine (hrename env x).bind fun head => (ih head.2).bind fun rest => ?_
      exact shifts_pure (Prod.map (List.map f) id) (head.1 :: rest.1, rest.2)

/-- Renaming things one after the other that are the same after the change. -/
theorem shifts_renameAll_id {rename : Env → α → Rename (α × Env)}
    (hrename : ∀ env x, Shifts id (rename env x) (rename env x)) (env : Env) (xs : List α) :
    Shifts id (renameAll rename env xs) (renameAll rename env xs) := by
  have hall := shifts_renameAll (f := id) (by simpa using hrename) env xs
  simpa using hall

/-- Renaming an assignment. -/
theorem shifts_renameAssignment (env : Env) (s : Assignment) :
    Shifts id (renameAssignment env s) (renameAssignment env s) := by
  have hvalue : Shifts id (renameExpr env s.value) (renameExpr env s.value) :=
    (shifts_countUses _).bind fun _ => shifts_pure id _
  have htarget : Shifts id (defineVar env s.target) (defineVar env s.target) :=
    shifts_draw.bind fun _ => shifts_pure id _
  exact hvalue.bind fun _ => htarget.bind fun _ =>
    Shifts.bind (f := id) (fun _ _ => rfl) fun _ => shifts_pure id _

/-- Renaming an item. -/
theorem shifts_renameItem (env : Env) (item : Item) :
    Shifts id (renameItem env item) (renameItem env item) := by
  refine (shifts_renameAll_id shifts_renameAssignment env item.statements).bind fun out => ?_
  have hterminator : Shifts id (renameTerminator out.2 item.terminator)
      (renameTerminator out.2 item.terminator) :=
    (shifts_countUses _).bind fun _ => shifts_pure id _
  exact hterminator.bind fun _ => shifts_pure id _

/-- Operands are filled in by the name of the variable, so its version may change before or
after that. -/
theorem fillFrom_withVersion (exits : Exits) (sources : List Nat) (phi : Phi)
    (version : Option Nat) :
    fillFrom exits sources { phi with var := phi.var.withVersion version } =
      { fillFrom exits sources phi with var := phi.var.withVersion version } := by
  induction sources generalizing phi with
  | nil => rfl
  | cons pred sources ih => exact ih (fillPhi pred (exits pred) phi)

/-- Renaming a placeholder. -/
theorem shifts_renamePhi (filling : Exits) (sources : List Nat) (env : Env) (phi : Phi) :
    Shifts (Prod.map (fillFrom filling sources) id) (renamePhi env phi)
      (renamePhi env (fillFrom filling sources phi)) := by
  have heq : ∀ phi : Phi, renamePhi env phi = draw >>= fun version =>
      pure ({ phi with var := phi.var.withVersion (some version) },
        env.define phi.var.name version) := fun phi => by
    simp [renamePhi, defineVar]
  rw [heq, heq, (filled_fillFrom filling sources phi).var_eq]
  refine shifts_draw.bind fun version => ?_
  have hpure := shifts_pure (Prod.map (fillFrom filling sources) id)
    ({ phi with var := phi.var.withVersion (some version) }, env.define phi.var.name version)
  rwa [Prod.map_apply, fillFrom_withVersion] at hpure

/-- Renaming a **block**. -/
theorem shifts_renameBlock (filling : Exits) (sources : List Nat) (env : Env) (b : Block) :
    Shifts (Prod.map (filledBlock filling sources) id) (renameBlock env b)
      (renameBlock env (filledBlock filling sources b)) := by
  refine (shifts_renameAll (shifts_renamePhi filling sources) env b.phis).bind fun phis => ?_
  refine (shifts_renameAll_id shifts_renameItem phis.2 b.items).bind fun items => ?_
  exact shifts_pure (Prod.map (filledBlock filling sources) id)
    ({ b with phis := phis.1, items := items.1 }, items.2)

/-! ### Graphs -/

/-- A block may be put in place before or after operands are filled in. -/
theorem modifyBlock_foldl_filledEdge (exits : Exits) (pred : Nat) (targets : List Nat)
    (g : FlowGraph) (i : Nat) (b : Block) :
    (targets.foldl (filledEdge exits pred) g).modifyBlock i
        (fun _ => filledBlock exits (List.replicate (targets.count i) pred) b) =
      targets.foldl (filledEdge exits pred) (g.modifyBlock i fun _ => b) := by
  have hkept := kept_foldl_filledEdge exits pred targets
  have hkept' := hkept (g.modifyBlock i fun _ => b)
  refine FlowGraph.eq_of_block? ((hkept g).1.trans hkept'.1.symm)
    ((hkept g).2.trans hkept'.2.symm) fun j => ?_
  rw [FlowGraph.block?_modifyBlock, block?_foldl_filledEdge, block?_foldl_filledEdge,
    FlowGraph.block?_modifyBlock, Option.map_map, Option.map_map]
  congr 1
  funext c
  by_cases hij : i = j
  · subst hij
    simp
  · simp [hij]

/-- **Renaming blocks** after operands have been filled in for the edges of one of them. -/
theorem shifts_renameBlocks (tree : DominatorTree) (filling : Exits) (pred : Nat)
    (targets ids : List Nat) (g : FlowGraph) (exits : Exits) :
    Shifts (Prod.map (targets.foldl (filledEdge filling pred)) id)
      (renameBlocks tree ids g exits)
      (renameBlocks tree ids (targets.foldl (filledEdge filling pred) g) exits) := by
  induction ids generalizing g exits with
  | nil => exact shifts_pure (Prod.map (targets.foldl (filledEdge filling pred)) id) (g, exits)
  | cons i ids ih =>
      rw [renameBlocks, renameBlocks, block?_foldl_filledEdge]
      cases g.block? i with
      | none => exact ih g exits
      | some b =>
          refine (shifts_renameBlock filling _ _ b).bind fun out => ?_
          have hrest := ih (g.modifyBlock i fun _ => out.1)
            fun x => if x = i then out.2 else exits x
          rwa [← modifyBlock_foldl_filledEdge] at hrest

/-- Environments at the ends of other blocks stay. -/
theorem exits_renameBlocks {tree : DominatorTree} {ids : List Nat} {g g' : FlowGraph}
    {exits exits' : Exits} (h : (renameBlocks tree ids g exits).run p = .ok ((g', exits'), r))
    {i : Nat} (hi : i ∉ ids) : exits' i = exits i := by
  induction ids generalizing g exits p with
  | nil =>
      rw [renameBlocks, run_pure_eq_ok] at h
      cases h.1
      rfl
  | cons j ids ih =>
      rw [List.mem_cons, not_or] at hi
      rw [renameBlocks] at h
      split at h
      · exact ih h hi.2
      · obtain ⟨⟨b', env⟩, q, -, h⟩ := run_bind_eq_ok.mp h
        exact (ih h hi.2).trans (if_neg hi.1)

/-- Which operands are bound along an edge can be told without versions. -/
theorem countP_fillBinds_of_erase {b b' : Block} (h : b'.erase = b.erase) (pred : Nat) (env : Env) :
    b'.phis.countP (fillBinds pred env) = b.phis.countP (fillBinds pred env) := by
  have hphis : b'.phis.map Phi.erase = b.phis.map Phi.erase := congrArg Block.phis h
  have hcount : ∀ phis : List Phi, phis.countP (fillBinds pred env) =
      (phis.map Phi.erase).countP (fillBinds pred env) := fun phis => by
    rw [List.countP_map]
    rfl
  rw [hcount b'.phis, hphis, ← hcount]

/-- Renaming blocks changes nothing about edges, nor about which operands are bound along them. -/
theorem edges_renameBlocks {tree : DominatorTree} {ids : List Nat} {g g' : FlowGraph}
    {exits exits' : Exits} (h : (renameBlocks tree ids g exits).run p = .ok ((g', exits'), r)) :
    g'.succs = g.succs ∧ ∀ filling, boundOperands filling g' = boundOperands filling g := by
  induction ids generalizing g exits p with
  | nil =>
      rw [renameBlocks, run_pure_eq_ok] at h
      cases h.1
      exact ⟨rfl, fun _ => rfl⟩
  | cons i ids ih =>
      rw [renameBlocks] at h
      split at h
      · exact ih h
      · rename_i b hb
        obtain ⟨⟨b', env⟩, q, hblock, h⟩ := run_bind_eq_ok.mp h
        have herase := (renames_renameBlock hblock).erase_eq
        obtain ⟨hsuccs, hbound⟩ := ih h
        have hblocks : ∀ j, (g.modifyBlock i fun _ => b').block? j =
            if i = j then some b' else g.block? j := by
          intro j
          rw [FlowGraph.block?_modifyBlock]
          by_cases hij : i = j
          · rw [if_pos hij, ← hij, hb]
            simp
          · simp [hij]
        refine ⟨hsuccs.trans ?_, fun filling => (hbound filling).trans ?_⟩
        · funext j
          rw [FlowGraph.succs, FlowGraph.succs, hblocks]
          by_cases hij : i = j
          · rw [if_pos hij, ← hij, hb]
            have hsame : b'.erase.succs = b.erase.succs := congrArg Block.succs herase
            exact hsame
          · rw [if_neg hij]
        · funext pred j
          rw [boundOperands, boundOperands, phisOf, phisOf, hblocks]
          by_cases hij : i = j
          · rw [if_pos hij, ← hij, hb]
            exact countP_fillBinds_of_erase herase pred _
          · rw [if_neg hij]

/-! ### Both orders -/

/-- Filling in for the edges of one block and then for those of others. -/
theorem run_fillOperands_cons (exits : Exits) (i : Nat) (ids : List Nat) (g : FlowGraph)
    (p : Progress) :
    (fillOperands exits (i :: ids) g).run p =
      (fillOperands exits ids ((g.succs i).foldl (filledEdge exits i) g)).run
        (p.addUses ((g.succs i).map (boundOperands exits g i)).sum) := by
  rw [fillOperands, List.foldlM_cons, StateT.run_bind, run_foldlM_fillEdge]
  rfl

/-- **The edges of a block may come first.** Filling in for them before some other blocks are
renamed is the same as filling in for them after that. -/
theorem run_renameThenFill_foldl (tree : DominatorTree) {i : Nat} {ids : List Nat} (hi : i ∉ ids)
    (g : FlowGraph) (exits : Exits) (p : Progress) :
    (renameThenFill tree ids ((g.succs i).foldl (filledEdge exits i) g) exits).run
        (p.addUses ((g.succs i).map (boundOperands exits g i)).sum) =
      (renameBlocks tree ids g exits >>= fun out =>
        fillOperands out.2 (i :: ids) out.1 >>= fun filled => pure (filled, out.2)).run p := by
  rw [renameThenFill, StateT.run_bind, StateT.run_bind, shifts_renameBlocks]
  cases hrest : (renameBlocks tree ids g exits).run p with
  | error e => rfl
  | ok out =>
      obtain ⟨⟨g', exits'⟩, q⟩ := out
      obtain ⟨hsuccs, hbound⟩ := edges_renameBlocks hrest
      have hexit : exits' i = exits i := exits_renameBlocks hrest hi
      have hedge : filledEdge exits' i = filledEdge exits i := by
        funext g succ
        rw [filledEdge, filledEdge, hexit]
      have huses : boundOperands exits' g' i = boundOperands exits g i := by
        funext succ
        rw [hbound, boundOperands, boundOperands, hexit]
      change (fillOperands exits' ids _ >>= fun filled => pure (filled, exits')).run _ =
        (fillOperands exits' (i :: ids) g' >>= fun filled => pure (filled, exits')).run q
      rw [StateT.run_bind, StateT.run_bind, run_fillOperands_cons, hsuccs, hedge, huses]

/-- **Filling in block by block and filling in at the end** come to the same. -/
theorem run_visitBlocks (tree : DominatorTree) {ids : List Nat} (hnodup : ids.Nodup)
    (g : FlowGraph) (exits : Exits) (p : Progress) :
    (visitBlocks tree ids g exits).run p = (renameThenFill tree ids g exits).run p := by
  induction ids generalizing g exits p with
  | nil => rfl
  | cons i ids ih =>
      obtain ⟨hi, hnodup⟩ := List.nodup_cons.mp hnodup
      rw [visitBlocks, renameThenFill, renameBlocks]
      cases hb : g.block? i with
      | none =>
          -- A block that is not there has no edges to fill in for.
          have hrest := run_renameThenFill_foldl tree hi g exits p
          rw [FlowGraph.succs, hb] at hrest
          exact (ih hnodup g exits p).trans hrest
      | some b =>
          rw [bind_assoc, StateT.run_bind, StateT.run_bind]
          cases hblock : (renameBlock (entryEnv tree exits i) b).run p with
          | error e => rfl
          | ok out =>
              obtain ⟨⟨renamed, env⟩, q⟩ := out
              have hrest := run_renameThenFill_foldl tree hi (g.modifyBlock i fun _ => renamed)
                (fun x => if x = i then env else exits x) q
              rw [← ih hnodup] at hrest
              refine Eq.trans ?_ hrest
              change (_ >>= fun filled => visitBlocks tree ids filled _).run q = _
              rw [StateT.run_bind, run_foldlM_fillEdge]
              rfl

/-- Blocks may be visited in two parts. -/
theorem run_visitBlocks_append (tree : DominatorTree) (ids others : List Nat) (g : FlowGraph)
    (exits : Exits) (p : Progress) :
    (visitBlocks tree (ids ++ others) g exits).run p =
      (visitBlocks tree ids g exits).run p >>= fun out =>
        (visitBlocks tree others out.1.1 out.1.2).run out.2 := by
  induction ids generalizing g exits p with
  | nil => rfl
  | cons i ids ih =>
      rw [List.cons_append, visitBlocks, visitBlocks]
      cases g.block? i with
      | none => exact ih g exits p
      | some b =>
          simp only [StateT.run_bind, run_foldlM_fillEdge, bind_assoc]
          refine bind_congr fun out => ?_
          exact ih _ _ _

/-- Visiting blocks keeps where they are registered, and the environments at the ends of others. -/
theorem kept_visitBlocks {tree : DominatorTree} {ids : List Nat} {g g' : FlowGraph}
    {exits exits' : Exits} (h : (visitBlocks tree ids g exits).run p = .ok ((g', exits'), r)) :
    g'.keys = g.keys ∧ ∀ i ∉ ids, exits' i = exits i := by
  induction ids generalizing g exits p with
  | nil =>
      rw [visitBlocks, run_pure_eq_ok] at h
      cases h.1
      exact ⟨rfl, fun _ _ => rfl⟩
  | cons j ids ih =>
      rw [visitBlocks] at h
      split at h
      · obtain ⟨hkeys, hexits⟩ := ih h
        exact ⟨hkeys, fun i hi => hexits i fun hmem => hi (List.mem_cons_of_mem _ hmem)⟩
      · obtain ⟨⟨b', env⟩, q, -, h⟩ := run_bind_eq_ok.mp h
        obtain ⟨filled, q', hfill, h⟩ := run_bind_eq_ok.mp h
        rw [run_foldlM_fillEdge] at hfill
        cases hfill
        obtain ⟨hkeys, hexits⟩ := ih h
        refine ⟨hkeys.trans (kept_foldl_filledEdge ..).1, fun i hi => ?_⟩
        rw [List.mem_cons, not_or] at hi
        exact (hexits i hi.2).trans (if_neg hi.1)

/-- Renaming a graph, with operands filled in block by block. -/
theorem run_renameGraph (tree : DominatorTree) (hnodup : tree.preorder.Nodup) (g : FlowGraph)
    (p : Progress) :
    (renameGraph tree g).run p =
      ((visitBlocks tree tree.preorder g fun _ => Env.empty).run p).map
        fun out => (out.1.1, out.2) := by
  rw [run_visitBlocks tree hnodup, renameGraph, renameThenFill, StateT.run_bind, StateT.run_bind]
  cases (renameBlocks tree tree.preorder g fun _ => Env.empty).run p with
  | error e => rfl
  | ok out =>
      change (fillOperands out.1.2 tree.preorder out.1.1).run out.2 =
        ((fillOperands out.1.2 tree.preorder out.1.1 >>= fun filled =>
          pure (filled, out.1.2)).run out.2).map _
      rw [StateT.run_bind, run_fillOperands_eq]
      rfl

end FlowForm.Ssa
