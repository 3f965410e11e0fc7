import FlowForm.Proofs.Dominance.Preorder
import FlowForm.Proofs.Ssa.Interleaving

/-!
# Renaming in Place

The walk with stacks does what renaming by environments does. An environment is what the stacks have
on top, and the two sides go through the same steps in the same order: a change in place **mirrors**
a step of renaming if it fails where that fails, and otherwise leaves behind what that yields
(`Mirrors`).

What has no counterpart among environments is that a block is left. Popping undoes pushing in any
order, so all that a change has pushed can be popped again at any time, even after a failure
(`Balanced`). That gives back the stacks of the immediate dominator when the subtree of a block is
done, and the next child finds the environment in which its parent ends (`covers_subtree`).

The walk makes two visits for each block of the tree, one to enter and one to leave it, and so never
reaches the bound on their number.

## Main results

* `mirrors_renameBlock`: renaming a block in place.
* `covers_subtree`: the visits to a subtree.
* `settled_rename`: renaming a graph in place.
-/

namespace FlowForm

/-- **A sequence of two steps** that keep what they have changed, by the outcome of the first. -/
theorem runState_bind {ε σ α β : Type} (x : ExceptT ε (StateM σ) α)
    (f : α → ExceptT ε (StateM σ) β) (s : σ) :
    (x >>= f).run.run s = match x.run.run s with
      | (.ok a, t) => (f a).run.run t
      | (.error e, t) => (.error e, t) := by
  rw [ExceptT.run_bind, StateT.run_bind]
  rcases x.run.run s with ⟨_ | a, t⟩
  · rfl
  · rfl

namespace Ssa

variable {α β γ : Type}

/-! ### Stacks -/

namespace Stacks

/-- Popping gives back what was there before a version was pushed. -/
theorem pop_push (live : Stacks) (name : String) (version : Nat) :
    (live.push name version).pop name = live := by
  funext x
  by_cases hx : x = name <;> simp [pop, push, hx]

/-- Versions may be popped in any order. -/
instance : RightCommutative pop where
  right_comm live a b := by
    funext x
    simp only [pop]
    split_ifs <;> rfl

/-- What is on top after a version has been pushed. -/
theorem top?_push (live : Stacks) (name : String) (version : Nat) :
    (live.push name version).top? = Env.define live.top? name version := by
  funext x
  by_cases hx : x = name <;> simp [top?, push, Env.define, hx]

end Stacks

namespace Renamer

/-- The stacks without what has been pushed in the block. -/
def rewound (r : Renamer) : Stacks :=
  r.pushed.foldl Stacks.pop r.live

/-- Uses may be counted one after the other or at once. -/
theorem countUses_countUses (r : Renamer) (m n : Nat) :
    (r.countUses m).countUses n = r.countUses (m + n) := by
  simp only [countUses, Nat.add_assoc]

/-- What has been drawn and counted. -/
def progress (r : Renamer) : Progress where
  counter := r.counter
  stats := r.stats

end Renamer

/-! ### What has been pushed can be popped -/

/-- A change is **balanced** if the stacks are the same before and after it once all that has been
pushed in the block is popped. -/
def Balanced (change : Change α β) : Prop :=
  ∀ s, (change.run.run s).2.2.rewound = s.2.rewound

namespace Balanced

/-- Changes in sequence. -/
theorem bind {change : Change α β} {next : β → Change α γ} (h : Balanced change)
    (hnext : ∀ b, Balanced (next b)) : Balanced (change >>= next) := by
  intro s
  rw [runState_bind, ← h s]
  rcases change.run.run s with ⟨e | b, t⟩
  · rfl
  · exact hnext b t

/-- A change of a part. -/
theorem part {get : α → β} {put : α → β → α} {change : Change β Unit} (h : Balanced change) :
    Balanced (Change.part get put change) :=
  fun s => h (get s.1, s.2)

/-- A change of each element of a list. -/
theorem each {change : Change α Unit} (h : Balanced change) : Balanced (Change.each change) := by
  rintro ⟨xs, r⟩
  change (Change.eachOf change xs r).2.2.rewound = r.rewound
  induction xs generalizing r with
  | nil => rfl
  | cons x xs ih =>
      rw [Change.eachOf, ← h (x, r)]
      rcases change.run.run (x, r) with ⟨e | _, t⟩
      · rfl
      · exact ih t.2

end Balanced

/-- Counting pushes nothing. -/
theorem balanced_bindUses {mapVars : (Var → Var) → α → α} {vars : α → List Var} :
    Balanced (Renamer.bindUses mapVars vars) :=
  fun _ => rfl

/-- Defining a variable anew. -/
theorem run_define (v : Var) (r : Renamer) :
    Renamer.define.run.run (v, r) =
      match r.counter.next with
      | .ok (version, counter) => (.ok (), v.withVersion (some version),
          { r with
            counter
            live := r.live.push v.name version
            pushed := r.pushed ++ [v.name] })
      | .error e => (.error e, v, r) := by
  rw [Renamer.define, runState_bind]
  change ((liftM r.counter.next >>= fun out => _ : Change Var Unit).run.run (v, r)) = _
  rw [runState_bind]
  cases r.counter.next <;> rfl

/-- A definition pushes one version, and notes for which variable. -/
theorem balanced_define : Balanced Renamer.define := by
  rintro ⟨v, r⟩
  rw [run_define]
  cases r.counter.next with
  | error e => rfl
  | ok out =>
      change (r.pushed ++ [v.name]).foldl Stacks.pop (r.live.push v.name out.1) = r.rewound
      rw [List.perm_append_comm.foldl_eq, List.singleton_append, List.foldl_cons, Stacks.pop_push]
      rfl

/-- Renaming a block pushes nothing that is not noted. -/
theorem balanced_renameBlock : Balanced Renamer.renameBlock := by
  have hassignment : Balanced Renamer.renameAssignment :=
    balanced_bindUses.part.bind fun _ => balanced_define.part.bind fun _ _ => rfl
  have hitem : Balanced Renamer.renameItem :=
    hassignment.each.part.bind fun _ => balanced_bindUses.part
  exact balanced_define.part.each.part.bind fun _ => hitem.each.part

/-! ### Mirrors -/

/-- What comes of a change, seen by environments: nothing is left of one that fails. -/
def outcome (out : Except SsaError Unit × α × Renamer) :
    Except SsaError ((α × Env) × Progress) :=
  out.1.map fun _ => ((out.2.1, out.2.2.live.top?), out.2.2.progress)

/-- A change **mirrors** a step of renaming that is made in the environment on top of the stacks. -/
def Mirrors (change : Change α Unit) (rename : Env → α → Rename (α × Env)) : Prop :=
  ∀ a r, (rename r.live.top? a).run r.progress = outcome (change.run.run (a, r))

namespace Mirrors

/-- One change after the other. -/
theorem bind {change change' : Change α Unit} {rename rename' : Env → α → Rename (α × Env)}
    (h : Mirrors change rename) (h' : Mirrors change' rename') :
    Mirrors (change >>= fun _ => change')
      fun env a => rename env a >>= fun out => rename' out.2 out.1 := by
  intro a r
  rw [StateT.run_bind, h a r, runState_bind]
  rcases change.run.run (a, r) with ⟨e | _, t⟩
  · rfl
  · exact h' t.1 t.2

/-- A change of a part. -/
theorem part {get : α → β} {put : α → β → α} {change : Change β Unit}
    {rename : Env → β → Rename (β × Env)} (h : Mirrors change rename) :
    Mirrors (Change.part get put change)
      fun env a => rename env (get a) >>= fun out => pure (put a out.1, out.2) := by
  intro a r
  rw [StateT.run_bind, h (get a) r]
  change _ = outcome (let out := change.run.run (get a, r); (out.1, put a out.2.1, out.2.2))
  rcases change.run.run (get a, r) with ⟨e | _, t⟩
  · rfl
  · rfl

/-- A change of each element of a list. -/
theorem each {change : Change α Unit} {rename : Env → α → Rename (α × Env)}
    (h : Mirrors change rename) : Mirrors (Change.each change) (renameAll rename) := by
  intro xs r
  change _ = outcome (Change.eachOf change xs r)
  induction xs generalizing r with
  | nil => rfl
  | cons x xs ih =>
      rw [renameAll, StateT.run_bind, h x r, Change.eachOf]
      rcases change.run.run (x, r) with ⟨e | _, t⟩
      · rfl
      · change (renameAll rename t.2.live.top? xs >>= fun rest =>
          pure (t.1 :: rest.1, rest.2)).run t.2.progress = _
        rw [StateT.run_bind, ih t.2]
        dsimp only
        rcases Change.eachOf change xs t.2 with ⟨e | _, rest⟩
        · rfl
        · rfl

/-- The same step in other words. -/
theorem congr {change : Change α Unit} {rename rename' : Env → α → Rename (α × Env)}
    (h : Mirrors change rename) (heq : ∀ env a, rename env a = rename' env a) :
    Mirrors change rename' :=
  fun a r => heq r.live.top? a ▸ h a r

end Mirrors

/-- Defining a variable anew. -/
theorem mirrors_define : Mirrors Renamer.define defineVar := by
  intro v r
  rw [defineVar, StateT.run_bind, run_draw, run_define]
  change (r.counter.next.map _ >>= _) = _
  cases r.counter.next with
  | error e => rfl
  | ok out =>
      change Except.ok ((v.withVersion (some out.1), Env.define r.live.top? v.name out.1), _) = _
      rw [← Stacks.top?_push]
      rfl

/-- Binding uses. -/
theorem mirrors_bindUses {mapVars : (Var → Var) → α → α} {vars : α → List Var} :
    Mirrors (Renamer.bindUses mapVars vars) fun env a =>
      countUses ((vars (mapVars env.resolve a)).countP Var.isVersioned) >>= fun _ =>
        pure (mapVars env.resolve a, env) :=
  fun _ _ => rfl

/-- Renaming an assignment. -/
theorem mirrors_renameAssignment : Mirrors Renamer.renameAssignment renameAssignment := by
  have hcount : Mirrors
      (modify fun s => (s.1, { s.2 with stats.definitions := s.2.stats.definitions + 1 }))
      fun env (s : Assignment) =>
        modify (fun p => { p with stats.definitions := p.stats.definitions + 1 }) >>= fun _ =>
          pure (s, env) := fun _ _ => rfl
  refine (mirrors_bindUses.part.bind (mirrors_define.part.bind hcount)).congr fun env s => ?_
  simp [renameAssignment, renameExpr]

/-- Renaming an item. -/
theorem mirrors_renameItem : Mirrors Renamer.renameItem renameItem := by
  refine (mirrors_renameAssignment.each.part.bind mirrors_bindUses.part).congr fun env item => ?_
  simp [renameItem, renameTerminator]

/-- Renaming a **block**. -/
theorem mirrors_renameBlock : Mirrors Renamer.renameBlock renameBlock := by
  have hphi : Mirrors Renamer.renamePhi renamePhi := mirrors_define.part
  refine (hphi.each.part.bind mirrors_renameItem.each.part).congr fun env b => ?_
  simp [renameBlock]

/-! ### Edges -/

/-- Changing a block of a graph. -/
theorem run_onBlock (id : Nat) (change : Change Block Unit) (g : FlowGraph) (r : Renamer) :
    (Change.onBlock id change).run.run (g, r) =
      match g.block? id with
      | some b =>
        let out := change.run.run (b, r)
        (out.1, g.modifyBlock id fun _ => out.2.1, out.2.2)
      | none => (.ok (), g, r) :=
  rfl

/-- Filling in one placeholder after the other. -/
theorem run_each_fillPhi (pred : Nat) (phis : List Phi) (r : Renamer) :
    (Change.each (Renamer.fillPhi pred)).run.run (phis, r) =
      (.ok (), phis.map (fillPhi pred r.live.top?),
        r.countUses (phis.countP (fillBinds pred r.live.top?))) := by
  change Change.eachOf (Renamer.fillPhi pred) phis r = _
  induction phis generalizing r with
  | nil => rfl
  | cons phi phis ih =>
      have hhead : (Renamer.fillPhi pred).run.run (phi, r) = (.ok (), fillPhi pred r.live.top? phi,
          r.countUses (if fillBinds pred r.live.top? phi then 1 else 0)) := rfl
      rw [Change.eachOf, hhead]
      simp only [ih, Renamer.countUses_countUses]
      rw [List.map_cons, List.countP_cons, Nat.add_comm]
      rfl

/-- Filling in the operands for one edge. -/
theorem run_fillEdge_inPlace {exits : Exits} {pred : Nat} {r : Renamer}
    (hexit : exits pred = r.live.top?) (g : FlowGraph) (succ : Nat) :
    (Renamer.fillEdge pred succ).run.run (g, r) =
      (.ok (), filledEdge exits pred g succ,
        r.countUses (boundOperands exits g pred succ)) := by
  have hphis : ∀ b : Block, (Change.part (·.phis) (fun b phis => { b with phis })
      (Change.each (Renamer.fillPhi pred))).run.run (b, r) =
        (.ok (), { b with phis := b.phis.map (fillPhi pred r.live.top?) },
          r.countUses (b.phis.countP (fillBinds pred r.live.top?))) := fun b => by
    change (let out := (Change.each (Renamer.fillPhi pred)).run.run (b.phis, r)
      (out.1, { b with phis := out.2.1 }, out.2.2)) = _
    rw [run_each_fillPhi]
  rw [Renamer.fillEdge, run_onBlock, boundOperands, phisOf, filledEdge, hexit]
  cases hb : g.block? succ with
  | none =>
      rw [FlowGraph.modifyBlock_of_block?_eq_none _ hb]
      rfl
  | some b =>
      rw [← FlowGraph.modifyBlock_eq_of_block? _ hb]
      simp only [hphis]

/-- Filling in the operands for the edges of a block. -/
theorem run_forM_fillEdge {exits : Exits} {pred : Nat} (targets : List Nat) (g : FlowGraph)
    {r : Renamer} (hexit : exits pred = r.live.top?) :
    (targets.forM (Renamer.fillEdge pred)).run.run (g, r) =
      (.ok (), targets.foldl (filledEdge exits pred) g,
        r.countUses (targets.map (boundOperands exits g pred)).sum) := by
  induction targets generalizing g r with
  | nil => rfl
  | cons t targets ih =>
      have hcost : boundOperands exits (filledEdge exits pred g t) = boundOperands exits g :=
        boundOperands_foldl_filledEdge exits pred [t] g
      change (Renamer.fillEdge pred t >>= fun _ =>
        targets.forM (Renamer.fillEdge pred)).run.run (g, r) = _
      rw [runState_bind, run_fillEdge_inPlace hexit]
      have hrest := ih (filledEdge exits pred g t)
        (r := r.countUses (boundOperands exits g pred t)) hexit
      rw [hcost, Renamer.countUses_countUses] at hrest
      exact hrest

/-! ### Visits -/

/-- The renamer between two visits. -/
def Progress.renamer (p : Progress) (live : Stacks) : Renamer where
  counter := p.counter
  stats := p.stats
  live

/-- **Entering** a block that can be renamed. -/
theorem run_enter (exits : Exits) {g : FlowGraph} {id : Nat} {b b' : Block} {r r' : Renamer}
    (hb : g.block? id = some b) (hblock : Renamer.renameBlock.run.run (b, r) = (.ok (), b', r'))
    (hexit : exits id = r'.live.top?) :
    let renamed := g.modifyBlock id fun _ => b'
    (Renamer.enter id).run.run (g, r) =
      (.ok r'.pushed, (renamed.succs id).foldl (filledEdge exits id) renamed,
        (r'.progress.addUses ((renamed.succs id).map (boundOperands exits renamed id)).sum).renamer
          r'.live) := by
  intro renamed
  have hfill := run_forM_fillEdge (renamed.succs id) renamed hexit
  rw [Renamer.enter, runState_bind, run_onBlock, hb]
  simp only [hblock]
  change ((renamed.succs id).forM (Renamer.fillEdge id) >>= fun _ =>
    Renamer.takePushed).run.run (renamed, r') = _
  rw [runState_bind, hfill]
  rfl

/-- Entering a block that cannot be renamed. -/
theorem run_enter_error {g : FlowGraph} {id : Nat} {b : Block} {r : Renamer} {e : SsaError}
    {s : Block × Renamer} (hb : g.block? id = some b)
    (hblock : Renamer.renameBlock.run.run (b, r) = (.error e, s)) :
    (Renamer.enter id).run.run (g, r) = (.error e, g.modifyBlock id fun _ => s.1, s.2) := by
  rw [Renamer.enter, runState_bind, run_onBlock, hb]
  simp only [hblock]

/-- **Leaving** a block gives back the stacks with which it was entered. -/
theorem run_walk_leave (tree : DominatorTree) (bound : Nat) (rest : List Renamer.Visit)
    (r : Renamer) (g : FlowGraph) (p : Progress) :
    (Renamer.walk tree (bound + 1) (.leave r.pushed :: rest)).run.run (g, p.renamer r.live) =
      (Renamer.walk tree bound rest).run.run (g, p.renamer r.rewound) := by
  rw [Renamer.walk, runState_bind]
  rfl

/-- What is left of a walk that goes through. -/
def settled (out : Except SsaError Unit × FlowGraph × Renamer) :
    Except SsaError (FlowGraph × Renamer) :=
  out.1.map fun _ => out.2

/-- Some visits **cover** some blocks if they do to a graph of the given size what visiting these
blocks does, and leave the stacks as they were. Two visits for each block are enough for that. -/
def Covers (tree : DominatorTree) (size : Nat) (live : Stacks) (exits : Exits)
    (visits : List Renamer.Visit) (ids : List Nat) : Prop :=
  ∀ g : FlowGraph, g.size = size → ∀ p bound rest,
    settled ((Renamer.walk tree (2 * ids.length + bound) (visits ++ rest)).run.run
        (g, p.renamer live)) =
      (visitBlocks tree ids g exits).run p >>= fun out =>
        settled ((Renamer.walk tree bound rest).run.run (out.1.1, out.2.renamer live))

/-- No visits cover no blocks. -/
theorem covers_nil (tree : DominatorTree) (size : Nat) (live : Stacks) (exits : Exits) :
    Covers tree size live exits [] [] := by
  intro g _ p bound rest
  rw [List.length_nil, Nat.mul_zero, Nat.zero_add]
  rfl

/-- Some visits after others. -/
theorem Covers.append {tree : DominatorTree} {size : Nat} {live : Stacks} {exits : Exits}
    {visits visits' : List Renamer.Visit} {ids ids' : List Nat}
    (h : Covers tree size live exits visits ids)
    (h' : ∀ exits', (∀ i ∉ ids, exits' i = exits i) →
      Covers tree size live exits' visits' ids') :
    Covers tree size live exits (visits ++ visits') (ids ++ ids') := by
  intro g hsize p bound rest
  have hbound : 2 * (ids ++ ids').length + bound =
      2 * ids.length + (2 * ids'.length + bound) := by
    rw [List.length_append]
    omega
  rw [hbound, List.append_assoc, h g hsize, run_visitBlocks_append, bind_assoc]
  cases hrun : (visitBlocks tree ids g exits).run p with
  | error e => rfl
  | ok out =>
      obtain ⟨⟨g', exits'⟩, q⟩ := out
      obtain ⟨hkeys, hexits⟩ := kept_visitBlocks hrun
      exact h' exits' hexits g' ((FlowGraph.size_eq_of_keys hkeys).trans hsize) q bound rest

/-- **The children of a block**, one after the other. Whatever has been visited below the first of
them, the block itself still ends as it did, and that is all that the next one asks for. -/
theorem covers_siblings {tree : DominatorTree} {size b : Nat} {live : Stacks}
    {below : Nat → List Nat} {ds : List Nat} (hfresh : b ∉ ds.flatMap below)
    (hds : ∀ d ∈ ds, ∀ exits : Exits, exits b = live.top? →
      Covers tree size live exits [.enter d] (below d))
    {exits : Exits} (hexit : exits b = live.top?) :
    Covers tree size live exits (ds.map .enter) (ds.flatMap below) := by
  induction ds generalizing exits with
  | nil => exact covers_nil tree size live exits
  | cons d ds ih =>
      rw [List.flatMap_cons, List.mem_append, not_or] at hfresh
      refine (hds d List.mem_cons_self exits hexit).append fun exits' hkept => ?_
      exact ih hfresh.2 (fun e he => hds e (List.mem_cons_of_mem _ he))
        ((hkept b hfresh.1).trans hexit)

/-- **A block and what its children cover.** When the block is left, the stacks are those with which
it was entered. -/
theorem covers_enter {tree : DominatorTree} {size b : Nat} {live : Stacks} {exits : Exits}
    {ids : List Nat} (hb : b < size) (henv : entryEnv tree exits b = live.top?)
    (hchildren : ∀ live' : Stacks, Covers tree size live'
      (fun x => if x = b then live'.top? else exits x) ((tree.children b).map .enter) ids) :
    Covers tree size live exits [.enter b] (b :: ids) := by
  intro g hsize p bound rest
  obtain ⟨block, hblock⟩ := FlowGraph.exists_block? (hsize ▸ hb : b < g.size)
  have hbound : 2 * (b :: ids).length + bound = 2 * ids.length + (bound + 1) + 1 := by
    rw [List.length_cons]
    omega
  have hmirrors : (renameBlock live.top? block).run p = _ :=
    mirrors_renameBlock block (p.renamer live)
  have hbalanced : _ = live := balanced_renameBlock (block, p.renamer live)
  rw [hbound, visitBlocks, List.singleton_append, Renamer.walk, runState_bind]
  simp only [hblock, henv]
  rw [StateT.run_bind, hmirrors]
  generalize hout : Renamer.renameBlock.run.run (block, p.renamer live) = out at hbalanced
  obtain ⟨answer, renamed, r⟩ := out
  cases answer with
  | error e =>
      rw [run_enter_error hblock hout]
      rfl
  | ok _ =>
      -- The children find the stacks of the block, and leaving it gives back those before.
      let after : Exits := fun x => if x = b then r.live.top? else exits x
      let next := g.modifyBlock b fun _ => renamed
      have hsize' : ((next.succs b).foldl (filledEdge after b) next).size = size :=
        (FlowGraph.size_eq_of_keys (kept_foldl_filledEdge ..).1).trans
          ((FlowGraph.size_modifyBlock ..).trans hsize)
      rw [run_enter after hblock hout (if_pos rfl)]
      refine (hchildren r.live _ hsize' _ (bound + 1) (.leave r.pushed :: rest)).trans ?_
      simp only [run_walk_leave, show r.rewound = live from hbalanced]
      change _ = (((next.succs b).foldlM (fillEdge after b) next >>= fun filled =>
        visitBlocks tree ids filled after).run r.progress >>= _)
      rw [StateT.run_bind, run_foldlM_fillEdge]
      rfl

open DominatorTree

variable {g : FlowGraph}

/-- **The visits to a subtree.** If its root finds the environment in which its parent ends, so does
every block below. -/
theorem covers_subtree (hagree : g.EdgesAgree) {height b : Nat} (hb : g.Reachable b)
    (hheight : g.size ≤ g.position b + height) {live : Stacks} {exits : Exits}
    (henv : entryEnv (compute g) exits b = live.top?) :
    Covers (compute g) g.size live exits [.enter b] ((compute g).subtree height b) := by
  induction height generalizing b live exits with
  | zero =>
      have := FlowGraph.position_lt_size hb
      omega
  | succ height ih =>
      have hnodup := nodup_subtree hagree hb hheight
      rw [subtree] at hnodup ⊢
      have hfresh := (List.nodup_cons.mp hnodup).1
      refine covers_enter hb.lt_size henv fun live' => ?_
      refine covers_siblings hfresh (fun d hd exits' hexit => ?_) (if_pos rfl)
      obtain ⟨hreach, hle, -⟩ := child_spec hagree hheight hd
      have hentry : entryEnv (compute g) exits' d = live'.top? := by
        rw [entryEnv, (mem_children_iff hagree).mp hd]
        exact hexit
      exact ih hreach hle hentry

/-- There are no more blocks in the tree than in the graph. -/
theorem length_preorder_le (hagree : g.EdgesAgree) : (compute g).preorder.length ≤ g.size := by
  have hsubset : (compute g).preorder ⊆ List.range g.size := fun b hb =>
    List.mem_range.mpr ((mem_preorder_iff hagree).mp hb).lt_size
  exact ((nodup_preorder hagree).subperm hsubset).length_le.trans_eq List.length_range

/-- **Renaming in place** goes through if and only if renaming by environments does, and leaves
behind what that yields. -/
theorem settled_rename (hagree : g.EdgesAgree) {placed : FlowGraph} (hsize : placed.size = g.size)
    (p : Progress) :
    settled ((Renamer.rename (compute g)).run.run (placed, p.renamer Stacks.empty)) =
      ((renameGraph (compute g) placed).run p).map
        fun out => (out.1, out.2.renamer Stacks.empty) := by
  have hentry : entryEnv (compute g) (fun _ => Env.empty) g.entry = Stacks.empty.top? := by
    rw [entryEnv, idom?_compute hagree, if_pos rfl]
    rfl
  have hcovers := covers_subtree hagree g.reachable_entry (Nat.le_add_left g.size _) hentry
  have hpreorder : (compute g).preorder = (compute g).subtree g.size g.entry := by
    rw [preorder, size_compute hagree]
    rfl
  have hdone : ∀ bound s, (Renamer.walk (compute g) bound []).run.run s = (.ok (), s) :=
    fun bound s => by cases bound <;> rfl
  obtain ⟨spare, hspare⟩ := Nat.exists_eq_add_of_le (length_preorder_le hagree)
  have hvisits := hcovers placed hsize p (2 * spare) []
  rw [← hpreorder, ← Nat.mul_add, ← hspare, ← size_compute hagree] at hvisits
  rw [run_renameGraph _ (nodup_preorder hagree)]
  refine hvisits.trans ?_
  simp only [hdone]
  cases (visitBlocks (compute g) (compute g).preorder placed fun _ => Env.empty).run p <;> rfl

end Ssa

end FlowForm
