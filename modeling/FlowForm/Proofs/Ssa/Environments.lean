import FlowForm.Ssa.Renaming

/-!
# Renaming by Environments

Renaming without stacks and without changes in place. A step takes the **environment** in which it
starts, the version that reaches it for each variable, and yields the renamed code together with the
environment in which it ends. Blocks are taken in preorder, and each starts with the environment in
which its immediate dominator ends. When all blocks are done, operands are filled in from the
environments at the ends of their sources.

What a step does depends on nothing but its arguments here, which is the form that the theory of
renaming is about. That the walk with stacks comes to the same is shown once everything about blocks
and operands is known.
-/

namespace FlowForm.Ssa

/-- The version of each variable that reaches a point of the function; none where the variable
still has the value it had on entry. -/
abbrev Env := String → Option Nat

namespace Env

/-- Nothing has been defined. -/
def empty : Env := fun _ => none

/-- A new version of a variable hides the one before. -/
def define (env : Env) (name : String) (version : Nat) : Env :=
  fun x => if x = name then some version else env x

/-- Gives a use the version that reaches it. -/
def resolve (env : Env) (v : Var) : Var :=
  v.withVersion (env v.name)

end Env

/-- What changes while a graph is renamed: the counter and the counts. -/
structure Progress where
  counter : Counter
  stats : Stats

/-- Steps of renaming, which fail when the counter gives out. -/
abbrev Rename := StateT Progress (Except SsaError)

/-- Draws a version. -/
def draw : Rename Nat := do
  let p ← get
  let (version, counter) ← p.counter.next
  set { p with counter }
  return version

/-- Defines a variable anew. -/
def defineVar (env : Env) (v : Var) : Rename (Var × Env) := do
  let version ← draw
  return (v.withVersion (some version), env.define v.name version)

/-- Counts uses that are reached by a definition. -/
def countUses (uses : Nat) : Rename Unit :=
  modify fun p => { p with stats.renamedUses := p.stats.renamedUses + uses }

/-- Renames the uses in an expression. -/
def renameExpr (env : Env) (e : Expr) : Rename Expr := do
  let renamed := e.mapVars env.resolve
  countUses (renamed.vars.countP Var.isVersioned)
  return renamed

/-- Renames the uses in a terminator. -/
def renameTerminator (env : Env) (t : Terminator) : Rename Terminator := do
  let renamed := t.mapVars env.resolve
  countUses (renamed.vars.countP Var.isVersioned)
  return renamed

/-- Renames an assignment: what it reads is what was defined before it. -/
def renameAssignment (env : Env) (s : Assignment) : Rename (Assignment × Env) := do
  let value ← renameExpr env s.value
  let (target, env) ← defineVar env s.target
  modify fun p => { p with stats.definitions := p.stats.definitions + 1 }
  return ({ target, value }, env)

/-- Renames one thing after the other, each in the environment that the one before leaves. -/
def renameAll {α : Type} (rename : Env → α → Rename (α × Env)) :
    Env → List α → Rename (List α × Env)
  | env, [] => return ([], env)
  | env, x :: xs => do
    let (x, env) ← rename env x
    let (xs, env) ← renameAll rename env xs
    return (x :: xs, env)

/-- Renames an item. -/
def renameItem (env : Env) (item : Item) : Rename (Item × Env) := do
  let (statements, env) ← renameAll renameAssignment env item.statements
  let terminator ← renameTerminator env item.terminator
  return ({ item with statements, terminator }, env)

/-- Defines the variable of a placeholder. -/
def renamePhi (env : Env) (phi : Phi) : Rename (Phi × Env) := do
  let (var, env) ← defineVar env phi.var
  return ({ phi with var }, env)

/-- Renames a block, placeholders first; their operands are left as they are. -/
def renameBlock (env : Env) (b : Block) : Rename (Block × Env) := do
  let (phis, env) ← renameAll renamePhi env b.phis
  let (items, env) ← renameAll renameItem env b.items
  return ({ b with phis, items }, env)

/-! ### The walk over the tree -/

/-- The environment at the end of each block that has been renamed. -/
abbrev Exits := Nat → Env

/-- The environment in which a block starts. -/
def entryEnv (tree : DominatorTree) (exits : Exits) (id : Nat) : Env :=
  match tree.idom? id with
  | some parent => exits parent
  | none => Env.empty

/-- Renames the blocks in the order given. -/
def renameBlocks (tree : DominatorTree) :
    List Nat → FlowGraph → Exits → Rename (FlowGraph × Exits)
  | [], g, exits => return (g, exits)
  | id :: ids, g, exits => do
    match g.block? id with
    | none => renameBlocks tree ids g exits
    | some b =>
      let (renamed, env) ← renameBlock (entryEnv tree exits id) b
      renameBlocks tree ids (g.modifyBlock id fun _ => renamed)
        fun x => if x = id then env else exits x

/-! ### Operands -/

/-- Fills in the operand for control that comes from `pred`, where the given environment holds. -/
def fillPhi (pred : Nat) (env : Env) (phi : Phi) : Phi :=
  { phi with operands := setFirst pred (env phi.var.name) phi.operands }

/-- Whether filling in the operand for `pred` binds it to a definition. -/
def fillBinds (pred : Nat) (env : Env) (phi : Phi) : Bool :=
  (phi.operand? (some pred)).isSome && (env phi.var.name).isSome

/-- Fills in the operands for one edge. -/
def fillEdge (exits : Exits) (pred : Nat) (g : FlowGraph) (succ : Nat) :
    Rename FlowGraph := do
  if let some b := g.block? succ then
    countUses (b.phis.countP (fillBinds pred (exits pred)))
  return g.modifyBlock succ fun b => { b with phis := b.phis.map (fillPhi pred (exits pred)) }

/-- Fills in the operands for all edges that leave the given blocks. -/
def fillOperands (exits : Exits) (ids : List Nat) (g : FlowGraph) : Rename FlowGraph :=
  ids.foldlM (fun g id => (g.succs id).foldlM (fillEdge exits id) g) g

/-- Renames a graph whose placeholders are in place. -/
def renameGraph (tree : DominatorTree) (g : FlowGraph) : Rename FlowGraph := do
  let ids := tree.preorder
  let (g, exits) ← renameBlocks tree ids g fun _ => Env.empty
  fillOperands exits ids g

end FlowForm.Ssa
