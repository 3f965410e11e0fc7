import FlowForm.Dominance.Tree
import FlowForm.Ssa.Counter

/-!
# Renaming

Every definition in a reachable block, be it a placeholder or an assignment, gets a version of its
own, and every use the version of the definition that reaches it.

A graph is renamed **in place** on a walk over the dominator tree, with a stack of versions for each
variable. A definition draws a version from the counter and pushes it, and a use takes the version
on top. A block is **entered** once: its placeholders are defined, its items are renamed in order,
and the operands that stand for it in the placeholders of its successors are filled in. It is
**left** when all that it dominates is done, and what it has pushed is popped again. So a block
finds the stacks as they are at the end of its immediate dominator. That is enough, because whatever
defines a variable on the way from there comes together in a placeholder of the block itself.

Renaming fails when the counter gives out. What has been renamed by then stays so.
-/

namespace FlowForm.Ssa

/-- The live versions of each variable, the latest one first. -/
abbrev Stacks := String → List Nat

namespace Stacks

/-- Nothing has been defined. -/
def empty : Stacks := fun _ => []

/-- The version of a variable that reaches a point of the function; none where the variable still
has the value it had on entry. -/
def top? (live : Stacks) (name : String) : Option Nat :=
  (live name).head?

/-- A new version of a variable hides the one before. -/
def push (live : Stacks) (name : String) (version : Nat) : Stacks :=
  fun x => if x = name then version :: live x else live x

/-- The version before comes back. -/
def pop (live : Stacks) (name : String) : Stacks :=
  fun x => if x = name then (live x).tail else live x

/-- Gives a use the version that reaches it. -/
def resolve (live : Stacks) (v : Var) : Var :=
  v.withVersion (live.top? v.name)

end Stacks

/-- Counts taken while a graph is renamed. -/
structure Stats where
  /-- Assignments that got a version. -/
  definitions : Nat := 0
  /-- Placeholders inserted. -/
  phis : Nat := 0
  /-- Uses and operands that are reached by a definition. -/
  renamedUses : Nat := 0
deriving DecidableEq

/-- What changes along the walk besides the graph. -/
structure Renamer where
  counter : Counter
  stats : Stats := {}
  live : Stacks := Stacks.empty
  /-- The variables that have been pushed in the block, in order. -/
  pushed : List String := []

/-- Steps of renaming that **change** something in place. A step that fails leaves behind what it
has changed before. -/
abbrev Change (α : Type) := ExceptT SsaError (StateM (α × Renamer))

namespace Change

variable {α β : Type}

/-- Changes a part of something. -/
def part (get : α → β) (put : α → β → α) (change : Change β Unit) : Change α Unit :=
  fun s =>
    match change.run.run (get s.1, s.2) with
    | (answer, b, r) => (answer, put s.1 b, r)

/-- The loop of `each`. -/
def eachOf (change : Change α Unit) :
    List α → Renamer → Except SsaError Unit × List α × Renamer
  | [], r => (.ok (), [], r)
  | x :: xs, r =>
    match change.run.run (x, r) with
    | (.ok (), x, r) =>
      match eachOf change xs r with
      | (answer, xs, r) => (answer, x :: xs, r)
    | (.error e, x, r) => (.error e, x :: xs, r)

/-- Changes the elements of a list one after the other, up to one at which that fails. -/
def each (change : Change α Unit) : Change (List α) Unit :=
  fun s => eachOf change s.1 s.2

/-- Changes a block of a graph. -/
def onBlock (id : Nat) (change : Change Block Unit) : Change FlowGraph Unit :=
  fun s =>
    match s.1.block? id with
    | some b =>
      match change.run.run (b, s.2) with
      | (answer, b, r) => (answer, s.1.modifyBlock id fun _ => b, r)
    | none => (.ok (), s)

end Change

namespace Renamer

open Change

variable {α : Type}

/-! ### Blocks -/

/-- Counts uses that are reached by a definition. -/
def countUses (r : Renamer) (uses : Nat) : Renamer :=
  { r with stats.renamedUses := r.stats.renamedUses + uses }

/-- Defines a variable anew. -/
def define : Change Var Unit := do
  let (v, r) ← get
  let (version, counter) ← r.counter.next
  set (v.withVersion (some version),
    { r with counter, live := r.live.push v.name version, pushed := r.pushed ++ [v.name] })

/-- Gives all variables of something the versions that reach them. -/
def bindUses (mapVars : (Var → Var) → α → α) (vars : α → List Var) : Change α Unit :=
  modify fun s =>
    let bound := mapVars s.2.live.resolve s.1
    (bound, s.2.countUses ((vars bound).countP Var.isVersioned))

/-- Renames an assignment: what it reads is what was defined before it. -/
def renameAssignment : Change Assignment Unit := do
  part (·.value) (fun s value => { s with value }) (bindUses Expr.mapVars Expr.vars)
  part (·.target) (fun s target => { s with target }) define
  modify fun s => (s.1, { s.2 with stats.definitions := s.2.stats.definitions + 1 })

/-- Renames an item. -/
def renameItem : Change Item Unit := do
  part (·.statements) (fun item statements => { item with statements }) (each renameAssignment)
  part (·.terminator) (fun item terminator => { item with terminator })
    (bindUses Terminator.mapVars Terminator.vars)

/-- Defines the variable of a placeholder. -/
def renamePhi : Change Phi Unit :=
  part (·.var) (fun phi var => { phi with var }) define

/-- Renames a block, placeholders first; their operands are left as they are. -/
def renameBlock : Change Block Unit := do
  part (·.phis) (fun b phis => { b with phis }) (each renamePhi)
  part (·.items) (fun b items => { b with items }) (each renameItem)

end Renamer

/-! ### Operands -/

/-- Gives the first operand for a source the version that comes from there. -/
def setFirst (pred : Nat) (version : Option Nat) : List Operand → List Operand
  | [] => []
  | op :: ops =>
    if op.pred = some pred then { op with var := op.var.withVersion version } :: ops
    else op :: setFirst pred version ops

namespace Renamer

open Change

/-- Fills in the operand for control that comes from `pred`, where the walk is now. -/
def fillPhi (pred : Nat) : Change Phi Unit :=
  modify fun s =>
    let reaching := s.2.live.top? s.1.var.name
    let uses := if (s.1.operand? (some pred)).isSome && reaching.isSome then 1 else 0
    ({ s.1 with operands := setFirst pred reaching s.1.operands }, s.2.countUses uses)

/-- Fills in the operands for one edge. -/
def fillEdge (pred succ : Nat) : Change FlowGraph Unit :=
  onBlock succ (part (·.phis) (fun b phis => { b with phis }) (each (fillPhi pred)))

/-! ### The walk over the tree -/

/-- Yields what has been pushed in the block, which is then forgotten. -/
def takePushed : Change FlowGraph (List String) :=
  modifyGet fun s => (s.2.pushed, s.1, { s.2 with pushed := [] })

/-- Enters a block: renames it and fills in what its successors get from it. Yields what has to be
popped when the block is left. -/
def enter (id : Nat) : Change FlowGraph (List String) := do
  onBlock id renameBlock
  ((← get).1.succs id).forM (fillEdge id)
  takePushed

/-- Leaves a block. -/
def leave (pushed : List String) : Change FlowGraph Unit :=
  modify fun s => (s.1, { s.2 with live := pushed.foldl Stacks.pop s.2.live })

/-- A step of the walk that is still to be made. -/
inductive Visit where
  | enter (id : Nat)
  | leave (pushed : List String)

/-- Makes visits from the first one on, and those that they lead to: at most `bound` in all. The
children of a block come before the block is left. -/
def walk (tree : DominatorTree) : (bound : Nat) → List Visit → Change FlowGraph Unit
  | 0, _ => return
  | _ + 1, [] => return
  | bound + 1, .enter id :: visits => do
    let pushed ← enter id
    walk tree bound ((tree.children id).map .enter ++ .leave pushed :: visits)
  | bound + 1, .leave pushed :: visits => do
    leave pushed
    walk tree bound visits

/-- Renames a graph whose placeholders are in place. Each block is entered and left at most once,
which bounds the number of visits. -/
def rename (tree : DominatorTree) : Change FlowGraph Unit :=
  walk tree (2 * tree.size) [.enter tree.entry]

end Renamer

end FlowForm.Ssa
