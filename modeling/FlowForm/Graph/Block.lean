import FlowForm.Item

/-!
# Basic blocks

A **basic block** is a run of items that control enters at the first and leaves at the last. Its
edges name other blocks by their **id**, which is the position in the flow graph. A block can also
carry **placeholders**, one for each variable whose value depends on the edge by which the block
is entered.
-/

namespace FlowForm

/-- The text of a block id. -/
def Block.label (id : Nat) : String :=
  "b" ++ toString id

/-- One incoming value of a placeholder. -/
structure Operand where
  /-- The block that control comes from; none for the value on entry to the function. -/
  pred : Option Nat
  var : Var
deriving DecidableEq

/-- The text of an operand. -/
def Operand.render (op : Operand) : String :=
  let source := match op.pred with
    | some id => Block.label id
    | none => "entry"
  source ++ ": " ++ op.var.render

/-- A **placeholder**: defines a variable by the edge along which its block is entered. -/
structure Phi where
  var : Var
  operands : List Operand
deriving DecidableEq

namespace Phi

/-- The placeholder for `name` before any version is given out. -/
def unversioned (name : String) (preds : List (Option Nat)) : Phi where
  var := { name }
  operands := preds.map fun pred => { pred, var := { name } }

/-- The first operand for the given source. -/
def operand? (phi : Phi) (pred : Option Nat) : Option Operand :=
  phi.operands.find? (·.pred == pred)

/-- The text of a placeholder. -/
def render (phi : Phi) : String :=
  phi.var.render ++ " = phi(" ++ ", ".intercalate (phi.operands.map Operand.render) ++ ");"

end Phi

/-- A **basic block**. -/
structure Block where
  /-- Address of the first item. -/
  address : Nat
  items : List Item
  /-- Placeholders, which take effect before the first item. -/
  phis : List Phi := []
  /-- The blocks with an edge into this one. -/
  preds : List Nat := []
  /-- The blocks this one has an edge to; a branch lists its target first. -/
  succs : List Nat := []
  /-- The successor reached without a jump. -/
  fall : Option Nat := none
deriving DecidableEq

namespace Block

/-- A run of items as a block without edges, at the address of the first of them. -/
def ofItems (items : List Item) : Block where
  address := (items.head?.map (·.address)).getD 0
  items

/-- Appends an id unless the list has it. -/
def pushNew (ids : List Nat) (id : Nat) : List Nat :=
  if id ∈ ids then ids else ids ++ [id]

/-- Notes an edge that leaves the block. The latest one without a jump is remembered as such. -/
def addSucc (b : Block) (target : Nat) (fall : Bool) : Block :=
  { b with succs := pushNew b.succs target, fall := if fall then some target else b.fall }

/-- Notes an edge that enters the block. -/
def addPred (b : Block) (source : Nat) : Block :=
  { b with preds := pushNew b.preds source }

/-- The placeholder for `name`. -/
def phi? (b : Block) (name : String) : Option Phi :=
  b.phis.find? (·.var.name == name)

/-- The variables assigned by the items, in order. -/
def defs (b : Block) : List Var :=
  b.items.flatMap Item.defs

/-- The variables read by the items, in order. -/
def uses (b : Block) : List Var :=
  b.items.flatMap Item.uses

end Block

end FlowForm
