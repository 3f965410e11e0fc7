import FlowForm.Graph.Basic

/-!
# Valid graphs

A graph is **valid** when its notes agree with each other: every block stands at its registered
address, every edge leads to a block that knows of it and comes from a block that lists it, and
the successor reached without a jump is one of the successors. `FlowGraph.defects` lists all that
is wrong, in a fixed order, and `FlowGraph.validate` reports the first entry of that list.
-/

namespace FlowForm

/-- A disagreement inside a flow graph. -/
inductive Defect where
  /-- The block registered at `address` stands elsewhere. -/
  | strayKey (address : Nat) (id : Nat)
  /-- An edge leads to an id that no block has. -/
  | missingTarget (id succ : Nat)
  /-- An edge leads to a block that does not know of it. -/
  | unknownToTarget (id succ : Nat)
  /-- An edge comes from an id that no block has. -/
  | missingSource (id pred : Nat)
  /-- An edge comes from a block that does not list it. -/
  | unknownToSource (pred id : Nat)
  /-- The successor reached without a jump is not among the successors. -/
  | strayFall (id fall : Nat)
deriving DecidableEq

/-- The wording of a defect. -/
def Defect.message : Defect → String
  | strayKey address id => "key " ++ Numeral.hex address ++ " maps to " ++ Block.label id
  | missingTarget id succ => Block.label id ++ " jumps to missing block " ++ Block.label succ
  | unknownToTarget id succ => Block.label id ++ " -> " ++ Block.label succ ++ " has no back-link"
  | missingSource id pred => Block.label id ++ " entered from missing block " ++ Block.label pred
  | unknownToSource pred id =>
    Block.label pred ++ " -> " ++ Block.label id ++ " back-link has no edge"
  | strayFall id fall => Block.label id ++ " falls into " ++ Block.label fall ++ " outside jump_to"

/-- The wording under which a defect is reported. -/
def Defect.report (d : Defect) : String :=
  "Malformed flow graph: " ++ d.message

namespace FlowGraph

/-- What is wrong with the edge from `id` to `succ`, as listed by `id`. -/
def succDefect? (g : FlowGraph) (id succ : Nat) : Option Defect :=
  match g.block? succ with
  | none => some (.missingTarget id succ)
  | some target => if id ∈ target.preds then none else some (.unknownToTarget id succ)

/-- What is wrong with the edge from `pred` to `id`, as known to `id`. -/
def predDefect? (g : FlowGraph) (id pred : Nat) : Option Defect :=
  match g.block? pred with
  | none => some (.missingSource id pred)
  | some source => if id ∈ source.succs then none else some (.unknownToSource pred id)

/-- What is wrong with the successor that a block reaches without a jump. -/
def fallDefect? (id : Nat) (b : Block) : Option Defect :=
  match b.fall with
  | none => none
  | some fall => if fall ∈ b.succs then none else some (.strayFall id fall)

/-- The defects found at one block. -/
def blockDefects (g : FlowGraph) (id : Nat) (b : Block) : List Defect :=
  b.succs.filterMap (g.succDefect? id) ++ b.preds.filterMap (g.predDefect? id) ++
    (fallDefect? id b).toList

/-- The blocks that do not stand at their registered address. -/
def keyDefects (g : FlowGraph) : List Defect :=
  (g.keys.zip g.blocks).zipIdx.filterMap fun ((key, b), id) =>
    if b.address = key then none else some (.strayKey key id)

/-- All defects: first those of the registration, then block by block those of the edges. -/
def defects (g : FlowGraph) : List Defect :=
  g.keyDefects ++ g.blocks.zipIdx.flatMap fun (b, id) => g.blockDefects id b

/-- Reports the first defect. -/
def validate (g : FlowGraph) : Except Defect Unit :=
  match g.defects with
  | [] => .ok ()
  | d :: _ => .error d

theorem validate_eq_ok_iff {g : FlowGraph} : g.validate = .ok () ↔ g.defects = [] := by
  unfold validate
  split <;> simp_all

end FlowGraph

end FlowForm
