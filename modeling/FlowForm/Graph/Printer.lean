import FlowForm.Graph.Basic

/-!
# Printing graphs

The text of a flow graph: for each block a heading with its edges, then its placeholders and its
items, one to a line, and at the end the jumps that have no edge.
-/

namespace FlowForm.FlowGraph

/-- The name under which a block is printed: its address, or its id if there is no such block. -/
def nameOf (g : FlowGraph) (id : Nat) : String :=
  match g.block? id with
  | some b => Numeral.hex b.address
  | none => "?" ++ Block.label id

/-- The names of several blocks. -/
def namesOf (g : FlowGraph) (ids : List Nat) : String :=
  "[" ++ ", ".intercalate (ids.map g.nameOf) ++ "]"

/-- The heading of a block. -/
def headingOf (g : FlowGraph) (id : Nat) (b : Block) : String :=
  let fall := match b.fall with
    | some target => " falls " ++ g.nameOf target
    | none => ""
  "block " ++ Numeral.hex b.address ++ " (" ++ Block.label id ++ ") from " ++ g.namesOf b.preds ++
    " to " ++ g.namesOf b.succs ++ fall

/-- The lines of a block. -/
def blockLines (g : FlowGraph) (id : Nat) (b : Block) : List String :=
  g.headingOf id b :: b.phis.map (fun phi => "    " ++ phi.render) ++
    b.items.map fun item => "    " ++ Numeral.hex item.address ++ ": " ++ item.render

/-- The lines of a graph. -/
def dumpLines (g : FlowGraph) : List String :=
  g.blocks.zipIdx.flatMap (fun (b, id) => g.blockLines id b) ++
    g.unresolved.map fun (source, target) =>
      "unresolved " ++ Numeral.hex source ++ " -> " ++ Numeral.hex target

/-- The text of a graph; every line ends with a line break. -/
def dump (g : FlowGraph) : String :=
  String.join (g.dumpLines.map (· ++ "\n"))

end FlowForm.FlowGraph
