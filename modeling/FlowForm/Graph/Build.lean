import FlowForm.Graph.Validity

/-!
# Building graphs

The flow graph of a list of items. The items are put in address order and cut into blocks: a
block starts at the first item, at every item that is jumped to, and behind every item that is
not plain. The last item of each block then determines its edges.

The first item given is the entry of the function and has to be the one with the lowest address.
Jumps to addresses without an item are an error or are recorded, as the policy says.
-/

namespace FlowForm

/-- What becomes of a jump to an address at which no item stands. -/
inductive UnresolvedTargets where
  /-- The graph is not built. -/
  | reject
  /-- The jump gets no edge and is recorded in the graph. -/
  | record
deriving DecidableEq

/-- Why a graph cannot be built, or is not fit for use. -/
inductive GraphError where
  | unresolvedTarget (source target : Nat)
  | duplicateAddress (address : Nat)
  | emptyFunction
  | entryNotFirst (entry lowest : Nat)
  | malformed (defect : Defect)
deriving DecidableEq

/-- The wording of a graph error. -/
def GraphError.message : GraphError → String
  | unresolvedTarget source target =>
    "Jump at " ++ Numeral.hex source ++ " targets " ++ Numeral.hex target ++
      ", which is outside the function"
  | duplicateAddress address => "Duplicate instruction address " ++ Numeral.hex address
  | emptyFunction => "Function has no instructions"
  | entryNotFirst entry lowest =>
    "Entry " ++ Numeral.hex entry ++ " is not the lowest address (" ++ Numeral.hex lowest ++ ")"
  | malformed defect => defect.report

namespace FlowGraph

/-- The graph of the given blocks, whose addresses are registered as they stand. The first block
is the entry. -/
def ofBlocks (blocks : List Block) : Except GraphError FlowGraph :=
  if nonempty : blocks = [] then
    .error .emptyFunction
  else
    match h : firstRepeat? [] (blocks.map (·.address)) with
    | some address => .error (.duplicateAddress address)
    | none =>
      .ok {
        blocks
        keys := blocks.map (·.address)
        blocks_ne_nil := nonempty
        length_keys := by simp
        nodup_keys := (firstRepeat?_eq_none_iff.1 h).1 }

/-! ### Blocks -/

/-- Items in address order. -/
def sortItems (items : List Item) : List Item :=
  items.mergeSort fun a b => a.address ≤ b.address

/-- The addresses that items jump to. -/
def targets (items : List Item) : List Nat :=
  items.filterMap (·.flow.target?)

/-- Whether an item goes on with the block of the item before it. -/
def continues (targets : List Nat) (previous item : Item) : Bool :=
  !previous.flow.endsBlock && !targets.contains item.address

/-- Cuts items in address order into blocks without edges. -/
def partition (items : List Item) : List Block :=
  (items.splitBy (continues (targets items))).map Block.ofItems

/-! ### Edges -/

/-- The edges that leave a block: the one to the target of its last item, then the one to the
next block. -/
def edgesFrom (g : FlowGraph) (id : Nat) (b : Block) : List Edge :=
  match b.items.getLast? with
  | none => []
  | some item =>
    let taken := (item.flow.target?.bind g.blockAt?).toList.map fun target =>
      { source := id, target }
    let onward :=
      if item.flow.fallsThrough && id + 1 < g.size then
        [{ source := id, target := id + 1, fall := true }]
      else []
    taken ++ onward

/-- All edges, block by block. -/
def edges (g : FlowGraph) : List Edge :=
  g.blocks.zipIdx.flatMap fun (b, id) => g.edgesFrom id b

/-- The jumps whose target has no item, with the address of each. -/
def dangling (items : List Item) : List (Nat × Nat) :=
  items.filterMap fun item =>
    match item.flow.target? with
    | some target =>
      if items.any (·.address == target) then none else some (item.address, target)
    | none => none

/-! ### Graphs -/

/-- The graph of items that are in address order. -/
def ofSorted (policy : UnresolvedTargets) (items : List Item) : Except GraphError FlowGraph :=
  match firstRepeat? [] (items.map (·.address)) with
  | some address => .error (.duplicateAddress address)
  | none =>
    match policy, dangling items with
    | .reject, (source, target) :: _ => .error (.unresolvedTarget source target)
    | _, jumps => (ofBlocks (partition items)).map fun g =>
      (g.addEdges g.edges).recordUnresolved jumps

/-- The lowest address of an item and the items after it. -/
def lowestAddress (first : Item) (rest : List Item) : Nat :=
  rest.foldl (fun lowest item => min lowest item.address) first.address

/-- The flow graph of a list of items, the first of which is the entry. -/
def build (policy : UnresolvedTargets) : List Item → Except GraphError FlowGraph
  | [] => .error .emptyFunction
  | first :: rest =>
    let lowest := lowestAddress first rest
    if lowest = first.address then ofSorted policy (sortItems (first :: rest))
    else .error (.entryNotFirst first.address lowest)

end FlowGraph

end FlowForm
