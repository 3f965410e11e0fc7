import FlowForm.Proofs.Ssa.Placement

/-!
# Running Code

What listings and flow graphs do when they are run, item by item. The values computed are of any
type, and an **interpretation** says what constants and operators mean on them and which of them
counts as zero.

Both kinds of code are **programs**: positions that hold items, and for each position what comes
next when control goes on or jumps. They differ in their memory.

* A listing has one cell for each name. Control goes on to the next item, and jumps to the item
  at the target, if there is one at or behind the entry.
* A flow graph in single-assignment form has one cell for each version of a name, and a name
  without a version has the value it had on entry. Control goes on inside a block and then along
  the edge without a jump; it jumps along the edge to the block at the target. When a block is
  entered its placeholders all take their values at once, each from the operand for the edge.

A run of `n` steps shows the items visited, with all values assigned and the value that each
terminator has looked at, and how the run has ended, if it has.

## Main results

* `Program.run_eq_of_simulation`: programs that match step by step have the same runs.
* `Program.matches_step`: what it takes for two steps to match.
-/

namespace FlowForm

variable {P P' M M' V : Type}

/-! ### Values -/

/-- An **interpretation**: what constants and operators mean, and which values count as zero. -/
structure Interpretation (V : Type) where
  constant : Int → V
  unary : UnaryOp → V → V
  binary : BinaryOp → V → V → V
  isZero : V → Bool

/-- The value of an expression, by the values of its variables. -/
def Expr.eval (I : Interpretation V) (read : Var → V) : Expr → V
  | imm n => I.constant n
  | var v => read v
  | unary op e => I.unary op (e.eval I read)
  | binary op l r => I.binary op (l.eval I read) (r.eval I read)

/-- Where a terminator sends control. -/
inductive Move (V : Type) where
  /-- To what comes next. -/
  | onward
  | goto (target : Nat)
  | leave (value : Option V)

/-- Where a terminator sends control, by the values of the variables. -/
def Terminator.move (I : Interpretation V) (read : Var → V) : Terminator → Move V
  | fall => .onward
  | jump target => .goto target
  | branch condition target => if I.isZero (condition.eval I read) then .onward else .goto target
  | ret value => .leave (value.map (·.eval I read))

/-! ### Programs -/

/-- A **memory**: how variables are read and written. -/
structure Memory (M V : Type) where
  read : M → Var → V
  write : M → Var → V → M

/-- A **program**: the items at its positions, and what comes next, with the memory on
arrival there. -/
structure Program (P M V : Type) extends Memory M V where
  item? : P → Option Item
  onward? : P → M → Option (P × M)
  target? : P → Nat → M → Option (P × M)

/-- What a visit to an item shows: the names assigned with their values, in order, and the value
that the terminator has looked at. -/
structure Visit (V : Type) where
  address : Nat
  assigned : List (String × V)
  operand : Option V
deriving DecidableEq

/-- How far a run has come. -/
inductive Status (V : Type) where
  | running
  /-- There is nothing to go on with. -/
  | stopped
  | returned (value : Option V)
deriving DecidableEq

/-- Executes statements in order: the memory behind them, and what they have assigned. -/
def Memory.exec (memory : Memory M V) (I : Interpretation V) :
    M → List Assignment → M × List (String × V)
  | m, [] => (m, [])
  | m, s :: statements =>
    let value := s.value.eval I (memory.read m)
    let rest := memory.exec I (memory.write m s.target value) statements
    (rest.1, (s.target.name, value) :: rest.2)

namespace Program

/-- Goes on, or stops where there is nothing to go on with. -/
def orStop (next : Option (P × M)) : Except (Status V) (P × M) :=
  match next with
  | some state => .ok state
  | none => .error .stopped

/-- Where control goes behind the terminator `t` at `p`. -/
def follow (program : Program P M V) (I : Interpretation V) (p : P) (m : M) (t : Terminator) :
    Except (Status V) (P × M) :=
  match t.move I (program.read m) with
  | .onward => orStop (program.onward? p m)
  | .goto target => orStop (program.target? p target m)
  | .leave value => .error (.returned value)

/-- **One step** of a program: the statements of an item in order, then its terminator. -/
def step (program : Program P M V) (I : Interpretation V) (state : P × M) :
    Option (Visit V × Except (Status V) (P × M)) :=
  (program.item? state.1).map fun item =>
    let after := program.exec I state.2 item.statements
    ({ address := item.address
       assigned := after.2
       operand := item.terminator.operand?.map (·.eval I (program.read after.1)) },
      program.follow I state.1 after.1 item.terminator)

/-- A **run** of at most the given number of steps. -/
def run (program : Program P M V) (I : Interpretation V) :
    Nat → P × M → List (Visit V) × Status V
  | 0, _ => ([], .running)
  | n + 1, state =>
    match program.step I state with
    | none => ([], .stopped)
    | some (visit, .error status) => ([visit], status)
    | some (visit, .ok next) =>
      let rest := program.run I n next
      (visit :: rest.1, rest.2)

/-! ### Simulation -/

/-- Two steps **match** if they show the same and lead to the same status or to related states. -/
inductive Matches {S S' : Type} (R : S → S' → Prop) :
    Option (Visit V × Except (Status V) S) → Option (Visit V × Except (Status V) S') → Prop
  | none : Matches R none none
  | halt (visit : Visit V) (status : Status V) :
      Matches R (some (visit, .error status)) (some (visit, .error status))
  | go (visit : Visit V) {s : S} {s' : S'} :
      R s s' → Matches R (some (visit, .ok s)) (some (visit, .ok s'))

/-- **Programs that match step by step have the same runs.** -/
theorem run_eq_of_simulation {program : Program P M V} {program' : Program P' M' V}
    {I : Interpretation V} {R : P × M → P' × M' → Prop}
    (hsim : ∀ s s', R s s' → Matches R (program.step I s) (program'.step I s'))
    (n : Nat) {s : P × M} {s' : P' × M'} (h : R s s') :
    program.run I n s = program'.run I n s' := by
  induction n generalizing s s' with
  | zero => rfl
  | succ n ih =>
      have hstep := hsim s s' h
      rw [run, run]
      generalize program.step I s = a at hstep ⊢
      generalize program'.step I s' = b at hstep ⊢
      cases hstep with
      | none => rfl
      | halt visit status => rfl
      | go visit hnext => simp only [ih hnext]

/-- Where there are no items there is nothing to do. -/
theorem matches_none {program : Program P M V} {program' : Program P' M' V}
    {I : Interpretation V} {R : P × M → P' × M' → Prop} {s : P × M} {s' : P' × M'}
    (h : program.item? s.1 = none) (h' : program'.item? s'.1 = none) :
    Matches R (program.step I s) (program'.step I s') := by
  rw [step, step, h, h']
  exact .none

/-- Going on to related states, or stopping on both sides. -/
theorem matches_orStop {R : P × M → P' × M' → Prop} (visit : Visit V) {next : Option (P × M)}
    {next' : Option (P' × M')} (h : Option.Rel R next next') :
    Matches R (some (visit, orStop next)) (some (visit, orStop next')) := by
  cases h with
  | none => exact .halt _ _
  | some h => exact .go _ h

/-- **What it takes for two steps to match**: the items assign the same values and look at the
same value, and wherever control can go from one of them it can go from the other. -/
theorem matches_step {program : Program P M V} {program' : Program P' M' V}
    {I : Interpretation V} {R : P × M → P' × M' → Prop} {s : P × M} {s' : P' × M'}
    {item item' : Item} (hitem : program.item? s.1 = some item)
    (hitem' : program'.item? s'.1 = some item') (haddress : item.address = item'.address)
    (hassigned : (program.exec I s.2 item.statements).2 =
      (program'.exec I s'.2 item'.statements).2)
    (hoperand : item.terminator.operand?.map
        (·.eval I (program.read (program.exec I s.2 item.statements).1)) =
      item'.terminator.operand?.map
        (·.eval I (program'.read (program'.exec I s'.2 item'.statements).1)))
    (hmove : item.terminator.move I (program.read (program.exec I s.2 item.statements).1) =
      item'.terminator.move I (program'.read (program'.exec I s'.2 item'.statements).1))
    (honward : item.terminator.flow.fallsThrough = true →
      Option.Rel R (program.onward? s.1 (program.exec I s.2 item.statements).1)
        (program'.onward? s'.1 (program'.exec I s'.2 item'.statements).1))
    (hgoto : ∀ target, item.terminator.flow.target? = some target →
      Option.Rel R (program.target? s.1 target (program.exec I s.2 item.statements).1)
        (program'.target? s'.1 target (program'.exec I s'.2 item'.statements).1)) :
    Matches R (program.step I s) (program'.step I s') := by
  rw [step, step, hitem, hitem', Option.map_some, Option.map_some]
  simp only [haddress, hassigned, hoperand]
  rw [follow, follow, ← hmove]
  -- Where control goes is among what the flow class of the terminator allows.
  cases ht : item.terminator with
  | fall =>
      rw [ht] at honward
      exact matches_orStop _ (honward rfl)
  | jump target =>
      rw [ht] at hgoto
      exact matches_orStop _ (hgoto target rfl)
  | branch condition target =>
      rw [ht] at honward hgoto
      rw [Terminator.move]
      cases I.isZero (condition.eval I (program.read (program.exec I s.2 item.statements).1)) with
      | true => exact matches_orStop _ (honward rfl)
      | false => exact matches_orStop _ (hgoto target rfl)
  | ret value => exact .halt _ _

end Program

/-! ### Evaluation -/

/-- The value of an expression depends on the variables it reads only. -/
theorem Expr.eval_congr {I : Interpretation V} {read read' : Var → V} {e : Expr}
    (h : ∀ v ∈ e.vars, read v = read' v) : e.eval I read = e.eval I read' := by
  induction e with
  | imm n => rfl
  | var v => exact h v (List.mem_singleton.mpr rfl)
  | unary op e ih => rw [eval, eval, ih h]
  | binary op l r ihl ihr =>
      rw [eval, eval, ihl fun v hv => h v (List.mem_append_left _ hv),
        ihr fun v hv => h v (List.mem_append_right _ hv)]

/-- The value of an expression in which variables have been replaced. -/
theorem Expr.eval_mapVars (I : Interpretation V) (read : Var → V) (f : Var → Var) (e : Expr) :
    (e.mapVars f).eval I read = e.eval I fun v => read (f v) := by
  induction e with
  | imm n => rfl
  | var v => rfl
  | unary op e ih => rw [mapVars, eval, eval, ih]
  | binary op l r ihl ihr => rw [mapVars, eval, eval, ihl, ihr]

/-- Where a terminator sends control depends on the variables it reads only. -/
theorem Terminator.move_congr {I : Interpretation V} {read read' : Var → V} {t : Terminator}
    (h : ∀ v ∈ t.vars, read v = read' v) : t.move I read = t.move I read' := by
  cases t with
  | fall => rfl
  | jump target => rfl
  | branch e target => rw [move, move, Expr.eval_congr h]
  | ret value =>
      cases value with
      | none => rfl
      | some e => rw [move, move, Option.map_some, Option.map_some, Expr.eval_congr h]

/-- What a terminator looks at depends on the variables it reads only. -/
theorem Terminator.operand_congr {I : Interpretation V} {read read' : Var → V} {t : Terminator}
    (h : ∀ v ∈ t.vars, read v = read' v) :
    t.operand?.map (·.eval I read) = t.operand?.map (·.eval I read') := by
  rw [vars] at h
  cases hop : t.operand? with
  | none => rfl
  | some e =>
      rw [hop] at h
      rw [Option.map_some, Option.map_some, Expr.eval_congr h]

/-! ### Listings -/

/-- One cell for each **name**. -/
def Memory.named : Memory (String → V) V where
  read store v := store v.name
  write store v value := fun x => if x = v.name then value else store x

namespace Listing

/-- A listing that is entered at the given address, as a program. -/
def program (items : List Item) (entry : Nat) : Program Nat (String → V) V where
  toMemory := .named
  item? i := items[i]?
  onward? i store := if i + 1 < items.length then some (i + 1, store) else none
  target? _ target store :=
    if entry ≤ target then (items.findIdx? (·.address == target)).map (·, store) else none

/-- A run of a listing from the item at the given address. -/
def run (I : Interpretation V) (items : List Item) (entry : Nat) (store : String → V) (n : Nat) :
    List (Visit V) × Status V :=
  match items.findIdx? (·.address == entry) with
  | some i => (program items entry).run I n (i, store)
  | none => ([], .stopped)

end Listing

/-! ### Flow graphs -/

/-- One cell for each **version** of a name; a name without a version has the value it had on
entry. -/
def Memory.versioned (store : String → V) : Memory (Var → V) V where
  read cells v := if v.isVersioned then cells v else store v.name
  write cells v value := fun w => if w = v then value else cells w

/-- The cells after placeholders have **all at once** taken the values of their operands for the
given source. -/
def takePhis (store : String → V) (cells : Var → V) (source : Option Nat) (phis : List Phi) :
    Var → V := fun w =>
  match (phis.find? (·.var == w)).bind (·.operand? source) with
  | some op => (Memory.versioned store).read cells op.var
  | none => cells w

namespace FlowGraph

/-- The successor of a block that stands at the given address. -/
def succAt? (g : FlowGraph) (id address : Nat) : Option Nat :=
  (g.succs id).find? fun s => (g.block? s).any (·.address == address)

/-- A flow graph as a program, by a memory and what becomes of it when a block is entered. A
position is a block and the number of an item in it. -/
def program (g : FlowGraph) (memory : Memory M V) (enter : M → Option Nat → List Phi → M) :
    Program (Nat × Nat) M V where
  toMemory := memory
  item? p := (g.block? p.1).bind (·.items[p.2]?)
  onward? p m := (g.block? p.1).bind fun b =>
    if p.2 + 1 < b.items.length then some ((p.1, p.2 + 1), m)
    else b.fall.map fun s => ((s, 0), enter m (some p.1) (Ssa.phisOf g s))
  target? p address m :=
    (g.succAt? p.1 address).map fun s => ((s, 0), enter m (some p.1) (Ssa.phisOf g s))

/-- A flow graph that is run by names: its placeholders do nothing. -/
def byName (g : FlowGraph) : Program (Nat × Nat) (String → V) V :=
  g.program .named fun store _ _ => store

/-- A flow graph that is run by versions, from the given store on entry. -/
def byVersion (g : FlowGraph) (store : String → V) : Program (Nat × Nat) (Var → V) V :=
  g.program (.versioned store) (takePhis store)

/-- A run of a flow graph from its entry, where `cells` is what the cells of versions hold before
anything is written to them. -/
def run (g : FlowGraph) (I : Interpretation V) (store : String → V) (cells : Var → V) (n : Nat) :
    List (Visit V) × Status V :=
  (g.byVersion store).run I n
    ((g.entry, 0), takePhis store cells none (Ssa.phisOf g g.entry))

end FlowGraph

end FlowForm
