import FlowForm.Expr

/-!
# Instruction items

An **item** is what stands at one address of a function: some assignments, executed in
order, and a terminator that says where control goes next. The terminator determines the
item's `Flow`, which is all that the partition into basic blocks looks at.
-/

namespace FlowForm

/-- An **assignment** of an expression to a variable. -/
structure Assignment where
  target : Var
  value : Expr
deriving DecidableEq

/-- The text of an assignment. -/
def Assignment.render (s : Assignment) : String :=
  s.target.render ++ " = " ++ s.value.render ++ ";"

/-- How control leaves an item. -/
inductive Terminator where
  /-- On to the next item in address order. -/
  | fall
  /-- To the item at `target`. -/
  | jump (target : Nat)
  /-- To the item at `target` if the condition is not zero, else on to the next item. -/
  | branch (condition : Expr) (target : Nat)
  /-- Out of the function. -/
  | ret (value : Option Expr)
deriving DecidableEq

/-- **Flow class** of an item: where control can go after it. -/
inductive Flow where
  | plain
  | jump (target : Nat)
  | conditional (target : Nat)
  | terminal
deriving DecidableEq

namespace Flow

/-- The address jumped to, if there is one. -/
def target? : Flow → Option Nat
  | jump t | conditional t => some t
  | plain | terminal => none

/-- Only a plain item can be followed by another one in its block. -/
def endsBlock : Flow → Bool
  | plain => false
  | _ => true

/-- Whether control can go on to the next item in address order. -/
def fallsThrough : Flow → Bool
  | plain | conditional _ => true
  | jump _ | terminal => false

end Flow

namespace Terminator

/-- The flow class of a terminator. -/
def flow : Terminator → Flow
  | fall => .plain
  | jump t => .jump t
  | branch _ t => .conditional t
  | ret _ => .terminal

/-- Whether control simply goes on to the next item. -/
def isFall : Terminator → Bool
  | fall => true
  | _ => false

/-- The expression that the terminator evaluates, if it has one. -/
def operand? : Terminator → Option Expr
  | branch e _ => some e
  | ret value => value
  | fall | jump _ => none

/-- The variables that the terminator reads. -/
def vars (t : Terminator) : List Var :=
  match t.operand? with
  | some e => e.vars
  | none => []

/-- Replaces every variable. -/
def mapVars (f : Var → Var) : Terminator → Terminator
  | fall => fall
  | jump t => jump t
  | branch e t => branch (e.mapVars f) t
  | ret value => ret (value.map (·.mapVars f))

/-- Replaces every variable, with an effect at each. -/
def mapVarsM {m : Type → Type} [Monad m] (f : Var → m Var) : Terminator → m Terminator
  | fall => pure fall
  | jump t => pure (jump t)
  | branch e t => do return branch (← e.mapVarsM f) t
  | ret none => pure (ret none)
  | ret (some e) => do return ret (some (← e.mapVarsM f))

theorem vars_mapVars (f : Var → Var) (t : Terminator) : (t.mapVars f).vars = t.vars.map f := by
  match t with
  | fall | jump _ | ret none => rfl
  | branch e _ | ret (some e) => exact Expr.vars_mapVars f e

/-- Variables have no say in where control goes. -/
@[simp]
theorem flow_mapVars (f : Var → Var) (t : Terminator) : (t.mapVars f).flow = t.flow := by
  cases t <;> rfl

/-- The text of a terminator; falling through has none. -/
def render : Terminator → String
  | fall => ""
  | jump t => "goto " ++ toString t ++ ";"
  | branch e t => "if (" ++ e.render ++ ") goto " ++ toString t ++ ";"
  | ret none => "return;"
  | ret (some e) => "return " ++ e.render ++ ";"

end Terminator

/-- An **instruction item**. -/
structure Item where
  address : Nat
  statements : List Assignment := []
  terminator : Terminator := .fall
deriving DecidableEq

namespace Item

/-- The flow class of an item is that of its terminator. -/
def flow (item : Item) : Flow :=
  item.terminator.flow

/-- The variables assigned, in order. -/
def defs (item : Item) : List Var :=
  item.statements.map (·.target)

/-- The variables read: those of the statements in order, then those of the terminator. -/
def uses (item : Item) : List Var :=
  item.statements.flatMap (·.value.vars) ++ item.terminator.vars

/-- The text of an item: its statements and, unless it falls through, its terminator. -/
def render (item : Item) : String :=
  let ending := if item.terminator.isFall then [] else [item.terminator.render]
  " ".intercalate (item.statements.map Assignment.render ++ ending)

/-- Replaces every variable, with an effect at each: statement by statement the variables
read and then the one assigned, and last those of the terminator. -/
def mapVarsM {m : Type → Type} [Monad m] (f : Var → m Var) (item : Item) : m Item := do
  let statements ← item.statements.mapM fun s => do
    let value ← s.value.mapVarsM f
    return { target := ← f s.target, value }
  return { item with statements, terminator := ← item.terminator.mapVarsM f }

/-- Hands versions to the variables of an item in the order of `mapVarsM`. -/
def withVersions (item : Item) (versions : List (Option Nat)) : Item :=
  ((item.mapVarsM Var.takeVersion).run versions).1

end Item

end FlowForm
