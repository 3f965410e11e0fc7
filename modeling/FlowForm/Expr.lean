import FlowForm.Punct

/-!
# Expressions

Variables, operators and expression trees, with the text of each.

A variable is a name with an optional **version**. Names are what a listing assigns and
reads; versions tell the several assignments of one name apart once a function is in
single-assignment form, and are printed behind an `@`.

Operators bind by one of ten **precedence** levels, and all of them associate to the left.
`Expr.render` puts parentheses exactly where the precedences require them, so a tree can be
read off its text.
-/

namespace FlowForm

/-- A **variable**: a name, and the version of it once it has one. -/
structure Var where
  name : String
  version : Option Nat := none
deriving DecidableEq

namespace Var

/-- Whether the variable names one particular definition. -/
def isVersioned (v : Var) : Bool :=
  v.version.isSome

/-- The same name at the given version, or at none. -/
def withVersion (v : Var) (version : Option Nat) : Var :=
  { v with version }

/-- `name`, or `name@version`. -/
def render (v : Var) : String :=
  match v.version with
  | none => v.name
  | some n => v.name ++ "@" ++ toString n

end Var

/-- Operators with one operand. -/
inductive UnaryOp where
  | neg | logicalNot | complement
deriving DecidableEq

/-- The mark that writes a unary operator. -/
def UnaryOp.punct : UnaryOp → Punct
  | neg => .minus
  | logicalNot => .bang
  | complement => .tilde

/-- The unary operator that a mark writes, if it writes one. -/
def Punct.unary? : Punct → Option UnaryOp
  | minus => some .neg
  | bang => some .logicalNot
  | tilde => some .complement
  | _ => none

/-- Operators with two operands. -/
inductive BinaryOp where
  | add | sub | mul | div | rem
  | bitAnd | bitOr | bitXor | shl | shr
  | eq | ne | lt | le | gt | ge
  | logicalAnd | logicalOr
deriving DecidableEq

/-- The mark that writes a binary operator. -/
def BinaryOp.punct : BinaryOp → Punct
  | add => .plus
  | sub => .minus
  | mul => .star
  | div => .slash
  | rem => .percent
  | bitAnd => .amp
  | bitOr => .bar
  | bitXor => .caret
  | shl => .shl
  | shr => .shr
  | eq => .eqEq
  | ne => .notEq
  | lt => .less
  | le => .lessEq
  | gt => .greater
  | ge => .greaterEq
  | logicalAnd => .andAnd
  | logicalOr => .orOr

/-- The binary operator that a mark writes, if it writes one. -/
def Punct.binary? : Punct → Option BinaryOp
  | plus => some .add
  | minus => some .sub
  | star => some .mul
  | slash => some .div
  | percent => some .rem
  | amp => some .bitAnd
  | bar => some .bitOr
  | caret => some .bitXor
  | shl => some .shl
  | shr => some .shr
  | eqEq => some .eq
  | notEq => some .ne
  | less => some .lt
  | lessEq => some .le
  | greater => some .gt
  | greaterEq => some .ge
  | andAnd => some .logicalAnd
  | orOr => some .logicalOr
  | _ => none

theorem Punct.unary?_eq_some_iff {p : Punct} {op : UnaryOp} :
    p.unary? = some op ↔ p = op.punct := by
  cases p <;> cases op <;> decide

theorem Punct.binary?_eq_some_iff {p : Punct} {op : BinaryOp} :
    p.binary? = some op ↔ p = op.punct := by
  cases p <;> cases op <;> decide

/-- How tightly a binary operator binds: the **ten levels**, loosest first. -/
def BinaryOp.precedence : BinaryOp → Nat
  | logicalOr => 1
  | logicalAnd => 2
  | bitOr => 3
  | bitXor => 4
  | bitAnd => 5
  | eq | ne => 6
  | lt | le | gt | ge => 7
  | shl | shr => 8
  | add | sub => 9
  | mul | div | rem => 10

/-- An **expression tree** over signed constants and variables. -/
inductive Expr where
  | imm (value : Int)
  | var (v : Var)
  | unary (op : UnaryOp) (operand : Expr)
  | binary (op : BinaryOp) (left right : Expr)
deriving DecidableEq

namespace Expr

/-- Unary operators bind tighter than every binary one, and leaves tighter still. -/
def precedence : Expr → Nat
  | imm _ | var _ => 12
  | unary _ _ => 11
  | binary op _ _ => op.precedence

/-- Wraps the text of an operand in parentheses when its tree binds looser than the place
it stands in demands. -/
def parenthesize (loose : Bool) (text : String) : String :=
  if loose then "(" ++ text ++ ")" else text

/-- The text of an expression. A binary operator demands its own level on the left and the
next tighter one on the right, which is what association to the left means. -/
def render : Expr → String
  | imm n => toString n
  | var v => v.render
  | unary op e => op.punct.symbol ++ parenthesize (e.precedence < 11) e.render
  | binary op l r =>
    parenthesize (l.precedence < op.precedence) l.render ++ " " ++ op.punct.symbol ++ " " ++
      parenthesize (r.precedence < op.precedence + 1) r.render

/-- The tree with every operator application in parentheses and its operator in front, so
that no precedence is needed to read it. -/
def renderTree : Expr → String
  | imm n => toString n
  | var v => v.render
  | unary op e => "(" ++ op.punct.symbol ++ " " ++ e.renderTree ++ ")"
  | binary op l r =>
    "(" ++ op.punct.symbol ++ " " ++ l.renderTree ++ " " ++ r.renderTree ++ ")"

/-- The variables read, from left to right. -/
def vars : Expr → List Var
  | imm _ => []
  | var v => [v]
  | unary _ e => e.vars
  | binary _ l r => l.vars ++ r.vars

/-- Replaces every variable. -/
def mapVars (f : Var → Var) : Expr → Expr
  | imm n => imm n
  | var v => var (f v)
  | unary op e => unary op (e.mapVars f)
  | binary op l r => binary op (l.mapVars f) (r.mapVars f)

/-- Replaces every variable from left to right, with an effect at each. -/
def mapVarsM {m : Type → Type} [Monad m] (f : Var → m Var) : Expr → m Expr
  | imm n => pure (imm n)
  | var v => do return var (← f v)
  | unary op e => do return unary op (← e.mapVarsM f)
  | binary op l r => do return binary op (← l.mapVarsM f) (← r.mapVarsM f)

theorem vars_mapVars (f : Var → Var) (e : Expr) : (e.mapVars f).vars = e.vars.map f := by
  induction e with
  | imm | var => rfl
  | unary _ _ ih => exact ih
  | binary _ _ _ ihl ihr => simp [mapVars, vars, ihl, ihr]

end Expr

/-- Hands the next of a list of versions to a variable, which stays as it is when the list
has run out. -/
def Var.takeVersion (v : Var) : StateM (List (Option Nat)) Var :=
  modifyGet fun
    | [] => (v, [])
    | version :: rest => (v.withVersion version, rest)

/-- Hands versions to the variables of an expression from left to right. -/
def Expr.withVersions (e : Expr) (versions : List (Option Nat)) : Expr :=
  ((e.mapVarsM Var.takeVersion).run versions).1

end FlowForm
