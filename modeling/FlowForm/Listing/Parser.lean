import FlowForm.Listing.Token

/-!
# Parsing listings

A **listing** is a sequence of statements, each behind any number of numeric labels:

* `name = expression;`
* `goto label;`
* `if (expression) goto label;`
* `return;` and `return expression;`

The `i`-th statement becomes the item at address `i`, and a jump to a label becomes a jump to
the address of the statement that carries it.

Expressions are read in two steps. `chain` collects a maximal run of operands with the binary
operators between them, and `assemble` turns the run into a tree by precedence, keeping the
operators whose right side is still open on a stack. Operands nest through parentheses and
unary operators; the recursion is on the nesting that is still allowed.

Loops that consume a token in every round are bounded by the number of tokens left.
-/

namespace FlowForm.Listing

/-! ### Operator chains -/

/-- **Open operators**, the innermost first: each has its left side and waits for its right
side. Towards the head they bind ever tighter. -/
abbrev Pending := List (Expr × BinaryOp)

/-- Closes the open operators that bind at least as tightly as `level`, given the right side
of the innermost one. -/
def close (level : Nat) : Pending → Expr → Pending × Expr
  | [], right => ([], right)
  | (left, op) :: pending, right =>
    if level ≤ op.precedence then close level pending (.binary op left right)
    else ((left, op) :: pending, right)

/-- The tree of a run of operands. An operator first closes those before it that bind at least
as tightly, so that operators of one level associate to the left. -/
def assemble (pending : Pending) (last : Expr) : List (BinaryOp × Expr) → Expr
  | [] => (close 0 pending last).2
  | (op, next) :: rest =>
    let (pending, left) := close op.precedence pending last
    assemble ((left, op) :: pending) next rest

/-! ### The parser -/

/-- The tokens still to be read, and the line of the last one that has been read. -/
structure Cursor where
  rest : List Token.Located
  passed : Nat := 1

/-- The line of the next token; behind the last token, the line of that one. -/
def Cursor.line (s : Cursor) : Nat :=
  match s.rest with
  | t :: _ => t.line
  | [] => s.passed

/-- Reads from a cursor, or stops at the first error. -/
abbrev Parser := StateT Cursor (Except ListingError)

/-- The next token, which stays unread. -/
def peek? : Parser (Option Token) := do
  return (← get).rest.head?.map (·.token)

/-- The next token, which is read. -/
def next? : Parser (Option Token) :=
  modifyGet fun s =>
    match s.rest with
    | t :: rest => (some t.token, { rest, passed := t.line })
    | [] => (none, s)

/-- Reports a fault at the current line. -/
def fail {α : Type} (fault : Fault) : Parser α := do
  throw (.malformed (← get).line fault)

/-- Reads the token if it is next, and says whether it was. -/
def accept (token : Token) : Parser Bool := do
  if (← peek?) = some token then
    let _ ← next?
    return true
  else
    return false

/-- Reads a punctuation mark that has to come next. -/
def expect (p : Punct) : Parser Unit := do
  if ← accept (.mark p) then
    return ()
  else
    fail (.expectedMark p)

/-- Reads a number. -/
def number : Parser Nat := do
  match ← next? with
  | some (.number n) => return n
  | _ => fail .expectedNumber

/-! ### Expressions -/

/-- The operators and operands that continue a run, for at most `bound` operators. -/
def links (operand : Parser Expr) : (bound : Nat) → Parser (List (BinaryOp × Expr))
  | 0 => return []
  | bound + 1 => do
    match (← peek?).bind Token.binary? with
    | none => return []
    | some op =>
      let _ ← next?
      let e ← operand
      return (op, e) :: (← links operand bound)

/-- A maximal run of operands with binary operators between them. -/
def chain (operand : Parser Expr) : Parser Expr := do
  let first ← operand
  let rest ← links operand (← get).rest.length
  return assemble [] first rest

/-- An operand, given how to read what a unary operator applies to and what stands between
parentheses. -/
def operandWith (applied enclosed : Parser Expr) : Parser Expr := do
  match ← next? with
  | some (.number n) =>
    if n < Numeral.immediateBound then return .imm n else fail (.constantOutOfRange n)
  | some (.word name) => return .var { name }
  | some (.mark p) =>
    match p.unary? with
    | some op => return .unary op (← applied)
    | none =>
      if p = .openParen then
        let e ← enclosed
        expect .closeParen
        return e
      else
        fail .expectedExpression
  | none => fail .expectedExpression

/-- An operand in which parentheses and unary operators may nest up to the given depth. -/
def operand : (depth : Nat) → Cursor → Except ListingError (Expr × Cursor)
  | 0, s => (operandWith (fail .nestedTooDeep) (fail .nestedTooDeep)).run s
  | depth + 1, s => (operandWith (operand depth) (chain (operand depth))).run s

/-- An expression. -/
def expression : Parser Expr :=
  chain (operand maxNesting)

/-! ### Statements -/

/-- A **statement** of a listing. Jumps name labels, not addresses. -/
inductive Statement where
  | assign (target : String) (value : Expr)
  | goto (label : Nat)
  | branch (condition : Expr) (label : Nat)
  | ret (value : Option Expr)
deriving DecidableEq

/-- Reads the part of a statement before its semicolon. A word that is none of the three
keywords is the target of an assignment. -/
def statementBody : Parser Statement := do
  match ← peek? with
  | some (.word first) =>
    let _ ← next?
    match first with
    | "goto" => return .goto (← number)
    | "if" =>
      expect .openParen
      let condition ← expression
      expect .closeParen
      if ← accept (.word "goto") then
        return .branch condition (← number)
      else
        fail .expectedGoto
    | "return" =>
      if (← peek?) = some (.mark .semicolon) then
        return .ret none
      else
        return .ret (some (← expression))
    | target =>
      expect .assign
      return .assign target (← expression)
  | _ => fail .expectedStatement

/-- Reads a statement. -/
def statement : Parser Statement := do
  let s ← statementBody
  expect .semicolon
  return s

/-! ### Labels -/

/-- The labels given so far and the addresses of their statements. -/
abbrev Labels := List (Nat × Nat)

/-- Reads a label, which is a number with a colon behind it. -/
def label? : Parser (Option Nat) :=
  modifyGet fun s =>
    match s.rest with
    | ⟨.number n, _⟩ :: ⟨.mark .colon, line⟩ :: rest => (some n, { rest, passed := line })
    | _ => (none, s)

/-- Reads the labels in front of the statement at `address`, at most `bound` of them, and adds
them to the table. -/
def labels (address : Nat) : (bound : Nat) → Labels → Parser Labels
  | 0, table => return table
  | bound + 1, table => do
    match ← label? with
    | none => return table
    | some n =>
      if (table.lookup n).isSome then
        throw (.duplicateLabel (← get).line n)
      else
        labels address bound ((n, address) :: table)

/-! ### Listings -/

/-- A statement with the line it starts on. -/
structure Line where
  line : Nat
  statement : Statement
deriving DecidableEq

/-- Reads labelled statements up to the end of the text, at most `bound` of them, the first one
being the statement at `address`. -/
def lines : (bound : Nat) → Nat → Labels → Parser (Labels × List Line)
  | 0, _, table => return (table, [])
  | bound + 1, address, table => do
    let s ← get
    if s.rest.isEmpty then
      return (table, [])
    else
      let table ← labels address s.rest.length table
      let line := (← get).line
      let first ← statement
      let (table, rest) ← lines bound (address + 1) table
      return (table, ⟨line, first⟩ :: rest)

/-- The address of a label that a statement on the given line jumps to. -/
def Labels.resolve (table : Labels) (line label : Nat) : Except ListingError Nat :=
  match table.lookup label with
  | some address => .ok address
  | none => .error (.undefinedLabel line label)

/-- The item that a statement stands for. -/
def Line.toItem (table : Labels) (l : Line) (address : Nat) : Except ListingError Item :=
  match l.statement with
  | .assign target value => return { address, statements := [⟨{ name := target }, value⟩] }
  | .goto label => return { address, terminator := .jump (← table.resolve l.line label) }
  | .branch condition label =>
    return { address, terminator := .branch condition (← table.resolve l.line label) }
  | .ret value => return { address, terminator := .ret value }

/-- The items of a listing whose tokens are given. -/
def ofTokens (tokens : List Token.Located) : Except ListingError (List Item) := do
  let ((table, read), _) ← (lines tokens.length 0 []).run { rest := tokens }
  read.zipIdx.mapM fun (l, i) => l.toItem table i

/-- The items of a listing. -/
def parse (text : String) : Except ListingError (List Item) := do
  ofTokens (← Token.scanText text)

/-- The items of a listing that is given as encoded text. -/
def parseBytes (bytes : ByteArray) : Except ListingError (List Item) :=
  match String.fromUTF8? bytes with
  | some text => parse text
  | none => .error .unreadable

end FlowForm.Listing
