import FlowForm.Listing.Parser

/-!
# The Grammar of Listings

What a listing looks like, said on its tokens and without a parser.

**Expressions** have eleven levels. On level eleven stand the operands: numbers, words, a unary
operator with an operand behind it, and any expression in parentheses. On each level below stand the
binary operators of that precedence, with a left side on the same level and a right side on the next
one, which makes them associate to the left. Only parentheses and unary operators nest, so how deep
they do is part of a derivation (`DerivesExpr`).

A **listing** is a sequence of statements with labels in front of them (`DerivesRows`).

The parser collects a **run** of operands with the operators between them and assembles it by
precedence. Both ways between runs and levels are here: what is assembled from a run is derived from
the tokens of the run (`derives_assemble`), and whatever is derived has a run from which it is
assembled (`DerivesExpr.exists_run`).

## Main results

* `derives_assemble`: assembling a run gives an expression with the tokens of the run.
* `DerivesExpr.exists_run`: every expression is assembled from a run.
-/

namespace FlowForm

/-- Every operator binds, and looser than operands do. -/
theorem Expr.precedence_pos (op : BinaryOp) : 0 < op.precedence ∧ op.precedence < 11 := by
  cases op <;> decide

namespace Listing

/-! ### Expressions -/

/-- The **expressions** that tokens make at a level, if parentheses and unary operators nest no
deeper than the given depth. -/
inductive DerivesExpr : (depth level : Nat) → List Token → Expr → Prop
  | number {depth n : Nat} (h : n < Numeral.immediateBound) :
    DerivesExpr depth 11 [.number n] (.imm n)
  | word {depth : Nat} (name : String) : DerivesExpr depth 11 [.word name] (.var { name })
  | unary {depth : Nat} {ts : List Token} {e : Expr} (op : UnaryOp)
    (h : DerivesExpr depth 11 ts e) :
    DerivesExpr (depth + 1) 11 (.mark op.punct :: ts) (.unary op e)
  | paren {depth : Nat} {ts : List Token} {e : Expr} (h : DerivesExpr depth 1 ts e) :
    DerivesExpr (depth + 1) 11 (.mark .openParen :: (ts ++ [.mark .closeParen])) e
  | binary {depth level : Nat} {ts us : List Token} {l r : Expr} (op : BinaryOp)
    (hop : op.precedence = level) (hl : DerivesExpr depth level ts l)
    (hr : DerivesExpr depth (level + 1) us r) :
    DerivesExpr depth level (ts ++ .mark op.punct :: us) (.binary op l r)
  | tighter {depth level : Nat} {ts : List Token} {e : Expr} (hlevel : level ≤ 10)
    (h : DerivesExpr depth (level + 1) ts e) : DerivesExpr depth level ts e

variable {depth : Nat}

namespace DerivesExpr

variable {level : Nat} {ts : List Token} {e : Expr}

/-- What stands on a level stands on every looser one. -/
theorem loosen (h : DerivesExpr depth level ts e) {level' : Nat} (hle : level' ≤ level)
    (hlevel : level ≤ 11) : DerivesExpr depth level' ts e := by
  induction hle with
  | refl => exact h
  | step hle ih => exact ih (.tighter (by omega) h) (by omega)

/-- No operator binds as loosely as level zero. -/
theorem of_zero (h : DerivesExpr depth 0 ts e) : DerivesExpr depth 1 ts e := by
  cases h with
  | binary op hop _ _ =>
      have := (Expr.precedence_pos op).1
      omega
  | tighter _ h => exact h

/-- An expression has a token, and the first one is no semicolon. -/
theorem head?_ne_semicolon (h : DerivesExpr depth level ts e) :
    ∃ t us, ts = t :: us ∧ t ≠ .mark .semicolon := by
  induction h with
  | number h => exact ⟨_, _, rfl, by simp⟩
  | word name => exact ⟨_, _, rfl, by simp⟩
  | unary op h _ => exact ⟨_, _, rfl, by cases op <;> decide⟩
  | paren h _ => exact ⟨_, _, rfl, by decide⟩
  | binary op hop hl hr ihl ihr =>
      obtain ⟨t, us, rfl, ht⟩ := ihl
      exact ⟨t, _, rfl, ht⟩
  | tighter hlevel h ih => exact ih

end DerivesExpr

/-! ### Runs -/

/-- The operators and operands that **continue a run**, as tokens. -/
inductive DerivesLinks (depth : Nat) : List Token → List (BinaryOp × Expr) → Prop
  | nil : DerivesLinks depth [] []
  | cons {ts us : List Token} {e : Expr} {links : List (BinaryOp × Expr)} (op : BinaryOp)
    (h : DerivesExpr depth 11 ts e) (hrest : DerivesLinks depth us links) :
    DerivesLinks depth (.mark op.punct :: (ts ++ us)) ((op, e) :: links)

/-- There are no more links than tokens. -/
theorem DerivesLinks.length_le {ts : List Token} {links : List (BinaryOp × Expr)}
    (h : DerivesLinks depth ts links) : links.length ≤ ts.length := by
  induction h with
  | nil => exact Nat.le_refl 0
  | cons op h hrest ih =>
      simp only [List.length_cons, List.length_append]
      omega

/-- A run that is continued twice. -/
theorem DerivesLinks.append {ts us : List Token} {links links' : List (BinaryOp × Expr)}
    (h : DerivesLinks depth ts links) (h' : DerivesLinks depth us links') :
    DerivesLinks depth (ts ++ us) (links ++ links') := by
  induction h with
  | nil => exact h'
  | cons op h hrest ih =>
      rw [List.cons_append, List.append_assoc]
      exact .cons op h ih

/-- **Open operators** with their left sides, as tokens. They bind ever tighter towards the
innermost one. -/
inductive DerivesPending (depth : Nat) : List Token → Pending → Prop
  | nil : DerivesPending depth [] []
  | cons {ts us : List Token} {left : Expr} {op : BinaryOp} {pending : Pending}
    (hrest : DerivesPending depth ts pending)
    (hbelow : ∀ x ∈ pending.head?, x.2.precedence < op.precedence)
    (h : DerivesExpr depth op.precedence us left) :
    DerivesPending depth (ts ++ (us ++ [.mark op.punct])) ((left, op) :: pending)

/-- **Closing operators** moves tokens from the open operators to the expression. -/
theorem derives_close (level : Nat) {pending : Pending} {right : Expr} {ts us : List Token}
    (hpending : DerivesPending depth ts pending)
    (hright : ∀ x ∈ pending.head?, DerivesExpr depth (x.2.precedence + 1) us right)
    (hlevel : DerivesExpr depth level us right) :
    ∃ ts' us', ts' ++ us' = ts ++ us ∧
      DerivesPending depth ts' (close level pending right).1 ∧
      DerivesExpr depth level us' (close level pending right).2 ∧
      ∀ x ∈ (close level pending right).1.head?, x.2.precedence < level := by
  induction hpending generalizing right us with
  | nil => exact ⟨[], us, rfl, .nil, hlevel, by simp [close]⟩
  | @cons ts vs left op pending hrest hbelow hleft ih =>
      have hop := Expr.precedence_pos op
      rw [close]
      split
      · rename_i hle
        -- The operator is closed, and what it makes stands on the level of the one below it.
        have hbinary := DerivesExpr.binary op rfl hleft (hright _ rfl)
        obtain ⟨ts', us', heq, hclosed⟩ := ih
          (fun x hx => hbinary.loosen (hbelow x hx) (by omega)) (hbinary.loosen hle (by omega))
        exact ⟨ts', us', by simpa using heq, hclosed⟩
      · rename_i hlt
        exact ⟨_, us, rfl, .cons hrest hbelow hleft, hlevel, by rintro x ⟨⟩; simp only; omega⟩

/-- **What is assembled from a run** is derived from its tokens. -/
theorem derives_assemble {pending : Pending} {last : Expr} {links : List (BinaryOp × Expr)}
    {ts us vs : List Token} (hpending : DerivesPending depth ts pending)
    (hlast : DerivesExpr depth 11 us last) (hlinks : DerivesLinks depth vs links) :
    DerivesExpr depth 1 (ts ++ (us ++ vs)) (assemble pending last links) := by
  induction hlinks generalizing pending last ts us with
  | nil =>
      obtain ⟨ts', us', heq, hrest, hclosed, hbelow⟩ := derives_close 0 hpending
        (fun x _ => hlast.loosen (Expr.precedence_pos x.2).2 (Nat.le_refl 11))
        (hlast.loosen (Nat.zero_le _) (Nat.le_refl 11))
      have hnil : (close 0 pending last).1 = [] := by
        refine List.head?_eq_none_iff.mp (Option.eq_none_iff_forall_not_mem.mpr fun x hx => ?_)
        exact absurd (hbelow x hx) (Nat.not_lt_zero _)
      rw [hnil] at hrest
      cases hrest
      rw [List.append_nil, ← heq]
      exact hclosed.of_zero
  | @cons vs ws next links op hnext hrest ih =>
      have hop := Expr.precedence_pos op
      obtain ⟨ts', us', heq, hopen, hleft, hbelow⟩ := derives_close op.precedence
        hpending (fun x _ => hlast.loosen (Expr.precedence_pos x.2).2 (Nat.le_refl 11))
        (hlast.loosen (by omega) (Nat.le_refl 11))
      have hassembled := ih (.cons hopen hbelow hleft) hnext
      have htokens : ts' ++ (us' ++ [.mark op.punct]) ++ (vs ++ ws) =
          ts ++ (us ++ .mark op.punct :: (vs ++ ws)) := by
        rw [← List.append_assoc ts', heq]
        simp
      rw [htokens] at hassembled
      exact hassembled

/-- Operators that bind looser than the level stay open. -/
theorem close_of_lt {level : Nat} {pending : Pending} (e : Expr)
    (h : ∀ x ∈ pending.head?, x.2.precedence < level) : close level pending e = (pending, e) := by
  cases pending with
  | nil => rfl
  | cons x pending =>
      have hlt := h x rfl
      rw [close, if_neg (by omega)]

/-- An operator is closed by the end of a run, and by any operator that does not bind tighter. -/
theorem assemble_cons_of_le {left right : Expr} {op : BinaryOp} {pending : Pending}
    {more : List (BinaryOp × Expr)} (hmore : ∀ x ∈ more.head?, x.1.precedence ≤ op.precedence) :
    assemble ((left, op) :: pending) right more =
      assemble pending (.binary op left right) more := by
  cases more with
  | nil => rfl
  | cons link more =>
      have hle := hmore link rfl
      simp only [assemble, close, hle, if_true]

/-- **Every expression is assembled from a run** of operands that has its tokens, inside of open
operators that bind looser and in front of operators that do not bind tighter. -/
theorem DerivesExpr.exists_run {level : Nat} {ts : List Token} {e : Expr}
    (h : DerivesExpr depth level ts e) :
    ∃ us vs first links, ts = us ++ vs ∧ DerivesExpr depth 11 us first ∧
      DerivesLinks depth vs links ∧
      ∀ pending more, (∀ x ∈ pending.head?, x.2.precedence < level) →
        (∀ x ∈ more.head?, x.1.precedence ≤ level) →
        assemble pending first (links ++ more) = assemble pending e more := by
  -- An operand is a run without links.
  have hoperand : ∀ {depth ts e}, DerivesExpr depth 11 ts e →
      ∃ us vs first links, ts = us ++ vs ∧ DerivesExpr depth 11 us first ∧
        DerivesLinks depth vs links ∧
        ∀ pending more, (∀ x ∈ pending.head?, x.2.precedence < 11) →
          (∀ x ∈ more.head?, x.1.precedence ≤ 11) →
          assemble pending first (links ++ more) = assemble pending e more :=
    fun h => ⟨_, [], _, [], (List.append_nil _).symm, h, .nil, fun _ _ _ _ => rfl⟩
  induction h with
  | number h => exact hoperand (.number h)
  | word name => exact hoperand (.word name)
  | unary op h _ => exact hoperand (.unary op h)
  | paren h _ => exact hoperand (.paren h)
  | tighter hlevel h ih =>
      obtain ⟨us, vs, first, links, heq, hfirst, hlinks, hassemble⟩ := ih
      refine ⟨us, vs, first, links, heq, hfirst, hlinks, fun pending more hpending hmore => ?_⟩
      exact hassemble pending more (fun x hx => Nat.lt_succ_of_lt (hpending x hx))
        fun x hx => Nat.le_succ_of_le (hmore x hx)
  | @binary depth level ts us l r op hop hl hr ihl ihr =>
      obtain ⟨us₁, vs₁, first, links, rfl, hfirst, hlinks, hleft⟩ := ihl
      obtain ⟨us₂, vs₂, second, links', rfl, hsecond, hlinks', hright⟩ := ihr
      refine ⟨us₁, vs₁ ++ .mark op.punct :: (us₂ ++ vs₂), first, links ++ (op, second) :: links',
        List.append_assoc .., hfirst, hlinks.append (.cons op hsecond hlinks'),
        fun pending more hpending hmore => ?_⟩
      subst hop
      calc assemble pending first (links ++ (op, second) :: links' ++ more)
        _ = assemble pending first (links ++ (op, second) :: (links' ++ more)) := by simp
        _ = assemble pending l ((op, second) :: (links' ++ more)) :=
            hleft _ _ hpending (by rintro x ⟨⟩; exact Nat.le_refl _)
        _ = assemble ((l, op) :: pending) second (links' ++ more) := by
            rw [assemble, close_of_lt l hpending]
        _ = assemble ((l, op) :: pending) r more :=
            hright _ _ (by rintro x ⟨⟩; exact Nat.lt_succ_self _)
              fun x hx => Nat.le_succ_of_le (hmore x hx)
        _ = assemble pending (.binary op l r) more := assemble_cons_of_le hmore

/-! ### Statements -/

/-- The words that start a statement which is no assignment. -/
def keywords : List String :=
  ["goto", "if", "return"]

/-- The label that a statement jumps to. -/
def Statement.label? : Statement → Option Nat
  | goto label | branch _ label => some label
  | assign _ _ | ret _ => none

/-- The **statements** that tokens make, up to the semicolon. -/
inductive DerivesBody : List Token → Statement → Prop
  | assign {target : String} {ts : List Token} {value : Expr} (htarget : target ∉ keywords)
    (h : DerivesExpr maxNesting 1 ts value) :
    DerivesBody (.word target :: .mark .assign :: ts) (.assign target value)
  | goto (label : Nat) : DerivesBody [.word "goto", .number label] (.goto label)
  | branch {ts : List Token} {condition : Expr} (label : Nat)
    (h : DerivesExpr maxNesting 1 ts condition) :
    DerivesBody (.word "if" :: .mark .openParen ::
      (ts ++ [.mark .closeParen, .word "goto", .number label])) (.branch condition label)
  | ret : DerivesBody [.word "return"] (.ret none)
  | retValue {ts : List Token} {value : Expr} (h : DerivesExpr maxNesting 1 ts value) :
    DerivesBody (.word "return" :: ts) (.ret (some value))

/-- Every statement starts with a word. -/
theorem DerivesBody.exists_word_cons {ts : List Token} {s : Statement} (h : DerivesBody ts s) :
    ∃ name us, ts = .word name :: us := by
  cases h with
  | assign | goto | branch | ret | retValue => exact ⟨_, _, rfl⟩

/-! ### Listings -/

/-- A **row** of a listing: a statement and the labels in front of it. -/
structure Row where
  labels : List Nat
  statement : Statement
deriving DecidableEq

/-- Labels as tokens. -/
def labelTokens (labels : List Nat) : List Token :=
  labels.flatMap fun label => [.number label, .mark .colon]

theorem labelTokens_cons (label : Nat) (labels : List Nat) :
    labelTokens (label :: labels) = .number label :: .mark .colon :: labelTokens labels :=
  rfl

/-- A label has two tokens. -/
theorem length_labelTokens (labels : List Nat) :
    (labelTokens labels).length = 2 * labels.length := by
  induction labels with
  | nil => rfl
  | cons label labels ih =>
      rw [labelTokens_cons, List.length_cons, List.length_cons, ih, List.length_cons]
      omega

/-- The **rows** that the tokens of a listing make. -/
inductive DerivesRows : List Token → List Row → Prop
  | nil : DerivesRows [] []
  | cons {ts us : List Token} {s : Statement} {rows : List Row} (labels : List Nat)
    (h : DerivesBody ts s) (hrest : DerivesRows us rows) :
    DerivesRows (labelTokens labels ++ (ts ++ .mark .semicolon :: us)) (⟨labels, s⟩ :: rows)

/-- There are no more rows than tokens. -/
theorem DerivesRows.length_le {ts : List Token} {rows : List Row} (h : DerivesRows ts rows) :
    rows.length ≤ ts.length := by
  induction h with
  | nil => exact Nat.le_refl 0
  | cons labels h hrest ih =>
      simp only [List.length_append, List.length_cons]
      omega

/-- All labels of a listing, in order. -/
def labelsOf (rows : List Row) : List Nat :=
  rows.flatMap (·.labels)

/-- The row at an index **carries** a label. -/
def Carries (rows : List Row) (label index : Nat) : Prop :=
  ∃ row, rows[index]? = some row ∧ label ∈ row.labels

/-- The item that a statement **denotes** at an address, if jumps go to the rows that carry their
labels. -/
inductive Denotes (rows : List Row) (address : Nat) : Statement → Item → Prop
  | assign (target : String) (value : Expr) :
    Denotes rows address (.assign target value)
      { address, statements := [⟨{ name := target }, value⟩] }
  | goto {label index : Nat} (h : Carries rows label index) :
    Denotes rows address (.goto label) { address, terminator := .jump index }
  | branch {label index : Nat} (condition : Expr) (h : Carries rows label index) :
    Denotes rows address (.branch condition label)
      { address, terminator := .branch condition index }
  | ret (value : Option Expr) :
    Denotes rows address (.ret value) { address, terminator := .ret value }

/-- An item stands at its address. -/
theorem Denotes.address_eq {rows : List Row} {address : Nat} {s : Statement} {item : Item}
    (h : Denotes rows address s item) : item.address = address := by
  cases h with
  | assign | goto | branch | ret => rfl

end Listing

end FlowForm
