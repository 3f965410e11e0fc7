import Mathlib.Tactic.SplitIfs
import Mathlib.Tactic.Tauto
import FlowForm.Proofs.Listing.Grammar
import FlowForm.Proofs.Listing.Spelling

/-!
# Precedence

The printer leaves out parentheses that precedence makes superfluous. This module relates what it
prints to the grammar.

How deep an expression **nests** parentheses and unary operators is counted the way it is printed
(`nesting`). An expression `Fits` on some level if it may stand there with the depth that is
allowed, in parentheses if it binds looser than the level. That is the case for exactly the
expressions that the grammar derives on the level, if words are identifiers: they are derived from
the tokens of their own text (`derives_tokens`), and what is derived from any tokens fits, since
parentheses that the printer leaves out do not nest less (`DerivesExpr.fits`).

## Main results

* `phrase_render`: the text of an expression spells its tokens.
* `derives_tokens`: a well-formed expression is derived from its tokens.
* `DerivesExpr.fits`: what is derived fits.
-/

namespace FlowForm

namespace Expr

/-! ### Well-formed expressions -/

/-- The constants, from left to right. -/
def constants : Expr → List Int
  | imm n => [n]
  | var _ => []
  | unary _ e => e.constants
  | binary _ l r => l.constants ++ r.constants

/-- Parentheses make an expression nest one level deeper. -/
def deepen (loose : Bool) (depth : Nat) : Nat :=
  if loose then depth + 1 else depth

/-- How deep parentheses and unary operators **nest** in the text of an expression. -/
def nesting : Expr → Nat
  | imm _ | var _ => 0
  | unary _ e => deepen (e.precedence < 11) e.nesting + 1
  | binary op l r =>
    max (deepen (l.precedence < op.precedence) l.nesting)
      (deepen (r.precedence < op.precedence + 1) r.nesting)

/-- An expression is **legible** if its variables are identifiers without versions and its constants
are those that a listing can spell. -/
def Legible (e : Expr) : Prop :=
  (∀ v ∈ e.vars, v.version = none ∧ Token.isIdentifier v.name) ∧
    ∀ n ∈ e.constants, 0 ≤ n ∧ n < Numeral.immediateBound

/-- An expression **fits** at a level if it is legible and nests no deeper than allowed when it is
put in parentheses as the level demands. -/
def Fits (depth level : Nat) (e : Expr) : Prop :=
  e.Legible ∧ deepen (e.precedence < level) e.nesting ≤ depth

/-- An expression is **well formed** if it is legible and its text nests no deeper than a listing
allows. -/
def WellFormed (e : Expr) : Prop :=
  e.Legible ∧ e.nesting ≤ maxNesting

instance (e : Expr) : Decidable e.Legible :=
  inferInstanceAs (Decidable (_ ∧ _))

instance (e : Expr) : Decidable e.WellFormed :=
  inferInstanceAs (Decidable (_ ∧ _))

/-- The parts of an expression with two operands are legible. -/
theorem legible_binary {op : BinaryOp} {l r : Expr} :
    (binary op l r).Legible ↔ l.Legible ∧ r.Legible := by
  simp only [Legible, vars, constants, List.mem_append, or_imp, forall_and]
  tauto

/-- What fits at a level fits at every looser one. -/
theorem Fits.mono {depth level level' : Nat} {e : Expr} (h : e.Fits depth level)
    (hle : level' ≤ level) : e.Fits depth level' := by
  refine ⟨h.1, ?_⟩
  have hdepth := h.2
  simp only [deepen, decide_eq_true_eq] at hdepth ⊢
  split_ifs at hdepth ⊢ <;> omega

/-- In parentheses every expression fits that has fitted before. -/
theorem Fits.enclose {depth : Nat} {e : Expr} (h : e.Fits depth 0) (level : Nat) :
    e.Fits (depth + 1) level := by
  refine ⟨h.1, ?_⟩
  have hdepth := h.2
  simp only [deepen, decide_eq_true_eq] at hdepth ⊢
  split_ifs at hdepth ⊢ <;> omega

/-- A unary operator takes one level. -/
theorem fits_unary {depth level : Nat} (hlevel : level ≤ 11) {op : UnaryOp} {e : Expr} :
    (unary op e).Fits (depth + 1) level ↔ e.Fits depth 11 := by
  have hlegible : (unary op e).Legible ↔ e.Legible := Iff.rfl
  have htight : ¬ (unary op e).precedence < level := by
    simp only [precedence]
    omega
  simp only [Fits, hlegible, deepen, nesting, decide_eq_true_eq, htight, if_false,
    Nat.add_le_add_iff_right]

/-- An expression with two operands fits where its operands do. -/
theorem fits_binary {depth level : Nat} {op : BinaryOp} (hlevel : level ≤ op.precedence)
    {l r : Expr} : (binary op l r).Fits depth level ↔
      l.Fits depth op.precedence ∧ r.Fits depth (op.precedence + 1) := by
  have htight : ¬ (binary op l r).precedence < level := by
    simp only [precedence]
    omega
  simp only [Fits, legible_binary, deepen, nesting, decide_eq_true_eq, htight, if_false,
    Nat.max_le]
  tauto

/-! ### Tokens -/

/-- Puts tokens in parentheses, if need be. -/
def enclose (loose : Bool) (ts : List Token) : List Token :=
  if loose then .mark .openParen :: ts ++ [.mark .closeParen] else ts

/-- The tokens of an expression. -/
def tokens : Expr → List Token
  | imm n => [.number n.toNat]
  | var v => [.word v.name]
  | unary op e => .mark op.punct :: enclose (e.precedence < 11) e.tokens
  | binary op l r =>
    enclose (l.precedence < op.precedence) l.tokens ++ .mark op.punct ::
      enclose (r.precedence < op.precedence + 1) r.tokens

/-- Parentheses around a phrase. -/
theorem phrase_parenthesize {text : String} {ts : List Token}
    (h : Token.Phrase Token.endsToken text.toList ts) (loose : Bool) :
    Token.Phrase Token.endsToken (parenthesize loose text).toList (enclose loose ts) := by
  cases loose with
  | false => exact h
  | true =>
      have hopen := Token.phrase_mark .openParen rfl
      have hphrase := (hopen.phrase h fun _ hc => hc).mark .closeParen rfl
      have htext : (parenthesize true text).toList =
          Punct.openParen.chars ++ text.toList ++ Punct.closeParen.chars := by
        simp [parenthesize, Punct.chars]
      rw [htext]
      exact hphrase.mono fun c hc => (Bool.and_eq_true_iff.mp hc).2

/-- **The text of an expression spells its tokens.** -/
theorem phrase_render {e : Expr} (h : e.Legible) :
    Token.Phrase Token.endsToken e.render.toList e.tokens := by
  induction e with
  | imm n =>
      obtain ⟨hnonneg, hlt⟩ := h.2 n (List.mem_singleton.mpr rfl)
      obtain ⟨k, rfl⟩ := Int.eq_ofNat_of_zero_le hnonneg
      have hbound : Numeral.immediateBound ≤ Numeral.wordBound := by decide
      exact Token.phrase_number (by omega)
  | var v =>
      obtain ⟨hversion, hname⟩ := h.1 v (List.mem_singleton.mpr rfl)
      have htext : (var v).render = v.name := by rw [render, Var.render, hversion]
      rw [htext]
      exact Token.phrase_word hname
  | unary op e ih =>
      have hop := Token.phrase_mark op.punct (by cases op <;> rfl)
      have htext : (unary op e).render.toList =
          op.punct.chars ++ (parenthesize (e.precedence < 11) e.render).toList := by
        simp [render, Punct.symbol]
      rw [htext]
      exact hop.phrase (phrase_parenthesize (ih h) _) fun _ hc => hc
  | binary op l r ihl ihr =>
      obtain ⟨hl, hr⟩ := legible_binary.mp h
      have hleft := phrase_parenthesize (ihl hl) (l.precedence < op.precedence)
      have hright := phrase_parenthesize (ihr hr) (r.precedence < op.precedence + 1)
      have htext : (binary op l r).render.toList =
          (parenthesize (l.precedence < op.precedence) l.render).toList ++ [' '] ++
            op.punct.chars ++ [' '] ++
              (parenthesize (r.precedence < op.precedence + 1) r.render).toList := by
        simp [render, Punct.symbol]
      have hphrase := (((hleft.blank (by decide)).mark op.punct (by cases op <;> rfl)).blank
        (by decide)).phrase hright (by simp)
      have htokens : (binary op l r).tokens = enclose (l.precedence < op.precedence) l.tokens ++
          [.mark op.punct] ++ enclose (r.precedence < op.precedence + 1) r.tokens := by
        simp [tokens]
      rw [htext, htokens]
      exact hphrase

/-! ### Derivations -/

/-- Every expression binds. -/
theorem one_le_precedence (e : Expr) : 1 ≤ e.precedence := by
  cases e with
  | binary op l r => exact (precedence_pos op).1
  | imm | var | unary => exact Nat.le_add_left 1 _

/-- Parentheses make an operand of what can be derived at all. -/
theorem derives_enclose_of_tight {depth level : Nat} {e : Expr}
    (h : ∀ depth, e.Fits depth 0 →
      Listing.DerivesExpr depth (min e.precedence 11) e.tokens e)
    (hfits : e.Fits depth level) (hlevel : level ≤ 11) :
    Listing.DerivesExpr depth level (enclose (e.precedence < level) e.tokens) e := by
  have hdepth := hfits.2
  have hpos : 1 ≤ min e.precedence 11 := Nat.le_min.mpr ⟨one_le_precedence e, by decide⟩
  by_cases hloose : e.precedence < level
  · simp only [deepen, hloose, decide_true, if_true] at hdepth
    obtain ⟨depth, rfl⟩ : ∃ d, depth = d + 1 := ⟨depth - 1, by omega⟩
    have hinner := (h depth ⟨hfits.1, Nat.le_of_succ_le_succ hdepth⟩).loosen hpos
      (Nat.min_le_right ..)
    simpa [enclose, hloose] using (Listing.DerivesExpr.paren hinner).loosen hlevel (Nat.le_refl 11)
  · have htight : Listing.DerivesExpr depth level e.tokens e :=
      (h depth (hfits.mono (Nat.zero_le _))).loosen (by omega) (Nat.min_le_right ..)
    simpa [enclose, hloose] using htight

/-- **An expression that fits is derived from its tokens**, on the level of its own operator. -/
theorem derives_tokens {depth : Nat} {e : Expr} (h : e.Fits depth 0) :
    Listing.DerivesExpr depth (min e.precedence 11) e.tokens e := by
  induction e generalizing depth with
  | imm n =>
      obtain ⟨hnonneg, hlt⟩ := h.1.2 n (List.mem_singleton.mpr rfl)
      obtain ⟨k, rfl⟩ := Int.eq_ofNat_of_zero_le hnonneg
      exact .number (Int.ofNat_lt.mp hlt)
  | var v =>
      obtain ⟨name, version⟩ := v
      obtain ⟨rfl, -⟩ := h.1.1 _ (List.mem_singleton.mpr rfl)
      exact .word name
  | unary op e ih =>
      cases depth with
      | zero => simp [Fits, deepen, nesting] at h
      | succ depth =>
          have hoperand := (fits_unary (Nat.zero_le 11)).mp h
          exact .unary op (derives_enclose_of_tight (fun _ => ih) hoperand (Nat.le_refl 11))
  | binary op l r ihl ihr =>
      obtain ⟨hl, hr⟩ := (fits_binary (Nat.zero_le _)).mp h
      have hop := precedence_pos op
      have hlevel : min (binary op l r).precedence 11 = op.precedence :=
        Nat.min_eq_left (by simp only [precedence]; omega)
      rw [hlevel]
      exact .binary op rfl (derives_enclose_of_tight (fun _ => ihl) hl (by omega))
        (derives_enclose_of_tight (fun _ => ihr) hr (by omega))

/-- **A well-formed expression is derived from its tokens.** -/
theorem WellFormed.derives {e : Expr} (h : e.WellFormed) :
    Listing.DerivesExpr maxNesting 1 e.tokens e :=
  (derives_tokens h).loosen (Nat.le_min.mpr ⟨one_le_precedence e, by decide⟩)
    (Nat.min_le_right ..)

end Expr

/-- **What is derived fits**, if all words are identifiers. -/
theorem Listing.DerivesExpr.fits {depth level : Nat} {ts : List Token} {e : Expr}
    (h : Listing.DerivesExpr depth level ts e) (hlevel : level ≤ 11)
    (hwords : ∀ name, .word name ∈ ts → Token.isIdentifier name) : e.Fits depth level := by
  induction h with
  | @number depth n h =>
      refine ⟨⟨by simp [Expr.vars], fun k hk => ?_⟩, Nat.zero_le _⟩
      obtain rfl : k = n := by simpa [Expr.constants] using hk
      exact ⟨Int.natCast_nonneg n, Int.ofNat_lt.mpr h⟩
  | word name =>
      refine ⟨⟨fun v hv => ?_, by simp [Expr.constants]⟩, Nat.zero_le _⟩
      obtain rfl : v = { name } := by simpa [Expr.vars] using hv
      exact ⟨rfl, hwords name (List.mem_singleton_self _)⟩
  | unary op h ih =>
      exact (Expr.fits_unary hlevel).mpr
        (ih hlevel fun name hname => hwords name (List.mem_cons_of_mem _ hname))
  | paren h ih =>
      refine Expr.Fits.enclose ((ih (by omega) fun name hname => hwords name ?_).mono
        (Nat.zero_le 1)) 11
      exact List.mem_cons_of_mem _ (List.mem_append_left _ hname)
  | binary op hop hl hr ihl ihr =>
      have hpos := Expr.precedence_pos op
      subst hop
      refine (Expr.fits_binary (Nat.le_refl _)).mpr
        ⟨ihl (by omega) fun name hname => hwords name (List.mem_append_left _ hname),
          ihr (by omega) fun name hname => hwords name ?_⟩
      exact List.mem_append_right _ (List.mem_cons_of_mem _ hname)
  | tighter hle h ih => exact (ih (by omega) hwords).mono (Nat.le_succ _)

end FlowForm
