import FlowForm.Proofs.Listing.Precedence

/-!
# Reading Expressions and Statements

The parser against the grammar, in both directions. A parser **reads** a value off some tokens if it
succeeds whenever they are next, with this value, and leaves the rest (`Reads`). A parser **yields**
a relation at a cursor if it relates the tokens that have been read to the value, whenever the
parser succeeds there (`Yields`). Both are kept by sequences, so each parser is opened once for
each of them.

Operands are read by recursion on the depth that is left, and so are both proofs about them: a run
at one depth consists of operands at the same depth, and what nests in an operand is an operand or a
run at the next smaller one.

## Main results

* `reads_expression` and `yields_expression`.
* `reads_statement` and `yields_statement`.
-/

namespace FlowForm.Listing

variable {α β : Type}

/-- Two steps succeed if the first one does, and the second one with its value. -/
theorem bind_eq_ok_iff {ε : Type} {x : Except ε α} {f : α → Except ε β} {b : β} :
    x >>= f = .ok b ↔ ∃ a, x = .ok a ∧ f a = .ok b := by
  cases x with
  | error e => simp [bind, Except.bind]
  | ok a => simp [bind, Except.bind]

/-- The tokens that are still to be read. -/
def Cursor.tokens (s : Cursor) : List Token :=
  s.rest.map (·.token)

/-- There are as many tokens as places with one. -/
theorem Cursor.length_rest (s : Cursor) : s.rest.length = s.tokens.length :=
  (List.length_map _).symm

/-! ### Reading -/

/-- A parser **reads** a value off tokens and leaves the rest of them. -/
def Reads (p : Parser α) (ts : List Token) (a : α) (rest : List Token) : Prop :=
  ∀ s : Cursor, s.tokens = ts → ∃ s', p.run s = .ok (a, s') ∧ s'.tokens = rest

section Reads

variable {p : Parser α} {f : α → Parser β} {ts us rest : List Token} {a : α} {b : β}

theorem reads_pure (a : α) (ts : List Token) : Reads (pure a) ts a ts :=
  fun s hs => ⟨s, rfl, hs⟩

/-- Two parsers, one after the other. -/
theorem Reads.bind (h : Reads p ts a us) (h' : Reads (f a) us b rest) :
    Reads (p >>= f) ts b rest := by
  intro s hs
  obtain ⟨s₁, h, hs₁⟩ := h s hs
  obtain ⟨s₂, h', hs₂⟩ := h' s₁ hs₁
  refine ⟨s₂, ?_, hs₂⟩
  rw [StateT.run_bind, h]
  exact h'

/-- A parser that looks at the cursor first. -/
theorem reads_get_bind {f : Cursor → Parser β}
    (h : ∀ s, s.tokens = ts → Reads (f s) ts b rest) : Reads (get >>= f) ts b rest :=
  fun s hs => h s hs s hs

/-- There is one way only to read tokens. -/
theorem Reads.unique {a' : α} {rest' : List Token} (h : Reads p ts a rest)
    (h' : Reads p ts a' rest') : a = a' ∧ rest = rest' := by
  have hcursor : (⟨ts.map (⟨·, 1⟩), 1⟩ : Cursor).tokens = ts :=
    (List.map_map ..).trans (List.map_id ts)
  obtain ⟨s, hrun, rfl⟩ := h _ hcursor
  obtain ⟨s', hrun', rfl⟩ := h' _ hcursor
  rw [hrun] at hrun'
  cases hrun'
  exact ⟨rfl, rfl⟩

theorem reads_next (t : Token) (ts : List Token) : Reads next? (t :: ts) (some t) ts := by
  rintro ⟨rest, passed⟩ hs
  cases rest with
  | nil => cases hs
  | cons u rest =>
      obtain ⟨rfl, rfl⟩ := List.cons.inj hs
      exact ⟨⟨rest, u.line⟩, rfl, rfl⟩

theorem reads_peek (ts : List Token) : Reads peek? ts ts.head? ts := by
  rintro s rfl
  refine ⟨s, ?_, rfl⟩
  rw [Cursor.tokens, List.head?_map]
  rfl

theorem reads_accept (t : Token) (ts : List Token) : Reads (accept t) (t :: ts) true ts := by
  refine (reads_peek _).bind ?_
  rw [List.head?_cons, if_pos rfl]
  exact (reads_next t ts).bind (reads_pure true ts)

theorem reads_expect (p : Punct) (ts : List Token) : Reads (expect p) (.mark p :: ts) () ts :=
  (reads_accept (.mark p) ts).bind (reads_pure () ts)

theorem reads_number (n : Nat) (ts : List Token) : Reads number (.number n :: ts) n ts :=
  (reads_next (.number n) ts).bind (reads_pure n ts)

end Reads

/-! ### Yielding -/

/-- A parser **yields** a relation at a cursor if it relates the tokens that have been read to the
value, whenever the parser succeeds there. -/
def Yields (p : Parser α) (s : Cursor) (G : List Token → α → Prop) : Prop :=
  ∀ a s', p.run s = .ok (a, s') → ∃ ts, s.tokens = ts ++ s'.tokens ∧ G ts a

section Yields

variable {p : Parser α} {f : α → Parser β} {s : Cursor} {G G' : List Token → α → Prop}
  {H : List Token → β → Prop}

theorem yields_pure {a : α} (h : G [] a) : Yields (pure a) s G := by
  rintro _ _ ⟨⟩
  exact ⟨[], rfl, h⟩

/-- Two parsers, one after the other. -/
theorem Yields.bind (h : Yields p s G)
    (h' : ∀ ts a s', G ts a → Yields (f a) s' fun us b => H (ts ++ us) b) :
    Yields (p >>= f) s H := by
  intro b s' hrun
  rw [StateT.run_bind, bind_eq_ok_iff] at hrun
  obtain ⟨⟨a, s₁⟩, hp, hrun⟩ := hrun
  obtain ⟨ts, hts, ha⟩ := h a s₁ hp
  obtain ⟨us, hus, hb⟩ := h' ts a s₁ ha b s' hrun
  exact ⟨ts ++ us, by rw [hts, hus, List.append_assoc], hb⟩

theorem Yields.imp (h : Yields p s G) (himp : ∀ ts a, G ts a → G' ts a) : Yields p s G' := by
  intro a s' hrun
  obtain ⟨ts, hts, ha⟩ := h a s' hrun
  exact ⟨ts, hts, himp ts a ha⟩

theorem yields_throw (e : ListingError) : Yields (throw e : Parser α) s G := by
  rintro _ _ ⟨⟩

theorem yields_fail (fault : Fault) : Yields (fail fault : Parser α) s G := by
  rintro _ _ ⟨⟩

/-- A parser that looks at the cursor first. -/
theorem yields_get_bind {f : Cursor → Parser β} (h : Yields (f s) s H) :
    Yields (get >>= f) s H :=
  h

/-- A parser that looks at the next token first. -/
theorem yields_peek_bind {f : Option Token → Parser β} (h : Yields (f s.tokens.head?) s H) :
    Yields (peek? >>= f) s H := by
  rw [Cursor.tokens, List.head?_map] at h
  exact h

theorem yields_next : Yields next? s fun ts t => t = s.tokens.head? ∧ ts = t.toList := by
  obtain ⟨rest, passed⟩ := s
  rintro t s' hrun
  cases rest with
  | nil =>
      cases hrun
      exact ⟨[], rfl, rfl, rfl⟩
  | cons u rest =>
      cases hrun
      exact ⟨[u.token], rfl, rfl, rfl⟩

theorem yields_accept (t : Token) :
    Yields (accept t) s fun ts found => ts = if found then [t] else [] := by
  refine yields_peek_bind ?_
  split
  · rename_i hhead
    refine yields_next.bind ?_
    rintro ts _ s' ⟨rfl, rfl⟩
    exact yields_pure (by rw [hhead]; rfl)
  · exact yields_pure rfl

theorem yields_expect (p : Punct) : Yields (expect p) s fun ts _ => ts = [.mark p] := by
  refine (yields_accept _).bind ?_
  rintro ts found s' rfl
  cases found with
  | true => exact yields_pure rfl
  | false => exact yields_fail _

theorem yields_number : Yields number s fun ts n => ts = [.number n] := by
  refine yields_next.bind ?_
  rintro ts t s' ⟨-, rfl⟩
  split
  · exact yields_pure rfl
  · exact yields_fail _

end Yields

/-! ### Operands -/

section Operands

variable {applied enclosed : Parser Expr} {ts rest : List Token} {e : Expr}

/-- A constant is an operand. -/
theorem reads_operandWith_number {n : Nat} (h : n < Numeral.immediateBound) :
    Reads (operandWith applied enclosed) (.number n :: rest) (.imm n) rest := by
  refine (reads_next _ _).bind ?_
  simp only [h, if_true]
  exact reads_pure _ _

/-- A variable is an operand. -/
theorem reads_operandWith_word (name : String) :
    Reads (operandWith applied enclosed) (.word name :: rest) (.var { name }) rest :=
  (reads_next _ _).bind (reads_pure _ _)

/-- A unary operator with what it applies to is an operand. -/
theorem reads_operandWith_unary (op : UnaryOp) (h : Reads applied ts e rest) :
    Reads (operandWith applied enclosed) (.mark op.punct :: ts) (.unary op e) rest := by
  refine (reads_next _ _).bind ?_
  simp only [Punct.unary?_eq_some_iff.mpr rfl]
  exact h.bind (reads_pure _ _)

/-- What stands in parentheses is an operand. -/
theorem reads_operandWith_paren (h : Reads enclosed ts e (.mark .closeParen :: rest)) :
    Reads (operandWith applied enclosed) (.mark .openParen :: ts) e rest :=
  (reads_next _ _).bind (h.bind ((reads_expect _ rest).bind (reads_pure e rest)))

/-- Every operand that is read is derived, if what a unary operator applies to and what stands in
parentheses is. -/
theorem yields_operandWith {depth : Nat} {s : Cursor}
    (happlied : ∀ s op, Yields applied s fun ts e =>
      DerivesExpr depth 11 (.mark op.punct :: ts) (.unary op e))
    (henclosed : ∀ s, Yields enclosed s fun ts e =>
      DerivesExpr depth 11 (.mark .openParen :: (ts ++ [.mark .closeParen])) e) :
    Yields (operandWith applied enclosed) s (DerivesExpr depth 11) := by
  refine yields_next.bind ?_
  rintro ts t s' ⟨-, rfl⟩
  split
  · split
    · rename_i hlt
      exact yields_pure (.number hlt)
    · exact yields_fail _
  · rename_i name
    exact yields_pure (.word name)
  · rename_i p
    split
    · rename_i op hop
      obtain rfl := Punct.unary?_eq_some_iff.mp hop
      exact (happlied s' op).bind fun us e s'' h => yields_pure (by simpa using h)
    · split
      · rename_i hopen
        subst hopen
        refine (henclosed s').bind fun us e s'' h => (yields_expect _).bind ?_
        rintro _ _ s''' rfl
        exact yields_pure (by simpa using h)
      · exact yields_fail _
  · exact yields_fail _

end Operands

/-! ### Runs -/

/-- What follows a run of operands is no binary operator. -/
def EndsRun (rest : List Token) : Prop :=
  rest.head?.bind Token.binary? = none

/-- A run ends at every mark that is no binary operator. -/
theorem endsRun_mark {p : Punct} (h : p.binary? = none) (rest : List Token) :
    EndsRun (.mark p :: rest) :=
  h

section Runs

variable {depth : Nat} {ts rest : List Token} {e : Expr}

/-- Operators and operands continue a run up to its end. -/
theorem reads_links {bound : Nat} {links : List (BinaryOp × Expr)}
    (hoperand : ∀ {ts e rest}, DerivesExpr depth 11 ts e →
      Reads (operand depth) (ts ++ rest) e rest)
    (h : DerivesLinks depth ts links) (hbound : links.length ≤ bound) (hrest : EndsRun rest) :
    Reads (Listing.links (operand depth) bound) (ts ++ rest) links rest := by
  induction h generalizing bound with
  | nil =>
      cases bound with
      | zero => exact reads_pure [] rest
      | succ bound =>
          refine (reads_peek rest).bind ?_
          rw [hrest]
          exact reads_pure [] rest
  | cons op h _ ih =>
      cases bound with
      | zero => simp at hbound
      | succ bound =>
          rw [List.cons_append, List.append_assoc]
          refine (reads_peek _).bind ?_
          simp only [List.head?_cons, Option.bind_some, Token.binary?,
            Punct.binary?_eq_some_iff.mpr rfl]
          exact (reads_next _ _).bind ((hoperand h).bind
            ((ih (Nat.le_of_succ_le_succ hbound)).bind (reads_pure _ _)))

/-- **A run is read as the expression** that is assembled from it. -/
theorem reads_chain {level : Nat}
    (hoperand : ∀ {ts e rest}, DerivesExpr depth 11 ts e →
      Reads (operand depth) (ts ++ rest) e rest)
    (h : DerivesExpr depth level ts e) (hrest : EndsRun rest) :
    Reads (chain (operand depth)) (ts ++ rest) e rest := by
  obtain ⟨us, vs, first, links, rfl, hfirst, hlinks, hassemble⟩ := h.exists_run
  have hwhole : assemble [] first links = e := by
    have := hassemble [] [] (by simp) (by simp)
    rwa [List.append_nil] at this
  rw [List.append_assoc]
  refine (hoperand hfirst).bind (reads_get_bind fun s hs => ?_)
  have hbound : links.length ≤ s.rest.length := by
    have := hlinks.length_le
    rw [s.length_rest, hs, List.length_append]
    omega
  refine (reads_links hoperand hlinks hbound hrest).bind ?_
  rw [hwhole]
  exact reads_pure e rest

/-- **Every operand that is derived is read.** -/
theorem reads_operand (h : DerivesExpr depth 11 ts e) :
    Reads (operand depth) (ts ++ rest) e rest := by
  -- Induction on the depth and not on the derivation, for the parser recurses on the depth.
  induction depth generalizing ts e rest with
  | zero =>
      cases h with
      | number h => exact reads_operandWith_number h
      | word name => exact reads_operandWith_word name
      | binary op hop => exact absurd hop (Nat.ne_of_lt (Expr.precedence_pos op).2)
      | tighter hlevel => exact absurd hlevel (by decide)
  | succ depth ih =>
      cases h with
      | number h => exact reads_operandWith_number h
      | word name => exact reads_operandWith_word name
      | unary op h => exact reads_operandWith_unary op (ih h)
      | paren h =>
          rw [List.cons_append, List.append_assoc]
          exact reads_operandWith_paren (reads_chain (fun h => ih h) h (endsRun_mark rfl rest))
      | binary op hop => exact absurd hop (Nat.ne_of_lt (Expr.precedence_pos op).2)
      | tighter hlevel => exact absurd hlevel (by decide)

/-- The operators and operands that are read continue a run. -/
theorem yields_links {p : Parser Expr} (hp : ∀ s, Yields p s (DerivesExpr depth 11)) (bound : Nat)
    (s : Cursor) : Yields (links p bound) s (DerivesLinks depth) := by
  induction bound generalizing s with
  | zero => exact yields_pure .nil
  | succ bound ih =>
      refine yields_peek_bind ?_
      split
      · exact yields_pure .nil
      · rename_i op hop
        refine yields_next.bind ?_
        rintro _ _ s₁ ⟨rfl, rfl⟩
        obtain ⟨t, ht, hbinary⟩ := Option.bind_eq_some_iff.mp hop
        obtain rfl : t = .mark op.punct := by
          cases t with
          | mark p => rw [Punct.binary?_eq_some_iff.mp hbinary]
          | number | word => cases hbinary
        rw [ht]
        refine (hp s₁).bind fun ts e s₂ he => (ih s₂).bind fun us links s₃ hlinks => ?_
        exact yields_pure (by simpa using DerivesLinks.cons op he hlinks)

/-- What is assembled from operands that are derived is derived. -/
theorem yields_chain {p : Parser Expr} (hp : ∀ s, Yields p s (DerivesExpr depth 11)) (s : Cursor) :
    Yields (chain p) s (DerivesExpr depth 1) := by
  refine (hp s).bind fun ts first s₁ hfirst => yields_get_bind ?_
  refine (yields_links hp s₁.rest.length s₁).bind fun us links s₂ hlinks => yields_pure ?_
  simpa using derives_assemble .nil hfirst hlinks

/-- **Every operand that is read is derived.** -/
theorem yields_operand (depth : Nat) (s : Cursor) :
    Yields (operand depth) s (DerivesExpr depth 11) := by
  induction depth generalizing s with
  | zero => exact yields_operandWith (fun _ _ => yields_fail _) fun _ => yields_fail _
  | succ depth ih =>
      exact yields_operandWith (fun s op => (ih s).imp fun ts e h => .unary op h)
        fun s => (yields_chain ih s).imp fun ts e h => .paren h

end Runs

/-! ### Expressions -/

/-- **Every expression that is derived is read.** -/
theorem reads_expression {ts rest : List Token} {e : Expr} (h : DerivesExpr maxNesting 1 ts e)
    (hrest : EndsRun rest) : Reads expression (ts ++ rest) e rest :=
  reads_chain reads_operand h hrest

/-- **Every expression that is read is derived.** -/
theorem yields_expression (s : Cursor) : Yields expression s (DerivesExpr maxNesting 1) :=
  yields_chain (yields_operand maxNesting) s

/-! ### Statements -/

/-- A statement that is derived is read up to its semicolon. -/
theorem reads_statementBody {ts : List Token} {s : Statement} (h : DerivesBody ts s)
    (rest : List Token) :
    Reads statementBody (ts ++ .mark .semicolon :: rest) s (.mark .semicolon :: rest) := by
  have hends : EndsRun (.mark .semicolon :: rest) := endsRun_mark rfl rest
  cases h with
  | goto label =>
      refine (reads_peek _).bind ((reads_next _ _).bind ?_)
      exact (reads_number label _).bind (reads_pure _ _)
  | @assign target ts value htarget h =>
      refine (reads_peek _).bind ((reads_next _ _).bind ?_)
      -- The first three ways to go on are those of the keywords.
      split
      · exact absurd (by decide) htarget
      · exact absurd (by decide) htarget
      · exact absurd (by decide) htarget
      · exact (reads_expect _ _).bind ((reads_expression h hends).bind (reads_pure _ _))
  | @branch ts condition label h =>
      rw [List.cons_append, List.cons_append, List.append_assoc]
      refine (reads_peek _).bind ((reads_next _ _).bind ?_)
      refine (reads_expect _ _).bind ((reads_expression h (endsRun_mark rfl _)).bind ?_)
      refine (reads_expect _ _).bind ((reads_accept (.word "goto") _).bind ?_)
      exact (reads_number label _).bind (reads_pure _ _)
  | ret =>
      exact (reads_peek _).bind ((reads_next _ _).bind ((reads_peek _).bind (reads_pure _ _)))
  | @retValue ts value h =>
      obtain ⟨t, us, rfl, ht⟩ := h.head?_ne_semicolon
      rw [List.cons_append]
      refine (reads_peek _).bind ((reads_next _ _).bind ((reads_peek _).bind ?_))
      rw [List.cons_append, List.head?_cons, if_neg fun heq => ht (Option.some.inj heq)]
      exact (reads_expression h hends).bind (reads_pure _ _)

/-- **Every statement that is derived is read.** -/
theorem reads_statement {ts : List Token} {s : Statement} (h : DerivesBody ts s)
    (rest : List Token) : Reads statement (ts ++ .mark .semicolon :: rest) s rest :=
  (reads_statementBody h rest).bind ((reads_expect _ rest).bind (reads_pure s rest))

/-- A statement that is read up to its semicolon is derived. -/
theorem yields_statementBody (s : Cursor) : Yields statementBody s DerivesBody := by
  refine yields_peek_bind ?_
  split
  · rename_i first hfirst
    refine yields_next.bind ?_
    rintro _ _ s₁ ⟨rfl, rfl⟩
    rw [hfirst]
    split
    · refine yields_number.bind ?_
      rintro _ label s₂ rfl
      exact yields_pure (.goto label)
    · refine (yields_expect _).bind ?_
      rintro _ _ s₂ rfl
      refine (yields_expression s₂).bind fun ts condition s₃ h => (yields_expect _).bind ?_
      rintro _ _ s₄ rfl
      refine (yields_accept _).bind ?_
      rintro _ found s₅ rfl
      cases found with
      | false => exact yields_fail _
      | true =>
          refine yields_number.bind ?_
          rintro _ label s₆ rfl
          exact yields_pure (by simpa using DerivesBody.branch label h)
    · refine yields_peek_bind ?_
      split
      · exact yields_pure .ret
      · exact (yields_expression s₁).bind fun ts value s₂ h =>
          yields_pure (by simpa using DerivesBody.retValue h)
    · rename_i hgoto hif hreturn
      refine (yields_expect _).bind ?_
      rintro _ _ s₂ rfl
      have htarget : first ∉ keywords := by
        simp only [keywords, List.mem_cons, List.not_mem_nil, or_false, not_or]
        exact ⟨hgoto, hif, hreturn⟩
      exact (yields_expression s₂).bind fun ts value s₃ h =>
        yields_pure (by simpa using DerivesBody.assign htarget h)
  · exact yields_fail _

/-- **Every statement that is read is derived.** -/
theorem yields_statement (s : Cursor) : Yields statement s fun ts statement =>
    ∃ body, ts = body ++ [.mark .semicolon] ∧ DerivesBody body statement := by
  refine (yields_statementBody s).bind fun body statement s₁ h => (yields_expect _).bind ?_
  rintro _ _ s₂ rfl
  exact yields_pure ⟨body, by simp, h⟩

end FlowForm.Listing
