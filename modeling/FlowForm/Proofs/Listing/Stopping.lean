import FlowForm.Proofs.Listing.Reading

/-!
# Where the Parser Stops

What a parser does is settled by the tokens that it reads and the one behind them. Either it
**takes** some tokens, and does so whatever comes later (`Takes`), or it **gets stuck** behind some
tokens with a fault, and does so whatever comes later (`Stuck`). Both say on what line the cursor
stands then, which for a fault is not always the line of the token that the parser gets stuck at:
numbers and operands are read before they are looked at, and the fault is reported from the token
behind them (`Fault.lag`).

Every parser **decides** for one of the two at every cursor (`Decides`). Decisions are made one
after the other, so each parser is opened once. What a parser gets stuck behind can always be
completed, if what the fault asks for comes next (`Leads`).

## Main results

* `Decides.bind`: decisions one after the other.
* `decides_operand` and `decides_chain`: what expressions are taken, and where they get stuck.
* `decides_statement`: what statements are taken, and where they get stuck.
-/

namespace FlowForm

namespace Fault

/-- How many tokens have been read from the offending one on when a fault is reported. -/
def lag : Fault → Nat
  | expectedNumber | expectedExpression | constantOutOfRange _ | nestedTooDeep => 1
  | expectedMark _ | expectedGoto | expectedStatement | invalidNumber _ | unexpectedChar _ => 0

/-- What could stand in the place of the offending token. -/
def remedy : Fault → List Token
  | expectedMark p => [.mark p]
  | expectedGoto => [.word "goto"]
  | expectedStatement => [.word "return"]
  | expectedNumber | expectedExpression | constantOutOfRange _ | nestedTooDeep => [.number 0]
  | invalidNumber _ | unexpectedChar _ => []

end Fault

namespace Listing

variable {α β : Type}

/-! ### Cursors that move on -/

namespace Cursor

/-- The cursor after that many tokens, or behind the last one if there are fewer. -/
def skip : Cursor → Nat → Cursor
  | s, 0 => s
  | ⟨[], passed⟩, _ + 1 => ⟨[], passed⟩
  | ⟨t :: rest, _⟩, k + 1 => skip ⟨rest, t.line⟩ k

@[simp] theorem skip_zero (s : Cursor) : s.skip 0 = s := by
  rw [skip]

theorem tokens_skip (s : Cursor) (k : Nat) : (s.skip k).tokens = s.tokens.drop k := by
  induction k generalizing s with
  | zero => rw [skip_zero, List.drop_zero]
  | succ k ih =>
      obtain ⟨rest, passed⟩ := s
      cases rest with
      | nil => rfl
      | cons t rest => exact ih ⟨rest, t.line⟩

theorem skip_skip (s : Cursor) (j k : Nat) : (s.skip j).skip k = s.skip (j + k) := by
  induction j generalizing s with
  | zero => rw [skip_zero, Nat.zero_add]
  | succ j ih =>
      obtain ⟨rest, passed⟩ := s
      rw [Nat.succ_add]
      cases rest with
      | nil =>
          cases k with
          | zero => exact skip_zero _
          | succ k => rfl
      | cons t rest => exact ih ⟨rest, t.line⟩

/-- The line of a cursor that has moved on. -/
theorem line_skip (s : Cursor) (k : Nat) :
    (s.skip k).line = (s.rest[k]?.or s.rest.getLast?).elim s.passed (·.line) := by
  induction k generalizing s with
  | zero =>
      obtain ⟨rest, passed⟩ := s
      cases rest with
      | nil => rfl
      | cons t rest => rfl
  | succ k ih =>
      obtain ⟨rest, passed⟩ := s
      cases rest with
      | nil => rfl
      | cons t rest =>
          refine (ih ⟨rest, t.line⟩).trans ?_
          cases rest with
          | nil => rfl
          | cons u rest =>
              rw [List.getLast?_cons_cons, List.getElem?_cons_succ,
                List.getLast?_eq_some_getLast (List.cons_ne_nil u rest)]
              cases (u :: rest)[k]? with
              | none => rfl
              | some x => rfl

/-- The tokens behind the ones that have been skipped. -/
theorem tokens_skip_length {s : Cursor} {ts rest : List Token} (h : s.tokens = ts ++ rest) :
    (s.skip ts.length).tokens = rest := by
  rw [tokens_skip, h, List.drop_left]

end Cursor

/-! ### Taking tokens and getting stuck -/

/-- What a parser does at every cursor with the given tokens and the given one behind them. -/
def Runs (p : Parser α) (ts : List Token) (next : Option Token)
    (r : Cursor → Except ListingError (α × Cursor)) : Prop :=
  ∀ (s : Cursor) (rest : List Token), s.tokens = ts ++ rest → rest.head? = next → p.run s = r s

/-- A parser **takes** tokens and gives a value for them, if it sees the given token behind them. -/
def Takes (p : Parser α) (ts : List Token) (next : Option Token) (a : α) : Prop :=
  Runs p ts next fun s => .ok (a, s.skip ts.length)

/-- A parser **gets stuck** behind tokens with a fault, if it sees the given token behind them. -/
def Stuck (p : Parser α) (ts : List Token) (next : Option Token) (fault : Fault) : Prop :=
  Runs p ts next fun s => .error (.malformed (s.skip (ts.length + fault.lag)).line fault)

section Sequences

variable {p : Parser α} {f : α → Parser β} {s : Cursor} {ts us : List Token} {next : Option Token}
  {a : α} {b : β} {fault : Fault}

/-- A parser that looks at the next token first. -/
theorem Runs.peek_bind {f : Option Token → Parser β}
    {r : Cursor → Except ListingError (β × Cursor)} (h : Runs (f (ts.head?.or next)) ts next r) :
    Runs (peek? >>= f) ts next r := by
  intro s rest hs hnext
  have hpeek : (peek? >>= f).run s = (f s.tokens.head?).run s := by
    rw [Cursor.tokens, List.head?_map]
    rfl
  rw [hpeek, hs, List.head?_append, hnext]
  exact h s rest hs hnext

/-- A parser that goes on behind tokens that have been taken. -/
theorem Runs.bind {r : Cursor → Except ListingError (β × Cursor)}
    (h : Takes p ts (us.head?.or next) a) (h' : Runs (f a) us next r) :
    Runs (p >>= f) (ts ++ us) next fun s => r (s.skip ts.length) := by
  intro s rest hs hnext
  rw [List.append_assoc] at hs
  have hhead : (us ++ rest).head? = us.head?.or next := by rw [List.head?_append, hnext]
  rw [StateT.run_bind, h s _ hs hhead]
  exact h' (s.skip ts.length) rest (Cursor.tokens_skip_length hs) hnext

theorem Takes.bind (h : Takes p ts (us.head?.or next) a) (h' : Takes (f a) us next b) :
    Takes (p >>= f) (ts ++ us) next b := by
  intro s rest hs hnext
  simp only [Runs.bind h h' s rest hs hnext, Cursor.skip_skip, List.length_append]

theorem Takes.bind_stuck (h : Takes p ts (us.head?.or next) a) (h' : Stuck (f a) us next fault) :
    Stuck (p >>= f) (ts ++ us) next fault := by
  intro s rest hs hnext
  simp only [Runs.bind h h' s rest hs hnext, Cursor.skip_skip, List.length_append, Nat.add_assoc]

theorem Stuck.bind (h : Stuck p ts next fault) : Stuck (p >>= f) ts next fault := by
  intro s rest hs hnext
  rw [StateT.run_bind, h s rest hs hnext]
  rfl

end Sequences

/-! ### Decisions -/

/-- A parser **decides** at a cursor: it takes tokens, or gets stuck behind tokens that are related
to the token behind them and to the fault. -/
def Decides (p : Parser α) (s : Cursor) (G : List Token → Option Token → Fault → Prop) : Prop :=
  ∃ ts rest, s.tokens = ts ++ rest ∧
    ((∃ a, Takes p ts rest.head? a) ∨ ∃ fault, G ts rest.head? fault ∧ Stuck p ts rest.head? fault)

section Decisions

variable {p : Parser α} {f : α → Parser β} {s : Cursor} {K : List Token → α → Prop}
  {G G' : List Token → Option Token → Fault → Prop} {a : α} {fault : Fault}

theorem Decides.imp (h : Decides p s G) (hG : ∀ ts next fault, G ts next fault → G' ts next fault) :
    Decides p s G' := by
  obtain ⟨ts, rest, hs, htakes | ⟨fault, hfault, hstuck⟩⟩ := h
  · exact ⟨ts, rest, hs, .inl htakes⟩
  · exact ⟨ts, rest, hs, .inr ⟨fault, hG ts _ fault hfault, hstuck⟩⟩

/-- What is taken is related to its value as whatever the parser yields. -/
theorem Yields.of_takes {ts rest : List Token} (h : Yields p s K) (hs : s.tokens = ts ++ rest)
    (htakes : Takes p ts rest.head? a) : K ts a := by
  obtain ⟨ts', hs', ha⟩ := h a _ (htakes s rest hs rfl)
  rw [Cursor.tokens_skip_length hs, hs] at hs'
  rwa [List.append_cancel_right hs']

/-- **Decisions one after the other.** -/
theorem Decides.bind (hp : Decides p s G) (hyields : Yields p s K)
    (hf : ∀ ts a s₁, K ts a → Decides (f a) s₁ fun us => G (ts ++ us)) :
    Decides (p >>= f) s G := by
  obtain ⟨ts, rest, hs, ⟨a, htakes⟩ | ⟨fault, hfault, hstuck⟩⟩ := hp
  · obtain ⟨us, rest', hus, hdecided⟩ := hf ts a (s.skip ts.length) (hyields.of_takes hs htakes)
    obtain rfl : rest = us ++ rest' := (Cursor.tokens_skip_length hs).symm.trans hus
    rw [List.head?_append] at htakes
    refine ⟨ts ++ us, rest', by rw [hs, List.append_assoc], hdecided.imp ?_ ?_⟩
    · rintro ⟨b, htakes'⟩
      exact ⟨b, htakes.bind htakes'⟩
    · rintro ⟨fault, hfault, hstuck⟩
      exact ⟨fault, hfault, htakes.bind_stuck hstuck⟩
  · exact ⟨ts, rest, hs, .inr ⟨fault, hfault, hstuck.bind⟩⟩

theorem takes_pure (a : α) (next : Option Token) : Takes (pure a) [] next a := by
  intro s _ _ _
  simp only [List.length_nil, s.skip_zero]
  rfl

theorem Takes.map {ts : List Token} {next : Option Token} (h : Takes p ts next a) (g : α → β) :
    Takes (p >>= fun a => pure (g a)) ts next (g a) := by
  have hmap : Takes (p >>= fun a => pure (g a)) (ts ++ []) next (g a) :=
    Takes.bind h (takes_pure (g a) next)
  rwa [List.append_nil] at hmap

theorem decides_pure : Decides (pure a) s G :=
  ⟨[], s.tokens, rfl, .inl ⟨a, takes_pure a _⟩⟩

/-- A fault that is reported **at once**. -/
theorem decides_fail (hlag : fault.lag = 0) (h : ∀ next, G [] next fault) :
    Decides (fail fault : Parser α) s G := by
  refine ⟨[], s.tokens, rfl, .inr ⟨fault, h _, fun s _ _ _ => ?_⟩⟩
  simp only [hlag, List.length_nil, Nat.add_zero, s.skip_zero]
  rfl

/-- A parser that looks at the next token first. -/
theorem decides_peek_bind {f : Option Token → Parser β} (h : Decides (f s.tokens.head?) s G) :
    Decides (peek? >>= f) s G := by
  obtain ⟨ts, rest, hs, hdecided⟩ := h
  rw [hs, List.head?_append] at hdecided
  refine ⟨ts, rest, hs, hdecided.imp ?_ ?_⟩
  · rintro ⟨b, htakes⟩
    exact ⟨b, htakes.peek_bind⟩
  · rintro ⟨fault, hfault, hstuck⟩
    exact ⟨fault, hfault, hstuck.peek_bind⟩

/-- Reading the next token. -/
theorem run_next (s : Cursor) : next?.run s = .ok (s.tokens.head?, s.skip 1) := by
  obtain ⟨rest, passed⟩ := s
  cases rest with
  | nil => rfl
  | cons t rest => rfl

theorem takes_next (t : Token) (next : Option Token) : Takes next? [t] next (some t) := by
  intro s rest hs _
  rw [run_next, hs]
  rfl

/-- A parser that reads the next token first, and goes on behind it. -/
theorem decides_next_bind {f : Option Token → Parser β} {t : Token} {us : List Token}
    (hs : s.tokens = t :: us)
    (h : ∀ s₁ : Cursor, Decides (f (some t)) s₁ fun vs => G (t :: vs)) :
    Decides (next? >>= f) s G := by
  refine Decides.bind ⟨[t], us, hs, .inl ⟨some t, takes_next t _⟩⟩ yields_next ?_
  rintro _ _ s₁ ⟨rfl, rfl⟩
  rw [hs]
  exact h s₁

/-- A parser that reads the next token first, and reports a fault **behind it**. -/
theorem decides_next_fail {f : Option Token → Parser β} (hf : f s.tokens.head? = fail fault)
    (hlag : fault.lag = 1) (h : G [] s.tokens.head? fault) : Decides (next? >>= f) s G := by
  refine ⟨[], s.tokens, rfl, .inr ⟨fault, h, fun s' rest hs' hnext => ?_⟩⟩
  rw [List.nil_append] at hs'
  rw [StateT.run_bind, run_next, hs', hnext]
  simp only [bind, Except.bind, hf, hlag, List.length_nil, Nat.zero_add]
  rfl

theorem decides_accept (t : Token) : Decides (accept t) s G := by
  refine decides_peek_bind ?_
  split
  · rename_i hhead
    obtain ⟨us, hs⟩ := List.head?_eq_some_iff.mp hhead
    exact decides_next_bind hs fun _ => decides_pure
  · exact decides_pure

theorem decides_expect {p : Punct} (h : ∀ next, G [] next (.expectedMark p)) :
    Decides (expect p) s G := by
  refine (decides_accept _).bind (yields_accept _) ?_
  rintro _ found s₁ rfl
  cases found with
  | true => exact decides_pure
  | false => exact decides_fail rfl h

theorem decides_number (h : ∀ next, G [] next .expectedNumber) : Decides number s G := by
  cases hs : s.tokens with
  | nil => exact decides_next_fail (by rw [hs]; rfl) rfl (h _)
  | cons t us =>
      cases t with
      | number n => exact decides_next_bind hs fun _ => decides_pure
      | word name => exact decides_next_fail (by rw [hs]; rfl) rfl (h _)
      | mark p => exact decides_next_fail (by rw [hs]; rfl) rfl (h _)

end Decisions

/-! ### Operands -/

/-- What has been taken **leads** somewhere if what the fault asks for comes next: some tokens
behind it make something of the given kind. If the fault is a constant, it is the next token. -/
def Leads (D : List Token → α → Prop) (ts : List Token) (next : Option Token) (fault : Fault) :
    Prop :=
  (∃ us a, D (ts ++ (fault.remedy ++ us)) a) ∧
    ∀ n, fault = .constantOutOfRange n → next = some (.number n)

theorem Leads.imp {D : List Token → α → Prop} {D' : List Token → β → Prop} {ts us : List Token}
    {next : Option Token} {fault : Fault} (h : Leads D ts next fault)
    (himp : ∀ vs a, D (ts ++ vs) a → ∃ ws b, D' (us ++ (vs ++ ws)) b) : Leads D' us next fault := by
  obtain ⟨⟨vs, a, ha⟩, hnext⟩ := h
  obtain ⟨ws, b, hb⟩ := himp _ a ha
  refine ⟨⟨vs ++ ws, b, ?_⟩, hnext⟩
  rwa [List.append_assoc] at hb

/-- Instead of an operand that is not there, a number could be. -/
theorem leads_operand {depth : Nat} {next : Option Token} {fault : Fault}
    (hremedy : fault.remedy = [.number 0])
    (hnext : ∀ n, fault = .constantOutOfRange n → next = some (.number n)) :
    Leads (DerivesExpr depth 11) [] next fault :=
  ⟨⟨[], .imm 0, by rw [hremedy]; exact .number (by decide)⟩, hnext⟩

section Operands

variable {depth : Nat} {applied enclosed : Parser Expr} {s : Cursor}

/-- **An operand is taken or gets stuck**, if it does behind a unary operator and behind a
parenthesis. -/
theorem decides_operandWith
    (hunary : ∀ op us, s.tokens = .mark (UnaryOp.punct op) :: us →
      Decides (operandWith applied enclosed) s (Leads (DerivesExpr depth 11)))
    (hparen : ∀ us, s.tokens = .mark .openParen :: us →
      Decides (operandWith applied enclosed) s (Leads (DerivesExpr depth 11))) :
    Decides (operandWith applied enclosed) s (Leads (DerivesExpr depth 11)) := by
  have hnone : ∀ {next}, Leads (DerivesExpr depth 11) [] next .expectedExpression :=
    leads_operand rfl (by simp)
  cases hs : s.tokens with
  | nil => exact decides_next_fail (by rw [hs]; rfl) rfl hnone
  | cons t us =>
      cases t with
      | number n =>
          by_cases hlt : n < Numeral.immediateBound
          · refine decides_next_bind hs fun _ => ?_
            simp only [hlt, if_true]
            exact decides_pure
          · refine decides_next_fail (?_ : _ = fail (.constantOutOfRange n)) rfl
              (leads_operand rfl ?_)
            · rw [hs]
              exact if_neg hlt
            · rintro m ⟨⟩
              rw [hs]
              rfl
      | word name => exact decides_next_bind hs fun _ => decides_pure
      | mark p =>
          cases hop : p.unary? with
          | some op =>
              rw [Punct.unary?_eq_some_iff.mp hop] at hs
              exact hunary op us hs
          | none =>
              by_cases hopen : p = .openParen
              · exact hparen us (hopen ▸ hs)
              · refine decides_next_fail (?_ : _ = fail .expectedExpression) rfl hnone
                rw [hs]
                simp only [List.head?_cons, hop, hopen, if_false]

end Operands

/-! ### Runs -/

section Runs

variable {depth : Nat} {p : Parser Expr} {ts us : List Token} {next : Option Token}

/-- A binary operator is the mark of its name. -/
theorem eq_mark_of_binary? {t : Token} {op : BinaryOp} (h : t.binary? = some op) :
    t = .mark op.punct := by
  cases t with
  | mark p => rw [Punct.binary?_eq_some_iff.mp h]
  | number | word => cases h

/-- An operator continues a run by what comes behind it. -/
theorem Runs.links_succ {op : BinaryOp} {bound : Nat}
    {r : Cursor → Except ListingError (List (BinaryOp × Expr) × Cursor)}
    (h : Runs (next? >>= fun _ => do return (op, ← p) :: (← links p bound))
      (.mark op.punct :: ts) next r) :
    Runs (links p (bound + 1)) (.mark op.punct :: ts) next r := by
  refine Runs.peek_bind ?_
  simp only [List.head?_cons, Option.some_or, Option.bind_some, Token.binary?,
    Punct.binary?_eq_some_iff.mpr rfl]
  exact h

/-- A run ends where no operator follows. -/
theorem takes_links_nil (h : next.bind Token.binary? = none) (bound : Nat) :
    Takes (links p bound) [] next [] := by
  cases bound with
  | zero => exact takes_pure [] next
  | succ bound =>
      refine Runs.peek_bind ?_
      simp only [List.head?_nil, Option.none_or, h]
      exact takes_pure [] next

/-- An operand and what continues the run behind it are taken together, if there is room for
them. -/
theorem takes_links_cons {op : BinaryOp} {e : Expr} {links : List (BinaryOp × Expr)}
    (h : Takes p ts (us.head?.or next) e)
    (hrest : ∀ bound, us.length ≤ bound → Takes (Listing.links p bound) us next links) {bound : Nat}
    (hbound : (.mark op.punct :: (ts ++ us) : List Token).length ≤ bound) :
    Takes (Listing.links p bound) (.mark op.punct :: (ts ++ us)) next ((op, e) :: links) := by
  rw [List.length_cons, List.length_append] at hbound
  cases bound with
  | zero => omega
  | succ bound =>
      exact Runs.links_succ ((takes_next _ _).bind
        (h.bind ((hrest bound (by omega)).map ((op, e) :: ·))))

/-- What continues a run gets stuck together with the operand before it, if there is room for
them. -/
theorem stuck_links_cons {op : BinaryOp} {e : Expr} {fault : Fault}
    (h : Takes p ts (us.head?.or next) e)
    (hrest : ∀ bound, us.length ≤ bound → Stuck (links p bound) us next fault) {bound : Nat}
    (hbound : (.mark op.punct :: (ts ++ us) : List Token).length ≤ bound) :
    Stuck (links p bound) (.mark op.punct :: (ts ++ us)) next fault := by
  rw [List.length_cons, List.length_append] at hbound
  cases bound with
  | zero => omega
  | succ bound =>
      exact Runs.links_succ ((takes_next _ _).bind_stuck
        (h.bind_stuck (hrest bound (by omega)).bind))

/-- An operand gets stuck in a run. -/
theorem stuck_links_operand {op : BinaryOp} {fault : Fault} (h : Stuck p ts next fault)
    {bound : Nat} (hbound : (.mark op.punct :: ts : List Token).length ≤ bound) :
    Stuck (links p bound) (.mark op.punct :: ts) next fault := by
  cases bound with
  | zero => cases hbound
  | succ bound => exact Runs.links_succ ((takes_next _ _).bind_stuck h.bind)

/-- **The operators and operands that continue a run** are taken or get stuck, in the same way for
every bound that leaves room for them. -/
theorem decides_links (hp : ∀ s, Decides p s (Leads (DerivesExpr depth 11)))
    (hyields : ∀ s, Yields p s (DerivesExpr depth 11)) {size : Nat} (s : Cursor)
    (hsize : s.tokens.length ≤ size) :
    ∃ ts rest, s.tokens = ts ++ rest ∧
      ((∃ links, ∀ bound, ts.length ≤ bound → Takes (Listing.links p bound) ts rest.head? links) ∨
        ∃ fault, Leads (DerivesLinks depth) ts rest.head? fault ∧
          ∀ bound, ts.length ≤ bound → Stuck (Listing.links p bound) ts rest.head? fault) := by
  -- The bound is left open, for the number of tokens that it is taken from is not settled by the
  -- ones that are read.
  induction size generalizing s with
  | zero =>
      have hnil : s.tokens = [] := List.length_eq_zero_iff.mp (Nat.le_zero.mp hsize)
      exact ⟨[], [], hnil, .inl ⟨[], fun bound _ => takes_links_nil rfl bound⟩⟩
  | succ size ih =>
      cases hop : s.tokens.head?.bind Token.binary? with
      | none => exact ⟨[], s.tokens, rfl, .inl ⟨[], fun bound _ => takes_links_nil hop bound⟩⟩
      | some op =>
          obtain ⟨t, ht, hbinary⟩ := Option.bind_eq_some_iff.mp hop
          obtain rfl := eq_mark_of_binary? hbinary
          obtain ⟨us, hs⟩ := List.head?_eq_some_iff.mp ht
          have hus : (s.skip 1).tokens = us := by rw [s.tokens_skip, hs]; rfl
          obtain ⟨ts, rest, hts, ⟨e, htakes⟩ | ⟨fault, hfault, hstuck⟩⟩ := hp (s.skip 1)
          · obtain rfl : us = ts ++ rest := hus.symm.trans hts
            have he := (hyields _).of_takes hus htakes
            have hrest := Cursor.tokens_skip_length hus
            obtain ⟨vs, rest', hvs, hlinks⟩ := ih ((s.skip 1).skip ts.length) (by
              rw [hs, List.length_cons, List.length_append] at hsize
              rw [hrest]
              omega)
            obtain rfl : rest = vs ++ rest' := hrest.symm.trans hvs
            rw [List.head?_append] at htakes
            refine ⟨.mark op.punct :: (ts ++ vs), rest', by rw [hs]; simp, hlinks.imp ?_ ?_⟩
            · rintro ⟨links, hlinks⟩
              exact ⟨(op, e) :: links, fun bound => takes_links_cons htakes hlinks⟩
            · rintro ⟨fault, hfault, hstuck⟩
              refine ⟨fault, hfault.imp fun ws links hlinks => ⟨[], (op, e) :: links, ?_⟩,
                fun bound => stuck_links_cons htakes hstuck⟩
              simpa using DerivesLinks.cons op he hlinks
          · obtain rfl : us = ts ++ rest := hus.symm.trans hts
            refine ⟨.mark op.punct :: ts, rest, hs, .inr ⟨fault, hfault.imp fun ws e he =>
              ⟨[], [(op, e)], ?_⟩, fun bound => stuck_links_operand hstuck⟩⟩
            simpa using DerivesLinks.cons op he .nil

/-- A parser that looks at the cursor first. -/
theorem Runs.get_bind {f : Cursor → Parser β} {r : Cursor → Except ListingError (β × Cursor)}
    (h : ∀ s : Cursor, ts.length ≤ s.rest.length → Runs (f s) ts next r) :
    Runs (get >>= f) ts next r := by
  intro s rest hs hnext
  refine h s ?_ s rest hs hnext
  rw [s.length_rest, hs, List.length_append]
  exact Nat.le_add_right ..

/-- **A run of operands** is taken or gets stuck, if operands are. -/
theorem decides_chain (hp : ∀ s, Decides p s (Leads (DerivesExpr depth 11)))
    (hyields : ∀ s, Yields p s (DerivesExpr depth 11)) (s : Cursor) :
    Decides (chain p) s (Leads (DerivesExpr depth 1)) := by
  have hfirst : Decides p s (Leads (DerivesExpr depth 1)) := (hp s).imp fun ts next fault h =>
    h.imp fun us e he => ⟨[], e, by simpa using he.loosen (by decide) (Nat.le_refl 11)⟩
  refine hfirst.bind (hyields s) fun ts first s₁ hfirst => ?_
  obtain ⟨us, rest, hs, hlinks⟩ := decides_links hp hyields s₁ (Nat.le_refl _)
  refine ⟨us, rest, hs, hlinks.imp ?_ ?_⟩
  · rintro ⟨links, htakes⟩
    exact ⟨assemble [] first links, Runs.get_bind fun s hroom => (htakes _ hroom).map _⟩
  · rintro ⟨fault, hfault, hstuck⟩
    refine ⟨fault, hfault.imp fun vs links hlinks => ⟨[], assemble [] first links, ?_⟩,
      Runs.get_bind fun s hroom => (hstuck _ hroom).bind⟩
    simpa using derives_assemble .nil hfirst hlinks

/-- **An operand is taken or gets stuck.** -/
theorem decides_operand (depth : Nat) (s : Cursor) :
    Decides (operand depth) s (Leads (DerivesExpr depth 11)) := by
  induction depth generalizing s with
  | zero =>
      -- Nothing may nest, and this is found out behind the token that would.
      refine decides_operandWith (fun op us hs => ?_) fun us hs => ?_
      · refine decides_next_fail (?_ : _ = fail .nestedTooDeep) rfl (leads_operand rfl (by simp))
        rw [hs]
        simp only [List.head?_cons, Punct.unary?_eq_some_iff.mpr rfl]
        rfl
      · refine decides_next_fail (?_ : _ = fail .nestedTooDeep) rfl (leads_operand rfl (by simp))
        rw [hs]
        rfl
  | succ depth ih =>
      refine decides_operandWith (fun op us hs => ?_) fun us hs => ?_
      · refine decides_next_bind hs fun s₁ => ?_
        simp only [Punct.unary?_eq_some_iff.mpr rfl]
        refine ((ih s₁).imp fun ts next fault h => ?_).bind (yields_operand depth s₁) fun _ _ _ _ =>
          decides_pure
        exact h.imp fun us e he => ⟨[], .unary op e, by simpa using DerivesExpr.unary op he⟩
      · refine decides_next_bind hs fun s₁ => ?_
        have hchain := decides_chain ih (yields_operand depth) s₁
        refine (hchain.imp fun ts next fault h => ?_).bind (yields_chain (yields_operand depth) s₁)
          fun ts e s₂ he => (decides_expect fun next => ?_).bind (yields_expect _) fun _ _ _ _ =>
            decides_pure
        · exact h.imp fun us e he => ⟨[.mark .closeParen], e, by simpa using DerivesExpr.paren he⟩
        · exact ⟨⟨[], e, by simpa [Fault.remedy] using DerivesExpr.paren he⟩, by simp⟩

/-- **An expression is taken or gets stuck.** -/
theorem decides_expression (s : Cursor) :
    Decides expression s (Leads (DerivesExpr maxNesting 1)) :=
  decides_chain (decides_operand maxNesting) (yields_operand maxNesting) s

end Runs

/-! ### Statements -/

/-- The statements that tokens make together with the semicolon. -/
def DerivesStatement (ts : List Token) (s : Statement) : Prop :=
  ∃ body, ts = body ++ [.mark .semicolon] ∧ DerivesBody body s

/-- A statement is taken or gets stuck up to its semicolon. -/
theorem decides_statementBody (s : Cursor) : Decides statementBody s (Leads DerivesBody) := by
  have hzero : DerivesExpr maxNesting 1 [.number 0] (.imm 0) :=
    (DerivesExpr.number (by decide)).loosen (by decide) (Nat.le_refl 11)
  refine decides_peek_bind ?_
  split
  · rename_i first hfirst
    obtain ⟨us, hs⟩ := List.head?_eq_some_iff.mp hfirst
    refine decides_next_bind hs fun s₁ => ?_
    split
    · refine (decides_number fun next => ?_).bind yields_number fun _ _ _ _ => decides_pure
      exact ⟨⟨[], .goto 0, .goto 0⟩, by simp⟩
    · refine (decides_expect fun next => ?_).bind (yields_expect _) ?_
      · exact ⟨⟨[.number 0, .mark .closeParen, .word "goto", .number 0], _, .branch 0 hzero⟩,
          by simp⟩
      rintro _ _ s₂ rfl
      refine ((decides_expression s₂).imp fun ts next fault h => ?_).bind (yields_expression s₂)
        fun ts condition s₃ hcondition => ?_
      · exact h.imp fun us e he => ⟨[.mark .closeParen, .word "goto", .number 0], .branch e 0,
          by simpa using DerivesBody.branch 0 he⟩
      have hbranch := DerivesBody.branch 0 hcondition
      refine (decides_expect fun next => ?_).bind (yields_expect _) ?_
      · exact ⟨⟨[.word "goto", .number 0], _, by simpa [Fault.remedy] using hbranch⟩, by simp⟩
      rintro _ _ s₄ rfl
      refine (decides_accept _).bind (yields_accept _) ?_
      rintro _ found s₅ rfl
      cases found with
      | false =>
          refine decides_fail rfl fun next => ?_
          exact ⟨⟨[.number 0], _, by simpa [Fault.remedy] using hbranch⟩, by simp⟩
      | true =>
          refine (decides_number fun next => ?_).bind yields_number fun _ _ _ _ => decides_pure
          exact ⟨⟨[], _, by simpa [Fault.remedy] using hbranch⟩, by simp⟩
    · refine decides_peek_bind ?_
      split
      · exact decides_pure
      · refine ((decides_expression s₁).imp fun ts next fault h => ?_).bind (yields_expression s₁)
          fun _ _ _ _ => decides_pure
        exact h.imp fun us e he => ⟨[], .ret (some e), by simpa using DerivesBody.retValue he⟩
    · rename_i hgoto hif hreturn
      have htarget : first ∉ keywords := by
        simp only [keywords, List.mem_cons, List.not_mem_nil, or_false, not_or]
        exact ⟨hgoto, hif, hreturn⟩
      refine (decides_expect fun next => ?_).bind (yields_expect _) ?_
      · exact ⟨⟨[.number 0], _, .assign htarget hzero⟩, by simp⟩
      rintro _ _ s₂ rfl
      refine ((decides_expression s₂).imp fun ts next fault h => ?_).bind (yields_expression s₂)
        fun _ _ _ _ => decides_pure
      exact h.imp fun us e he => ⟨[], .assign first e, by simpa using DerivesBody.assign htarget he⟩
  · exact decides_fail rfl fun next => ⟨⟨[], .ret none, .ret⟩, by simp⟩

/-- **A statement is taken or gets stuck.** -/
theorem decides_statement (s : Cursor) : Decides statement s (Leads DerivesStatement) := by
  refine ((decides_statementBody s).imp fun ts next fault h => ?_).bind (yields_statementBody s)
    fun body statement s₁ hbody => ?_
  · exact h.imp fun us st hst => ⟨[.mark .semicolon], st, ts ++ us, by simp, hst⟩
  · refine (decides_expect fun next => ?_).bind (yields_expect _) fun _ _ _ _ => decides_pure
    exact ⟨⟨[], statement, body, by simp [Fault.remedy], hbody⟩, by simp⟩

end Listing

end FlowForm
