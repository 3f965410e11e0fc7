import Mathlib
import FlowForm.Proofs.Listing.Acceptance
import FlowForm.Proofs.Listing.Stopping

/-!
# The Lines of Errors

A text with tokens that is no listing is rejected with an error that has a line. Which token the
error is about is a matter of the grammar alone. Tokens **begin** a listing if some others complete
it (`Begins`). A token **offends** with a fault if the tokens before it begin a listing together
with what the fault asks for, and no longer do so together with the token (`Offends`). A label is
**repeated** where it stands for the second time (`Repeats`). There is at most one such token.

The line of the error is not always that of this token. The parser has read it, and for a repeated
label the colon as well, when it reports one of some faults (`Fault.lag`), and it reports the line
on which it goes on: that of the next token, unless there is none. So the line is right where a
mark, the word `goto` or a statement is expected, and otherwise only if the next token is on the
same line.

## Main results

* `Stuck.offends`: what a statement gets stuck at offends.
* `Offends.unique` and `Repeats.unique`: an error is about one token.
* `fails_lines`: the rows of a listing fail with a repeated label or a stuck statement.
* `parse_error_lines`: the line of every error.
-/

namespace FlowForm.Listing

variable {ts us vs : List Token} {rows : List Row} {labels : List Nat} {fault : Fault}

/-! ### Listings that have begun -/

/-- Tokens **begin** a listing if some tokens behind them complete it. -/
def Begins (ts : List Token) : Prop :=
  ∃ us rows, DerivesRows (ts ++ us) rows

/-- What begins a listing is begun by its first tokens. -/
theorem Begins.of_append (h : Begins (ts ++ us)) : Begins ts := by
  obtain ⟨vs, rows, hrows⟩ := h
  exact ⟨us ++ vs, rows, by rwa [← List.append_assoc]⟩

/-- Rows can be followed by rows. -/
theorem DerivesRows.append {rows' : List Row} (h : DerivesRows ts rows)
    (h' : DerivesRows us rows') : DerivesRows (ts ++ us) (rows ++ rows') := by
  induction h with
  | nil => exact h'
  | cons labels hbody _ ih =>
      rw [List.append_assoc, List.append_assoc]
      exact .cons labels hbody ih

/-- What starts with a number starts with a label. -/
theorem DerivesRows.of_number {n : Nat} (h : DerivesRows (.number n :: ts) rows) :
    ∃ us rows', ts = .mark .colon :: us ∧ DerivesRows us rows' := by
  generalize hvs : Token.number n :: ts = vs at h
  cases h with
  | nil => cases hvs
  | @cons body us statement rows labels hbody hrest =>
      obtain ⟨name, xs, rfl⟩ := hbody.exists_word_cons
      cases labels with
      | nil => cases hvs
      | cons label labels =>
          rw [labelTokens_cons, List.cons_append, List.cons_append] at hvs
          obtain ⟨-, rfl⟩ := List.cons.inj hvs
          exact ⟨_, _, rfl, .cons labels hbody hrest⟩

/-- **What stands behind rows and labels** begins a listing if all of it does. -/
theorem Begins.behind (hrows : DerivesRows us rows)
    (h : Begins (us ++ (labelTokens labels ++ ts))) : Begins ts := by
  obtain ⟨vs, rows', h⟩ := h
  rw [List.append_assoc] at h
  obtain ⟨rest, -, hrest⟩ := hrows.exists_append h
  clear h
  induction labels generalizing rest with
  | nil => exact ⟨vs, rest, hrest⟩
  | cons label labels ih =>
      obtain ⟨_, rest', ⟨⟩, hrest⟩ := DerivesRows.of_number hrest
      exact ih rest' hrest

/-- A statement that gets stuck behind a token has started with a word. -/
theorem Leads.exists_word {t : Token} {next : Option Token}
    (h : Leads DerivesStatement (t :: ts) next fault) : ∃ name, t = .word name := by
  obtain ⟨⟨us, statement, body, heq, hbody⟩, -⟩ := h
  obtain ⟨name, xs, rfl⟩ := hbody.exists_word_cons
  exact ⟨name, (List.cons.inj heq).1⟩

/-- **What a statement gets stuck at** does not belong there, unless it is a number, which could be
a label. -/
theorem Stuck.not_begins {t : Token} (h : Stuck statement ts (some t) fault)
    (hleads : Leads DerivesStatement ts (some t) fault)
    (hnumber : ts = [] → ∀ n, t ≠ .number n) : ¬ Begins (ts ++ [t]) := by
  rintro ⟨us, rows, hrows⟩
  generalize hvs : ts ++ [t] ++ us = vs at hrows
  rw [List.append_assoc, List.singleton_append] at hvs
  cases hrows with
  | nil => simp at hvs
  | @cons body rest statement rows labels hbody hrest =>
      cases labels with
      | nil =>
          -- The parser gets stuck at tokens that it reads as a statement.
          have hcursor : (⟨(body ++ .mark .semicolon :: rest).map (⟨·, 1⟩), 1⟩ : Cursor).tokens =
              body ++ .mark .semicolon :: rest := (List.map_map ..).trans (List.map_id _)
          obtain ⟨s, hrun, -⟩ := reads_statement hbody rest _ hcursor
          have hstuck := h _ (t :: us) (hcursor.trans hvs.symm) rfl
          rw [hrun] at hstuck
          cases hstuck
      | cons label labels =>
          cases ts with
          | nil => exact hnumber rfl label (List.cons.inj hvs).1
          | cons u ts =>
              obtain ⟨name, rfl⟩ := hleads.exists_word
              cases (List.cons.inj hvs).1

/-- A statement that gets stuck at a number misses its start. -/
theorem Stuck.eq_expectedStatement {n : Nat} (h : Stuck statement [] (some (.number n)) fault) :
    fault = .expectedStatement := by
  have hrun := h ⟨[⟨.number n, 1⟩], 1⟩ [.number n] rfl rfl
  injection hrun with herror
  injection herror with _ hfault
  exact hfault.symm

/-! ### Numbers in front of words -/

/-- Neighbours that are no number with a word behind it. -/
def Apart (t u : Token) : Prop :=
  ∀ n name, t = .number n → u ≠ .word name

/-- A mark keeps what is before it and what is behind it apart. -/
theorem isChain_append_mark (p : Punct) (h : ts.IsChain Apart) (h' : us.IsChain Apart) :
    (ts ++ .mark p :: us).IsChain Apart := by
  refine List.isChain_append.mpr ⟨h, List.isChain_cons.mpr ⟨?_, h'⟩, ?_⟩
  · rintro _ _ n name ⟨⟩
  · rintro _ _ _ ⟨⟩ n name _ ⟨⟩

/-- In an expression no number has a word behind it. -/
theorem DerivesExpr.isChain_apart {depth level : Nat} {e : Expr}
    (h : DerivesExpr depth level ts e) : ts.IsChain Apart := by
  induction h with
  | number _ => exact List.isChain_singleton _
  | word _ => exact List.isChain_singleton _
  | unary op _ ih => exact isChain_append_mark op.punct .nil ih
  | paren _ ih => exact isChain_append_mark .openParen .nil (isChain_append_mark _ ih .nil)
  | binary op _ _ _ ihl ihr => exact isChain_append_mark op.punct ihl ihr
  | tighter _ _ ih => exact ih

/-- In a statement no number has a word behind it. -/
theorem DerivesBody.isChain_apart {s : Statement} (h : DerivesBody ts s) : ts.IsChain Apart := by
  have hgoto : ∀ label, [Token.word "goto", .number label].IsChain Apart := fun label =>
    List.isChain_cons_cons.mpr ⟨by rintro n name ⟨⟩, List.isChain_singleton _⟩
  have hword : ∀ {name us}, List.IsChain Apart us → List.IsChain Apart (.word name :: us) :=
    fun h => List.isChain_cons.mpr ⟨by rintro _ _ n name ⟨⟩, h⟩
  cases h with
  | assign _ h => exact hword (isChain_append_mark .assign .nil h.isChain_apart)
  | goto label => exact hgoto label
  | branch label h =>
      exact hword (isChain_append_mark .openParen .nil
        (isChain_append_mark .closeParen h.isChain_apart (hgoto label)))
  | ret => exact List.isChain_singleton _
  | retValue h => exact hword h.isChain_apart

/-- **In a listing no number has a word behind it.** -/
theorem DerivesRows.isChain_apart (h : DerivesRows ts rows) : ts.IsChain Apart := by
  induction h with
  | nil => exact .nil
  | @cons body us statement rows labels hbody _ ih =>
      have hrow := isChain_append_mark .semicolon hbody.isChain_apart ih
      induction labels with
      | nil => exact hrow
      | cons label labels ihlabels =>
          exact isChain_append_mark .colon (List.isChain_singleton (Token.number label)) ihlabels

/-! ### Offending tokens -/

/-- A token **offends** with a fault if what the fault asks for could stand in its place, where it
does not belong itself. Where a statement should start, a number could be a label, and if it is none
it is the token behind it that does not belong there. An offending constant is the one that the
fault names. -/
structure Offends (ts : List Token) (fault : Fault) (k : Nat) : Prop where
  le_length : k ≤ ts.length
  expected : Begins (ts.take k ++ fault.remedy)
  unexpected : k < ts.length → ¬ Begins (ts.take (k + 1)) ∨
    fault = .expectedStatement ∧ (∃ n, ts[k]? = some (.number n)) ∧
      (k + 1 < ts.length → ¬ Begins (ts.take (k + 2)))
  constant : ∀ n, fault = .constantOutOfRange n → ts[k]? = some (.number n)

/-- Fewer tokens begin a listing as well. -/
theorem Begins.take {j k : Nat} (h : Begins (ts.take k)) (hle : j ≤ k) : Begins (ts.take j) := by
  have hsplit := List.take_append_drop j (ts.take k)
  rw [List.take_take, Nat.min_eq_left hle] at hsplit
  rw [← hsplit] at h
  exact h.of_append

/-- **No token offends** behind one that does. -/
theorem Offends.not_lt {j k : Nat} (hj : Offends ts fault j) (hk : Offends ts fault k) :
    ¬ j < k := by
  intro hlt
  have hbegins : Begins (ts.take k) := hk.expected.of_append
  have hle := hk.le_length
  rcases hj.unexpected (by omega) with hnot | ⟨rfl, ⟨n, hn⟩, hnot⟩
  · exact hnot (hbegins.take hlt)
  · obtain rfl : k = j + 1 := by
      by_contra hne
      exact hnot (by omega) (hbegins.take (by omega))
    -- A statement could start behind a number.
    obtain ⟨us, rows, hrows⟩ := hk.expected
    rw [List.take_add_one, hn, Fault.remedy, Option.toList_some, List.append_assoc,
      List.append_assoc, List.singleton_append, List.singleton_append] at hrows
    exact (List.isChain_append_cons_cons.mp hrows.isChain_apart).2.1 n "return" rfl rfl

/-- At most one token offends. -/
theorem Offends.unique {j k : Nat} (hj : Offends ts fault j) (hk : Offends ts fault k) : j = k :=
  Nat.le_antisymm (Nat.not_lt.mp (hk.not_lt hj)) (Nat.not_lt.mp (hj.not_lt hk))

/-- The token at the place where tokens are cut off. -/
theorem getElem?_length_append (ts us : List Token) : (ts ++ us)[ts.length]? = us.head? := by
  rw [List.getElem?_append_right (Nat.le_refl _), Nat.sub_self, List.head?_eq_getElem?]

/-- **What a statement gets stuck at offends**, wherever the statement stands. -/
theorem Stuck.offends (h : Stuck statement ts vs.head? fault)
    (hleads : Leads DerivesStatement ts vs.head? fault) (hrows : DerivesRows us rows)
    (hlabel : ts = [] → ∀ n rest, vs ≠ .number n :: .mark .colon :: rest) :
    Offends (us ++ (labelTokens labels ++ ts) ++ vs) fault
      (us ++ (labelTokens labels ++ ts)).length := by
  refine ⟨by simp, ?_, fun hlt => ?_, fun n hn => ?_⟩
  · obtain ⟨⟨ws, statement, body, heq, hbody⟩, -⟩ := hleads
    refine ⟨ws, rows ++ [⟨labels, statement⟩], ?_⟩
    rw [List.take_left]
    have htokens : us ++ (labelTokens labels ++ ts) ++ fault.remedy ++ ws =
        us ++ (labelTokens labels ++ (body ++ [.mark .semicolon])) := by
      rw [← heq]
      simp only [List.append_assoc]
    rw [htokens]
    exact hrows.append (.cons labels hbody .nil)
  · cases vs with
    | nil => simp at hlt
    | cons t vs =>
        rw [List.take_length_add_append, List.take_length_add_append]
        by_cases hnumber : ts = [] ∧ ∃ n, t = .number n
        · obtain ⟨rfl, n, rfl⟩ := hnumber
          refine .inr ⟨h.eq_expectedStatement, ⟨n, getElem?_length_append ..⟩, ?_⟩
          intro hlt hbegins
          cases vs with
          | nil =>
              simp only [List.length_append, List.length_singleton] at hlt
              omega
          | cons u vs =>
              rw [List.append_assoc, List.append_assoc] at hbegins
              obtain ⟨ws, rows', hws⟩ := hbegins.behind hrows
              obtain ⟨_, _, hcolon, -⟩ := DerivesRows.of_number hws
              obtain ⟨rfl, -⟩ := List.cons.inj hcolon
              exact hlabel rfl n vs rfl
        · refine .inl fun hbegins => h.not_begins hleads (fun hts n hn => hnumber ⟨hts, n, hn⟩) ?_
          rw [List.append_assoc, List.append_assoc] at hbegins
          exact hbegins.behind hrows
  · rw [getElem?_length_append]
    exact hleads.2 n hn

/-! ### Repeated labels -/

/-- The numbers with a colon behind them, in order. -/
def labelled : List Token → List Nat
  | .number n :: .mark .colon :: ts => n :: labelled ts
  | _ :: ts => labelled ts
  | [] => []

/-- A label is **repeated** at a place if it has been there before, and none is repeated before
it. -/
structure Repeats (ts : List Token) (label k : Nat) : Prop where
  number_at : ts[k]? = some (.number label)
  colon_at : ts[k + 1]? = some (.mark .colon)
  mem_before : label ∈ labelled (ts.take k)
  nodup_before : (labelled (ts.take k)).Nodup

/-- A token with no colon behind it is no label. -/
theorem labelled_cons {t : Token} (h : ts.head? ≠ some (.mark .colon)) :
    labelled (t :: ts) = labelled ts := by
  rw [labelled]
  rintro n us - rfl
  exact h rfl

/-- Labels, and what stands behind them. -/
theorem labelled_labelTokens (labels : List Nat) (ts : List Token) :
    labelled (labelTokens labels ++ ts) = labels ++ labelled ts := by
  induction labels with
  | nil => rfl
  | cons label labels ih =>
      rw [labelTokens_cons, List.cons_append, List.cons_append, labelled, ih, List.cons_append]

/-- Labels are those of the first tokens and those of the rest, if no label is cut in two. -/
theorem labelled_append (ts : List Token) (h : us.head? ≠ some (.mark .colon)) :
    labelled (ts ++ us) = labelled ts ++ labelled us := by
  fun_induction labelled ts with
  | case1 n ts ih => rw [List.cons_append, List.cons_append, labelled, ih, List.cons_append]
  | case2 t ts hnot ih =>
      rw [List.cons_append, labelled, ih]
      rintro n vs ht hts
      cases ts with
      | nil => exact h (congrArg List.head? hts)
      | cons u ts =>
          obtain ⟨rfl, -⟩ := List.cons.inj hts
          exact hnot n ts ht rfl
  | case3 => rfl

/-- No colon stands in an expression. -/
theorem DerivesExpr.colon_notMem {depth level : Nat} {e : Expr} (h : DerivesExpr depth level ts e) :
    .mark .colon ∉ ts := by
  induction h with
  | number _ => simp
  | word _ => simp
  | unary op _ ih => cases op <;> simpa [UnaryOp.punct] using ih
  | paren _ ih => simpa using ih
  | binary op _ _ _ ihl ihr => cases op <;> simpa [BinaryOp.punct] using ⟨ihl, ihr⟩
  | tighter _ _ ih => exact ih

/-- No colon stands in a statement. -/
theorem DerivesBody.colon_notMem {s : Statement} (h : DerivesBody ts s) : .mark .colon ∉ ts := by
  cases h with
  | assign _ h => simpa using h.colon_notMem
  | goto label => simp
  | branch label h => simpa using h.colon_notMem
  | ret => simp
  | retValue h => simpa using h.colon_notMem

/-- Tokens without a colon hold no label. -/
theorem labelled_eq_nil (h : .mark .colon ∉ ts) : labelled ts = [] := by
  induction ts with
  | nil => rfl
  | cons t ts ih =>
      rw [List.mem_cons, not_or] at h
      rw [labelled_cons fun hhead => h.2 (List.mem_of_mem_head? hhead), ih h.2]

/-- **The labels of a listing** are the numbers with a colon behind them. -/
theorem DerivesRows.labelled_eq (h : DerivesRows ts rows) (us : List Token) :
    labelled (ts ++ us) = labelsOf rows ++ labelled us := by
  induction h with
  | nil => rfl
  | @cons body vs statement rows labels hbody _ ih =>
      have hsemicolon : labelled (.mark .semicolon :: (vs ++ us)) = labelled (vs ++ us) := rfl
      rw [List.append_assoc, List.append_assoc, labelled_labelTokens, List.cons_append,
        labelled_append body (by simp), labelled_eq_nil hbody.colon_notMem, List.nil_append,
        hsemicolon, ih, labelsOf, labelsOf, List.flatMap_cons, List.append_assoc]

/-- **No label is repeated** behind one that is. -/
theorem Repeats.not_lt {label j k : Nat} (hj : Repeats ts label j) (hk : Repeats ts label k) :
    ¬ j < k := by
  intro hlt
  have hne : k ≠ j + 1 := by
    rintro rfl
    cases hj.colon_at.symm.trans hk.number_at
  have hnodup := hk.nodup_before
  rw [← List.take_append_drop (j + 2) (ts.take k), List.take_take, Nat.min_eq_left (by omega),
    List.take_add_one, List.take_add_one, hj.number_at, hj.colon_at, List.append_assoc,
    List.append_assoc, Option.toList_some, Option.toList_some, List.singleton_append,
    List.singleton_append, labelled_append _ (by simp), labelled] at hnodup
  exact (List.nodup_append.mp hnodup).2.2 label hj.mem_before label (List.mem_cons_self ..) rfl

/-- A label is repeated at one place, at most. -/
theorem Repeats.unique {label j k : Nat} (hj : Repeats ts label j) (hk : Repeats ts label k) :
    j = k :=
  Nat.le_antisymm (Nat.not_lt.mp (hk.not_lt hj)) (Nat.not_lt.mp (hj.not_lt hk))

/-- **A label that is read again is repeated**, wherever it stands. -/
theorem repeats_of_derives {label : Nat} (hrows : DerivesRows us rows)
    (hnodup : (labelsOf rows ++ labels).Nodup) (hmem : label ∈ labelsOf rows ++ labels) :
    Repeats (us ++ labelTokens labels ++ .number label :: .mark .colon :: vs) label
      (us ++ labelTokens labels).length := by
  have hlabelled : labelled (us ++ labelTokens labels) = labelsOf rows ++ labels := by
    have hlabels := labelled_labelTokens labels []
    rw [List.append_nil] at hlabels
    rw [hrows.labelled_eq, hlabels, labelled, List.append_nil]
  refine ⟨getElem?_length_append .., ?_, ?_, ?_⟩
  · rw [List.getElem?_append_right (Nat.le_add_right ..), Nat.add_sub_cancel_left]
    rfl
  · rwa [List.take_left, hlabelled]
  · rwa [List.take_left, hlabelled]

/-! ### Labels -/

/-- A number with a colon behind it is read as a label. -/
theorem run_label_some {s : Cursor} {label : Nat}
    (hs : s.tokens = .number label :: .mark .colon :: ts) :
    label?.run s = .ok (some label, s.skip 2) := by
  obtain ⟨rest, passed⟩ := s
  rcases rest with _ | ⟨⟨token, line⟩, _ | ⟨⟨token', line'⟩, rest⟩⟩
  · cases hs
  · cases hs
  · obtain ⟨rfl, hrest⟩ := List.cons.inj hs
    obtain ⟨rfl, -⟩ := List.cons.inj hrest
    rfl

/-- Anything else is not, and stays unread. -/
theorem run_label_none {s : Cursor}
    (hs : ∀ label ts, s.tokens ≠ .number label :: .mark .colon :: ts) :
    label?.run s = .ok (none, s) := by
  obtain ⟨rest, passed⟩ := s
  simp only [label?, modifyGet, MonadStateOf.modifyGet, StateT.modifyGet, StateT.run]
  split
  · exact absurd rfl (hs _ _)
  · rfl

section Labels

variable {address bound : Nat} {table : Labels} {s : Cursor}

/-- Where there is no label, none is added. -/
theorem run_labels_none (hs : ∀ label ts, s.tokens ≠ .number label :: .mark .colon :: ts) :
    (Listing.labels address bound table).run s = .ok (table, s) := by
  cases bound with
  | zero => rfl
  | succ bound =>
      rw [Listing.labels, StateT.run_bind, run_label_none hs]
      rfl

/-- A label is added unless it has been there before. -/
theorem run_labels_some {label : Nat} (hs : s.tokens = .number label :: .mark .colon :: ts) :
    (Listing.labels address (bound + 1) table).run s =
      if label ∈ table.keys then .error (.duplicateLabel (s.skip 2).line label)
      else (Listing.labels address bound ((label, address) :: table)).run (s.skip 2) := by
  rw [Listing.labels, StateT.run_bind, run_label_some hs]
  by_cases hmem : label ∈ table.keys
  · rw [if_pos hmem]
    simp only [bind, Except.bind, isSome_lookup_iff.mpr hmem, if_true]
    rfl
  · rw [if_neg hmem]
    simp only [bind, Except.bind, mt isSome_lookup_iff.mp hmem]
    rfl

/-- **Labels are read** up to the first one that has been there before, or to the last one. -/
theorem labels_cases (address : Nat) (hnodup : table.keys.Nodup)
    (hbound : s.tokens.length ≤ bound) :
    ∃ labels rest, s.tokens = labelTokens labels ++ rest ∧
      (addLabels address labels table).keys.Nodup ∧
      ((∀ label ts, rest ≠ .number label :: .mark .colon :: ts) ∧
          (Listing.labels address bound table).run s =
            .ok (addLabels address labels table, s.skip (labelTokens labels).length) ∨
        ∃ label ts, rest = .number label :: .mark .colon :: ts ∧
          label ∈ (addLabels address labels table).keys ∧
          (Listing.labels address bound table).run s =
            .error (.duplicateLabel (s.skip ((labelTokens labels).length + 2)).line label)) := by
  -- Nothing is added where there is no label.
  have hnone : ∀ {bound : Nat} {table : Labels} {s : Cursor},
      (∀ label ts, s.tokens ≠ .number label :: .mark .colon :: ts) →
      (Listing.labels address bound table).run s =
        .ok (addLabels address [] table, s.skip (labelTokens []).length) := fun {_ _ s} hs => by
    rw [run_labels_none hs, labelTokens, List.flatMap_nil, List.length_nil, s.skip_zero]
    rfl
  induction bound generalizing table s with
  | zero =>
      have hnil : s.tokens = [] := List.length_eq_zero_iff.mp (Nat.le_zero.mp hbound)
      exact ⟨[], [], hnil, hnodup, .inl ⟨by simp, hnone (by simp [hnil])⟩⟩
  | succ bound ih =>
      by_cases hlabel : ∃ label ts, s.tokens = .number label :: .mark .colon :: ts
      · obtain ⟨label, ts, hs⟩ := hlabel
        rw [run_labels_some hs]
        split
        · rename_i hmem
          exact ⟨[], s.tokens, rfl, hnodup, .inr ⟨label, ts, hs, hmem, rfl⟩⟩
        · rename_i hfresh
          have hskip : (s.skip 2).tokens = ts := by
            rw [s.tokens_skip, hs]
            rfl
          have hkeys : Labels.keys ((label, address) :: table) |>.Nodup :=
            List.nodup_cons.mpr ⟨hfresh, hnodup⟩
          have hroom : (s.skip 2).tokens.length ≤ bound := by
            rw [hs, List.length_cons, List.length_cons] at hbound
            rw [hskip]
            omega
          obtain ⟨labels, rest, hts, hkeys, hcases⟩ := ih hkeys hroom
          refine ⟨label :: labels, rest, by rw [hs, ← hskip, hts]; rfl, hkeys, ?_⟩
          simp only [Cursor.skip_skip, Nat.add_comm 2] at hcases
          exact hcases
      · simp only [not_exists] at hlabel
        exact ⟨[], s.tokens, rfl, hnodup, .inl ⟨hlabel, hnone hlabel⟩⟩

end Labels

/-! ### Rows -/

/-- Two steps fail if the first one does, or the second one with its value. -/
theorem bind_eq_error_iff {ε α β : Type} {x : Except ε α} {f : α → Except ε β} {e : ε} :
    x >>= f = .error e ↔ x = .error e ∨ ∃ a, x = .ok a ∧ f a = .error e := by
  cases x with
  | error e => simp [bind, Except.bind]
  | ok a => simp [bind, Except.bind]

/-- **How rows fail**, if some labels are known: behind some rows and labels there is a label that
is known or has been there before, or a statement gets stuck. -/
inductive Fails (s : Cursor) (known : List Nat) : ListingError → Prop
  | repeated {us vs : List Token} {rows : List Row} {labels : List Nat} {label : Nat}
    (hs : s.tokens = us ++ labelTokens labels ++ .number label :: .mark .colon :: vs)
    (hrows : DerivesRows us rows) (hnodup : (known ++ (labelsOf rows ++ labels)).Nodup)
    (hmem : label ∈ known ++ (labelsOf rows ++ labels)) :
    Fails s known (.duplicateLabel (s.skip ((us ++ labelTokens labels).length + 2)).line label)
  | stuck {us ts vs : List Token} {rows : List Row} {labels : List Nat} {fault : Fault}
    (hs : s.tokens = us ++ (labelTokens labels ++ ts) ++ vs) (hrows : DerivesRows us rows)
    (hlabel : ts = [] → ∀ n rest, vs ≠ .number n :: .mark .colon :: rest)
    (hleads : Leads DerivesStatement ts vs.head? fault)
    (hstuck : Stuck statement ts vs.head? fault) :
    Fails s known
      (.malformed (s.skip ((us ++ (labelTokens labels ++ ts)).length + fault.lag)).line fault)

/-- Rows fail behind a row as they fail without it, if its labels are known. -/
theorem Fails.cons {s : Cursor} {known : List Nat} {first body : List Token}
    {statement : Statement} {e : ListingError} (hbody : DerivesBody body statement)
    (hfirst : first = labelTokens labels ++ (body ++ [.mark .semicolon]))
    (hs : s.tokens = first ++ ts) (h : Fails (s.skip first.length) (known ++ labels) e) :
    Fails s known e := by
  have hrow : ∀ {us rows}, DerivesRows us rows →
      DerivesRows (first ++ us) (⟨labels, statement⟩ :: rows) := fun {us _} h => by
    rw [hfirst, List.append_assoc, List.append_assoc]
    exact .cons labels hbody h
  have hrest := Cursor.tokens_skip_length hs
  cases h with
  | @repeated us vs rows labels' label hs' hrows hnodup hmem =>
      rw [hrest] at hs'
      have htokens : s.tokens =
          first ++ us ++ labelTokens labels' ++ .number label :: .mark .colon :: vs := by
        rw [hs, hs']
        simp only [List.append_assoc]
      have hfails : Fails s known (.duplicateLabel
          (s.skip ((first ++ us ++ labelTokens labels').length + 2)).line label) := by
        refine .repeated htokens (hrow hrows) ?_ ?_
        · simpa [labelsOf] using hnodup
        · simpa [labelsOf] using hmem
      simpa only [Cursor.skip_skip, List.length_append, Nat.add_assoc] using hfails
  | @stuck us ts' vs rows labels' fault hs' hrows hlabel hleads hstuck =>
      rw [hrest] at hs'
      have hfails : Fails s known (.malformed
          (s.skip ((first ++ us ++ (labelTokens labels' ++ ts')).length + fault.lag)).line fault) :=
        .stuck (by rw [hs, hs']; simp only [List.append_assoc]) (hrow hrows) hlabel hleads hstuck
      simpa only [Cursor.skip_skip, List.length_append, Nat.add_assoc] using hfails

/-- Rows fail with a label that is repeated among those of the first one. -/
theorem Fails.of_labels {s : Cursor} {known : List Nat} {label : Nat}
    (hs : s.tokens = labelTokens labels ++ .number label :: .mark .colon :: ts)
    (hnodup : (known ++ labels).Nodup) (hmem : label ∈ known ++ labels) :
    Fails s known (.duplicateLabel (s.skip ((labelTokens labels).length + 2)).line label) := by
  have hfails : Fails s known (.duplicateLabel
      (s.skip (([] ++ labelTokens labels).length + 2)).line label) :=
    .repeated hs .nil hnodup hmem
  exact hfails

/-- Rows fail with the first statement, if this gets stuck. -/
theorem Fails.of_statement {s : Cursor} {known : List Nat}
    (hs : s.tokens = labelTokens labels ++ (ts ++ vs))
    (hlabel : ts = [] → ∀ n rest, vs ≠ .number n :: .mark .colon :: rest)
    (hleads : Leads DerivesStatement ts vs.head? fault)
    (hstuck : Stuck statement ts vs.head? fault) :
    Fails s known (.malformed
      ((s.skip (labelTokens labels).length).skip (ts.length + fault.lag)).line fault) := by
  have htokens : s.tokens = [] ++ (labelTokens labels ++ ts) ++ vs := by
    rw [hs, List.nil_append, List.append_assoc]
  have hfails : Fails s known (.malformed
      (s.skip (([] ++ (labelTokens labels ++ ts)).length + fault.lag)).line fault) :=
    .stuck htokens .nil hlabel hleads hstuck
  simpa only [Cursor.skip_skip, List.nil_append, List.length_append, Nat.add_assoc] using hfails

/-- **Rows that are not read fail.** -/
theorem fails_lines {address bound : Nat} {table : Labels} {s : Cursor} {e : ListingError}
    (h : (lines bound address table).run s = .error e) (hnodup : table.keys.Nodup)
    (hbound : s.tokens.length ≤ bound) : Fails s table.keys.reverse e := by
  induction bound generalizing address table s with
  | zero =>
      cases h
  | succ bound ih =>
      by_cases hrest : s.rest = []
      · rw [run_lines_nil hrest] at h
        cases h
      · rw [run_lines_cons hrest] at h
        obtain ⟨labels, rest, hs, hkeys, ⟨hlabel, hrun⟩ | ⟨label, ts, rfl, hmem, hrun⟩⟩ :=
          labels_cases address hnodup s.length_rest.ge
        · rw [hrun] at h
          rcases bind_eq_error_iff.mp h with ⟨⟨⟩⟩ | ⟨_, ⟨⟩, h⟩
          obtain ⟨ts, vs, hts, ⟨statement, htakes⟩ | ⟨fault, hleads, hstuck⟩⟩ :=
            decides_statement (s.skip (labelTokens labels).length)
          all_goals obtain rfl : rest = ts ++ vs := (Cursor.tokens_skip_length hs).symm.trans hts
          · -- The row is read, and what fails are the rows behind it.
            obtain ⟨body, hbody, hderives⟩ := (yields_statement _).of_takes hts htakes
            rw [htakes _ vs hts rfl] at h
            rcases bind_eq_error_iff.mp h with ⟨⟨⟩⟩ | ⟨_, ⟨⟩, h⟩
            rcases bind_eq_error_iff.mp h with h | ⟨_, _, ⟨⟩⟩
            have hfirst : s.tokens = labelTokens labels ++ ts ++ vs := by
              rw [hs, List.append_assoc]
            simp only [Cursor.skip_skip, ← List.length_append] at h
            have hroom : (s.skip (labelTokens labels ++ ts).length).tokens.length ≤ bound := by
              rw [Cursor.tokens_skip_length hfirst]
              rw [hfirst, hbody] at hbound
              simp only [List.length_append, List.length_singleton] at hbound
              omega
            have hfails := ih h hkeys hroom
            rw [keys_addLabels, List.reverse_append, List.reverse_reverse] at hfails
            exact hfails.cons hderives (by rw [hbody]) hfirst
          · rw [hstuck _ vs hts rfl] at h
            cases h
            exact .of_statement hs (fun hnil n rest' hvs => hlabel n rest' (by rw [hnil, hvs]; rfl))
              hleads hstuck
        · rw [hrun] at h
          cases h
          rw [keys_addLabels] at hkeys hmem
          refine .of_labels hs ?_ ?_
          · simpa using List.nodup_reverse.mpr hkeys
          · simpa [or_comm] using hmem

/-! ### Listings -/

/-- Steps of which one fails. -/
theorem exists_of_mapM_eq_error {ε α β : Type} {f : α → Except ε β} {as : List α} {e : ε}
    (h : as.mapM f = .error e) : ∃ a ∈ as, f a = .error e := by
  induction as with
  | nil => cases h
  | cons a as ih =>
      rw [List.mapM_cons] at h
      rcases bind_eq_error_iff.mp h with hfirst | ⟨b, _, hrest⟩
      · exact ⟨a, List.mem_cons_self .., hfirst⟩
      · rcases bind_eq_error_iff.mp hrest with hrest | ⟨bs, _, ⟨⟩⟩
        obtain ⟨a', ha', herror⟩ := ih hrest
        exact ⟨a', List.mem_cons_of_mem _ ha', herror⟩

/-- A line has no item only if its label is missing. -/
theorem toItem_eq_error {table : Labels} {l : Line} {address : Nat} {e : ListingError}
    (h : l.toItem table address = .error e) : ∃ line label, e = .undefinedLabel line label := by
  have hresolve : ∀ {line label}, table.resolve line label = .error e →
      ∃ line label, e = .undefinedLabel line label := fun {line label} h => by
    rw [Labels.resolve] at h
    split at h
    · cases h
    · exact ⟨line, label, (Except.error.inj h).symm⟩
  obtain ⟨line, statement⟩ := l
  cases statement with
  | assign target value => cases h
  | goto label =>
      rcases bind_eq_error_iff.mp h with herror | ⟨_, _, ⟨⟩⟩
      exact hresolve herror
  | branch condition label =>
      rcases bind_eq_error_iff.mp h with herror | ⟨_, _, ⟨⟩⟩
      exact hresolve herror
  | ret value => cases h

/-- **A listing that is not accepted** fails in its rows, or misses a label. -/
theorem fails_ofTokens {tokens : List Token.Located} {e : ListingError}
    (h : ofTokens tokens = .error e) :
    Fails { rest := tokens } [] e ∨ ∃ line label, e = .undefinedLabel line label := by
  rcases bind_eq_error_iff.mp h with hlines | ⟨⟨⟨table, read⟩, s⟩, -, hitems⟩
  · exact .inl (fails_lines hlines List.nodup_nil (Cursor.length_rest { rest := tokens }).ge)
  · obtain ⟨x, -, hx⟩ := exists_of_mapM_eq_error hitems
    exact .inr (toItem_eq_error hx)

/-- The line of a token, or that of the last one if there are not so many. -/
def lineAt (tokens : List Token.Located) (k : Nat) : Nat :=
  (tokens[k]?.or tokens.getLast?).elim 1 (·.line)

/-- **The lines of errors.** A malformed text has a token that offends with the fault, or ends where
one would, and the line is that of this token or, for the faults that lag, of the one behind it. A
text with a duplicate label has a place where the label is repeated, and the line is that of the
token behind its colon. If there is no such token, the line is that of the last one. Apart from
these there are only labels that are missing. -/
theorem parse_error_lines {text : String} {tokens : List Token.Located}
    (hscan : Token.scanText text = .ok tokens) :
    let ts := tokens.map (·.token)
    (∀ line fault, parse text = .error (.malformed line fault) →
      (∃ k, Offends ts fault k) ∧ ∀ k, Offends ts fault k → line = lineAt tokens (k + fault.lag)) ∧
    (∀ line label, parse text = .error (.duplicateLabel line label) →
      (∃ k, Repeats ts label k) ∧ ∀ k, Repeats ts label k → line = lineAt tokens (k + 2)) ∧
    ∀ e, parse text = .error e → (∃ line fault, e = .malformed line fault) ∨
      (∃ line label, e = .duplicateLabel line label) ∨
      ∃ line label, e = .undefinedLabel line label := by
  rw [parse_eq_ofTokens hscan]
  refine ⟨fun line fault h => ?_, fun line label h => ?_, fun e h => ?_⟩
  · obtain hfails | ⟨_, _, ⟨⟩⟩ := fails_ofTokens h
    cases hfails with
    | @stuck us ts vs _ labels _ hs hrows hlabel hleads hstuck =>
        have hoffends : Offends (us ++ (labelTokens labels ++ ts) ++ vs) fault _ :=
          hstuck.offends hleads hrows hlabel
        rw [← hs] at hoffends
        refine ⟨⟨_, hoffends⟩, fun k hk => ?_⟩
        rw [hk.unique hoffends, Cursor.line_skip]
        rfl
  · obtain hfails | ⟨_, _, ⟨⟩⟩ := fails_ofTokens h
    cases hfails with
    | @repeated us vs _ labels _ hs hrows hnodup hmem =>
        have hrepeats :
            Repeats (us ++ labelTokens labels ++ .number label :: .mark .colon :: vs) label _ :=
          repeats_of_derives hrows hnodup hmem
        rw [← hs] at hrepeats
        refine ⟨⟨_, hrepeats⟩, fun k hk => ?_⟩
        rw [hk.unique hrepeats, Cursor.line_skip]
        rfl
  · obtain hfails | hundefined := fails_ofTokens h
    · cases hfails with
      | repeated => exact .inr (.inl ⟨_, _, rfl⟩)
      | stuck => exact .inl ⟨_, _, rfl⟩
    · exact .inr (.inr hundefined)

/-- A jump to a name, with one token a line. -/
def adrift : String := "goto\nx\n;"

def adriftTokens : List Token.Located :=
  [⟨.word "goto", 1⟩, ⟨.word "x", 2⟩, ⟨.mark .semicolon, 3⟩]

/-- The name offends, as a jump gets stuck at it. -/
theorem offends_adrift : Offends (adriftTokens.map (·.token)) .expectedNumber 1 := by
  have hstuck : Stuck statement [.word "goto"] (some (.word "x")) .expectedNumber := by
    rintro ⟨rest, passed⟩ vs hs hnext
    rcases rest with _ | ⟨⟨t, line⟩, _ | ⟨⟨u, line'⟩, rest⟩⟩
    · cases hs
    · obtain ⟨-, rfl⟩ := List.cons.inj hs
      cases hnext
    · obtain ⟨rfl, rfl⟩ := List.cons.inj hs
      obtain rfl : u = .word "x" := Option.some.inj hnext
      rfl
  have hleads : Leads DerivesStatement [.word "goto"] (some (.word "x")) .expectedNumber :=
    ⟨⟨[.mark .semicolon], .goto 0, _, rfl, .goto 0⟩, by rintro n ⟨⟩⟩
  have hoffends : Offends ([] ++ (labelTokens [] ++ [.word "goto"]) ++
      [.word "x", .mark .semicolon]) .expectedNumber _ :=
    Stuck.offends hstuck hleads .nil (by simp)
  exact hoffends

/-- The jump to a name is reported on the line of the token behind the name. -/
theorem parse_error_lines_adrift :
    Token.scanText adrift = .ok adriftTokens ∧
    parse adrift = .error (.malformed 3 .expectedNumber) ∧
    Offends (adriftTokens.map (·.token)) .expectedNumber 1 ∧ 3 = lineAt adriftTokens 2 := by
  have hscan : Token.scanText adrift = .ok adriftTokens := by decide_cbv
  have hparse : parse adrift = .error (.malformed 3 .expectedNumber) := by
    rw [parse_eq_ofTokens hscan]
    rfl
  exact ⟨hscan, hparse, offends_adrift,
    ((parse_error_lines hscan).1 3 .expectedNumber hparse).2 1 offends_adrift⟩

/-- A label that occurs twice, with its statement on the next line. -/
def twofold : String := "1: a = 1;\n1:\nreturn a;"

def twofoldTokens : List Token.Located := [
  ⟨.number 1, 1⟩, ⟨.mark .colon, 1⟩, ⟨.word "a", 1⟩, ⟨.mark .assign, 1⟩, ⟨.number 1, 1⟩,
  ⟨.mark .semicolon, 1⟩,
  ⟨.number 1, 2⟩, ⟨.mark .colon, 2⟩,
  ⟨.word "return", 3⟩, ⟨.word "a", 3⟩, ⟨.mark .semicolon, 3⟩]

/-- **Errors are reported on lines behind the offending ones**: both the label that is repeated on
the second line and the name on the second line that stands where a number should are reported on
the third. -/
theorem parse_error_lines_behind :
    (Token.scanText twofold = .ok twofoldTokens ∧
      parse twofold = .error (.duplicateLabel 3 1) ∧
      Repeats (twofoldTokens.map (·.token)) 1 6 ∧ lineAt twofoldTokens 6 = 2) ∧
    (Token.scanText adrift = .ok adriftTokens ∧
      parse adrift = .error (.malformed 3 .expectedNumber) ∧
      Offends (adriftTokens.map (·.token)) .expectedNumber 1 ∧ lineAt adriftTokens 1 = 2) := by
  have htwofold : Token.scanText twofold = .ok twofoldTokens := by decide_cbv
  have hadrift : Token.scanText adrift = .ok adriftTokens := by decide_cbv
  refine ⟨⟨htwofold, ?_, ⟨rfl, rfl, by decide, by decide⟩, rfl⟩, hadrift, ?_, offends_adrift, rfl⟩
  · rw [parse_eq_ofTokens htwofold]
    rfl
  · rw [parse_eq_ofTokens hadrift]
    rfl

end FlowForm.Listing
