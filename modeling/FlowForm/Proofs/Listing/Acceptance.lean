import Mathlib
import FlowForm.Proofs.Listing.Reading

/-!
# What the Parser Accepts

A listing is accepted if its tokens are those of some rows, no label occurs twice among them, and
every label that is jumped to is there. Its items are then those that the statements denote, one for
each row.

The table of labels is a function of the rows that have been read (`addRows`), and its keys are
their labels. So the check for each new label amounts to the labels being distinct, and looking a
label up amounts to finding the row that carries it (`lookup_addRows`).

## Main results

* `exists_lines` and `derives_lines`: the parser reads rows, and nothing but rows.
* `DerivesRows.exists_append`: the first rows of a listing are those of its first tokens.
* `DerivesRows.unique`: tokens are those of one listing only.
* `ofTokens_eq_ok_iff`: the items of a listing.
* `parse_accepts_grammar`: what is accepted, and what comes out.
-/

namespace FlowForm.Listing

variable {rows : List Row} {ts us : List Token}

/-! ### The table of labels -/

/-- The table once the labels of the row at an address have been read. -/
def addLabels (address : Nat) (labels : List Nat) (table : Labels) : Labels :=
  labels.foldl (fun table label => (label, address) :: table) table

/-- The table once rows have been read, the first of which stands at the given address. -/
def addRows (address : Nat) : List Row → Labels → Labels
  | [], table => table
  | row :: rows, table => addRows (address + 1) rows (addLabels address row.labels table)

/-- The labels in the table. -/
def Labels.keys (table : Labels) : List Nat :=
  table.map Prod.fst

theorem keys_addLabels (address : Nat) (labels : List Nat) (table : Labels) :
    (addLabels address labels table).keys = labels.reverse ++ table.keys := by
  induction labels generalizing table with
  | nil => rfl
  | cons label labels ih =>
      rw [List.reverse_cons, List.append_assoc]
      exact ih ((label, address) :: table)

theorem keys_addRows (address : Nat) (rows : List Row) (table : Labels) :
    (addRows address rows table).keys = (labelsOf rows).reverse ++ table.keys := by
  induction rows generalizing address table with
  | nil => rfl
  | cons row rows ih =>
      rw [addRows, ih, keys_addLabels, labelsOf, labelsOf, List.flatMap_cons, List.reverse_append,
        List.append_assoc]

theorem mem_addLabels {address label index : Nat} {labels : List Nat} {table : Labels} :
    (label, index) ∈ addLabels address labels table ↔
      (label, index) ∈ table ∨ label ∈ labels ∧ index = address := by
  induction labels generalizing table with
  | nil => simp [addLabels]
  | cons first labels ih =>
      have hrest : addLabels address (first :: labels) table =
          addLabels address labels ((first, address) :: table) := rfl
      rw [hrest, ih, List.mem_cons, List.mem_cons, Prod.mk.injEq]
      tauto

/-- **The table says which row carries a label.** -/
theorem mem_addRows {address label index : Nat} {table : Labels} :
    (label, index) ∈ addRows address rows table ↔
      (label, index) ∈ table ∨ ∃ i, index = address + i ∧ Carries rows label i := by
  induction rows generalizing address table with
  | nil => simp [addRows, Carries]
  | cons row rows ih =>
      rw [addRows, ih, mem_addLabels, or_assoc]
      refine or_congr_right ⟨?_, ?_⟩
      · rintro (⟨hlabel, rfl⟩ | ⟨i, rfl, hcarries⟩)
        · exact ⟨0, rfl, row, rfl, hlabel⟩
        · exact ⟨i + 1, by omega, hcarries⟩
      · rintro ⟨i, rfl, hcarries⟩
        cases i with
        | zero =>
            obtain ⟨first, hfirst, hlabel⟩ := hcarries
            cases hfirst
            exact .inl ⟨hlabel, rfl⟩
        | succ i => exact .inr ⟨i, by omega, hcarries⟩

/-- Looking a label up finds something if it is there. -/
theorem isSome_lookup_iff {table : Labels} {label : Nat} :
    (table.lookup label).isSome = true ↔ label ∈ table.keys := by
  rw [← not_iff_not, Option.not_isSome_iff_eq_none, List.lookup_eq_none_iff, Labels.keys,
    List.mem_map]
  constructor
  · rintro h ⟨x, hx, rfl⟩
    exact bne_iff_ne.mp (h x hx) rfl
  · exact fun h x hx => bne_iff_ne.mpr fun heq => h ⟨x, hx, heq.symm⟩

/-- If no label occurs twice, looking one up finds each of its entries. -/
theorem lookup_eq_some_iff_mem {table : Labels} (h : table.keys.Nodup) {label index : Nat} :
    table.lookup label = some index ↔ (label, index) ∈ table := by
  rw [List.lookup_eq_some_iff]
  constructor
  · rintro ⟨before, behind, rfl, -⟩
    simp
  · intro hmem
    obtain ⟨before, behind, rfl⟩ := List.append_of_mem hmem
    refine ⟨before, behind, rfl, fun x hx => ?_⟩
    rw [Labels.keys, List.map_append, List.map_cons] at h
    have hfresh := (List.nodup_middle.mp h).notMem
    simp only [List.mem_append, List.mem_map, not_or, not_exists, not_and] at hfresh
    exact bne_iff_ne.mpr fun heq => hfresh.1 x hx heq.symm

/-- No label is entered twice if none **occurs twice**. -/
theorem nodup_keys_addRows : (addRows 0 rows []).keys.Nodup ↔ (labelsOf rows).Nodup := by
  rw [keys_addRows]
  simp [Labels.keys]

/-- **Looking a label up** finds the row that carries it. -/
theorem lookup_addRows (h : (labelsOf rows).Nodup) {label index : Nat} :
    (addRows 0 rows []).lookup label = some index ↔ Carries rows label index := by
  rw [lookup_eq_some_iff_mem (nodup_keys_addRows.mpr h), mem_addRows]
  simp

/-! ### Labels -/

/-- A word is no label. -/
theorem reads_label_none (name : String) (ts : List Token) :
    Reads label? (.word name :: ts) none (.word name :: ts) := by
  rintro ⟨rest, passed⟩ hs
  cases rest with
  | nil => cases hs
  | cons t rest =>
      obtain ⟨token, line⟩ := t
      obtain ⟨rfl, rfl⟩ := List.cons.inj hs
      exact ⟨_, rfl, rfl⟩

/-- A number with a colon behind it is a label. -/
theorem reads_label_some (label : Nat) (ts : List Token) :
    Reads label? (.number label :: .mark .colon :: ts) (some label) ts := by
  rintro ⟨rest, passed⟩ hs
  cases rest with
  | nil => cases hs
  | cons first rest =>
      obtain ⟨hfirst, htail⟩ := List.cons.inj hs
      obtain ⟨token, line⟩ := first
      obtain rfl : token = .number label := hfirst
      cases rest with
      | nil => cases htail
      | cons second rest =>
          obtain ⟨token, line'⟩ := second
          obtain ⟨rfl, rfl⟩ := List.cons.inj htail
          exact ⟨⟨rest, line'⟩, rfl, rfl⟩

/-- Labels are read as long as none has been there before. -/
theorem reads_labels {address bound : Nat} {labels : List Nat} {table : Labels} {name : String}
    (hnodup : (addLabels address labels table).keys.Nodup) (hbound : labels.length ≤ bound) :
    Reads (Listing.labels address bound table) (labelTokens labels ++ .word name :: ts)
      (addLabels address labels table) (.word name :: ts) := by
  induction labels generalizing table bound with
  | nil =>
      cases bound with
      | zero => exact reads_pure _ _
      | succ bound => exact (reads_label_none name ts).bind (reads_pure _ _)
  | cons label labels ih =>
      cases bound with
      | zero => simp at hbound
      | succ bound =>
          have hfresh : table.lookup label = none := by
            rw [keys_addLabels, List.reverse_cons, List.append_assoc] at hnodup
            have hnot := (List.nodup_append.mp hnodup).2.1.notMem
            exact Option.not_isSome_iff_eq_none.mp (mt isSome_lookup_iff.mp hnot)
          refine (reads_label_some label _).bind ?_
          simp only [hfresh, Option.isSome_none, Bool.false_eq_true, if_false]
          exact ih hnodup (Nat.le_of_succ_le_succ hbound)

/-- A label that is read is a number with a colon behind it. -/
theorem yields_label (s : Cursor) : Yields label? s fun ts label =>
    ts = labelTokens label.toList := by
  obtain ⟨rest, passed⟩ := s
  intro label s' hrun
  simp only [label?, modifyGet, MonadStateOf.modifyGet, StateT.modifyGet, StateT.run] at hrun
  split at hrun
  · cases hrun
    exact ⟨_, rfl, rfl⟩
  · cases hrun
    exact ⟨[], rfl, rfl⟩

/-- **The labels that are read** are added to the table, none of them twice. -/
theorem yields_labels (address bound : Nat) {table : Labels} (hnodup : table.keys.Nodup)
    (s : Cursor) : Yields (Listing.labels address bound table) s fun ts table' =>
      ∃ labels, ts = labelTokens labels ∧ table' = addLabels address labels table ∧
        table'.keys.Nodup := by
  induction bound generalizing table s with
  | zero => exact yields_pure ⟨[], rfl, rfl, hnodup⟩
  | succ bound ih =>
      refine (yields_label s).bind ?_
      rintro _ label s₁ rfl
      split
      · exact yields_pure ⟨[], rfl, rfl, hnodup⟩
      · rename_i label
        split
        · exact yields_get_bind (yields_throw _)
        · rename_i hnone
          have hfresh : label ∉ table.keys := mt isSome_lookup_iff.mpr hnone
          have hkeys : Labels.keys ((label, address) :: table) |>.Nodup :=
            List.nodup_cons.mpr ⟨hfresh, hnodup⟩
          refine (ih hkeys s₁).imp ?_
          rintro _ _ ⟨labels, rfl, rfl, hkeys⟩
          exact ⟨label :: labels, rfl, rfl, hkeys⟩

/-! ### Rows -/

/-- At the end of the tokens there are no more rows. -/
theorem run_lines_nil {address bound : Nat} {table : Labels} {s : Cursor} (hrest : s.rest = []) :
    (lines bound address table).run s = .ok ((table, []), s) := by
  obtain ⟨rest, passed⟩ := s
  subst hrest
  cases bound with
  | zero => rfl
  | succ bound => rfl

/-- In front of a token there is **one row**, and more of them behind it. -/
theorem run_lines_cons {address bound : Nat} {table : Labels} {s : Cursor} (hrest : s.rest ≠ []) :
    (lines (bound + 1) address table).run s =
      (Listing.labels address s.rest.length table).run s >>= fun x =>
        statement.run x.2 >>= fun y =>
          (lines bound (address + 1) x.1).run y.2 >>= fun z =>
            .ok ((z.1.1, ⟨x.2.line, y.1⟩ :: z.1.2), z.2) := by
  obtain ⟨rest, passed⟩ := s
  cases rest with
  | nil => exact absurd rfl hrest
  | cons t rest => rfl

/-- **The rows of a listing are read** off its tokens. -/
theorem exists_lines {address bound : Nat} {table : Labels} (h : DerivesRows ts rows)
    (hnodup : (addRows address rows table).keys.Nodup) (hbound : rows.length ≤ bound) (s : Cursor)
    (hs : s.tokens = ts) :
    ∃ read s', (lines bound address table).run s = .ok ((addRows address rows table, read), s') ∧
      read.map (·.statement) = rows.map (·.statement) := by
  induction h generalizing address bound table s with
  | nil => exact ⟨[], s, run_lines_nil (List.map_eq_nil_iff.mp hs), rfl⟩
  | @cons ts us statement rows labels hbody hrows ih =>
      cases bound with
      | zero => simp at hbound
      | succ bound =>
          obtain ⟨name, vs, rfl⟩ := hbody.exists_word_cons
          have hlength : s.rest.length =
              (labelTokens labels).length + (vs.length + us.length + 2) := by
            rw [s.length_rest, hs]
            simp only [List.length_append, List.length_cons]
            omega
          have hkeys : (addLabels address labels table).keys.Nodup := by
            rw [addRows, keys_addRows] at hnodup
            exact (List.nodup_append.mp hnodup).2.1
          -- The bound for labels is the number of tokens that are left.
          have hroom : labels.length ≤ s.rest.length := by
            rw [hlength, length_labelTokens]
            omega
          obtain ⟨s₁, hlabels, hs₁⟩ := reads_labels hkeys hroom s hs
          obtain ⟨s₂, hstatement, hs₂⟩ := reads_statement hbody us s₁ hs₁
          obtain ⟨read, s₃, hlines, hread⟩ :=
            ih hnodup (Nat.le_of_succ_le_succ hbound) s₂ hs₂
          refine ⟨⟨s₁.line, statement⟩ :: read, s₃, ?_, congrArg (statement :: ·) hread⟩
          have hrest : s.rest ≠ [] := List.length_pos_iff.mp (by omega)
          rw [run_lines_cons hrest, bind_eq_ok_iff]
          refine ⟨_, hlabels, bind_eq_ok_iff.mpr ⟨_, hstatement, ?_⟩⟩
          exact bind_eq_ok_iff.mpr ⟨_, hlines, rfl⟩

/-- **Nothing but rows is read**, up to the last token. -/
theorem derives_lines {address bound : Nat} {table : Labels} {s s' : Cursor}
    {result : Labels × List Line} (h : (lines bound address table).run s = .ok (result, s'))
    (hnodup : table.keys.Nodup) (hbound : s.rest.length ≤ bound) :
    ∃ rows, DerivesRows s.tokens rows ∧ result.1 = addRows address rows table ∧
      result.1.keys.Nodup ∧ result.2.map (·.statement) = rows.map (·.statement) := by
  induction bound generalizing address table s result with
  | zero =>
      have hrest : s.rest = [] := List.length_eq_zero_iff.mp (Nat.le_zero.mp hbound)
      rw [run_lines_nil hrest] at h
      cases h
      exact ⟨[], by rw [Cursor.tokens, hrest]; exact .nil, rfl, hnodup, rfl⟩
  | succ bound ih =>
      by_cases hrest : s.rest = []
      · rw [run_lines_nil hrest] at h
        cases h
        exact ⟨[], by rw [Cursor.tokens, hrest]; exact .nil, rfl, hnodup, rfl⟩
      · rw [run_lines_cons hrest, bind_eq_ok_iff] at h
        obtain ⟨⟨table₁, s₁⟩, hlabels, h⟩ := h
        rw [bind_eq_ok_iff] at h
        obtain ⟨⟨first, s₂⟩, hstatement, h⟩ := h
        rw [bind_eq_ok_iff] at h
        obtain ⟨⟨⟨table₂, read⟩, s₃⟩, hlines, h⟩ := h
        cases h
        obtain ⟨_, hs, labels, rfl, rfl, hkeys⟩ :=
          yields_labels address s.rest.length hnodup s _ _ hlabels
        obtain ⟨_, hs₁, body, rfl, hbody⟩ := yields_statement s₁ _ _ hstatement
        have htokens : s.tokens =
            labelTokens labels ++ (body ++ .mark .semicolon :: s₂.tokens) := by
          rw [hs, hs₁, List.append_assoc]
          rfl
        have hlength : s₂.rest.length ≤ bound := by
          have := congrArg List.length htokens
          simp only [List.length_append, List.length_cons] at this
          rw [s₂.length_rest]
          rw [s.length_rest] at hbound
          omega
        obtain ⟨rows, hrows, hresult, hnodup', hread⟩ := ih hlines hkeys hlength
        refine ⟨⟨labels, first⟩ :: rows, ?_, hresult, hnodup', congrArg (first :: ·) hread⟩
        rw [htokens]
        exact .cons labels hbody hrows

/-- Labels with a statement behind them end where the statement starts. -/
theorem labelTokens_append_inj {labels labels' : List Nat} {name name' : String}
    (h : labelTokens labels ++ .word name :: ts = labelTokens labels' ++ .word name' :: us) :
    labels = labels' := by
  induction labels generalizing labels' with
  | nil =>
      cases labels' with
      | nil => rfl
      | cons label' labels' => cases h
  | cons label labels ih =>
      cases labels' with
      | nil => cases h
      | cons label' labels' =>
          simp only [labelTokens_cons, List.cons_append, List.cons.injEq, Token.number.injEq,
            true_and] at h
          obtain ⟨rfl, hrest⟩ := h
          rw [ih hrest]

/-- **The first rows of a listing** are those that its first tokens make. -/
theorem DerivesRows.exists_append {rows' : List Row} (h : DerivesRows ts rows)
    (h' : DerivesRows (ts ++ us) rows') : ∃ rest, rows' = rows ++ rest ∧ DerivesRows us rest := by
  induction h generalizing rows' with
  | nil => exact ⟨rows', rfl, h'⟩
  | @cons ts vs statement rows labels hbody hrest ih =>
      generalize hws : labelTokens labels ++ (ts ++ .mark .semicolon :: vs) ++ us = ws at h'
      rw [List.append_assoc, List.append_assoc] at hws
      cases h' with
      | nil => simp at hws
      | @cons ts' vs' statement' rows' labels' hbody' hrest' =>
          obtain ⟨name, xs, rfl⟩ := hbody.exists_word_cons
          obtain ⟨name', xs', rfl⟩ := hbody'.exists_word_cons
          obtain rfl := labelTokens_append_inj hws
          -- Where a statement ends is settled by the parser, which reads both.
          have hreads := reads_statement hbody' vs'
          rw [← List.append_cancel_left hws] at hreads
          obtain ⟨rfl, rfl⟩ := (reads_statement hbody (vs ++ us)).unique hreads
          obtain ⟨rest, rfl, hrest⟩ := ih hrest'
          exact ⟨rest, rfl, hrest⟩

/-- No tokens, no rows. -/
theorem DerivesRows.eq_nil (h : DerivesRows [] rows) : rows = [] := by
  generalize hts : ([] : List Token) = ts at h
  cases h with
  | nil => rfl
  | cons labels hbody hrest => simp at hts

/-- **Tokens are those of one listing only.** -/
theorem DerivesRows.unique {rows' : List Row} (h : DerivesRows ts rows)
    (h' : DerivesRows ts rows') : rows = rows' := by
  rw [← List.append_nil ts] at h'
  obtain ⟨rest, rfl, hrest⟩ := h.exists_append h'
  rw [hrest.eq_nil, List.append_nil]

/-! ### Items -/

/-- The item of a line is the one that its statement denotes. -/
theorem toItem_eq_ok_iff {table : Labels}
    (htable : ∀ label index, table.lookup label = some index ↔ Carries rows label index)
    {l : Line} {address : Nat} {item : Item} :
    l.toItem table address = .ok item ↔ Denotes rows address l.statement item := by
  obtain ⟨line, statement⟩ := l
  have hresolve : ∀ label index, table.resolve line label = .ok index ↔
      Carries rows label index := by
    intro label index
    rw [← htable, Labels.resolve]
    cases table.lookup label with
    | none => simp
    | some index => simp
  cases statement with
  | assign target value =>
      constructor
      · rintro ⟨⟩
        exact .assign target value
      · rintro ⟨⟩
        rfl
  | goto label =>
      rw [Line.toItem, bind_eq_ok_iff]
      constructor
      · rintro ⟨index, hindex, ⟨⟩⟩
        exact .goto ((hresolve label index).mp hindex)
      · rintro ⟨⟩
        rename_i index hcarries
        exact ⟨index, (hresolve label index).mpr hcarries, rfl⟩
  | branch condition label =>
      rw [Line.toItem, bind_eq_ok_iff]
      constructor
      · rintro ⟨index, hindex, ⟨⟩⟩
        exact .branch condition ((hresolve label index).mp hindex)
      · rintro ⟨⟩
        rename_i index hcarries
        exact ⟨index, (hresolve label index).mpr hcarries, rfl⟩
  | ret value =>
      constructor
      · rintro ⟨⟩
        exact .ret value
      · rintro ⟨⟩
        rfl

/-- Steps that all succeed have one value each. -/
theorem mapM_eq_ok_iff {ε α β : Type} {f : α → Except ε β} {as : List α} {bs : List β} :
    as.mapM f = .ok bs ↔ List.Forall₂ (fun a b => f a = .ok b) as bs := by
  induction as generalizing bs with
  | nil =>
      rw [List.mapM_nil, List.forall₂_nil_left_iff]
      exact ⟨fun h => (Except.ok.inj h).symm, fun h => h ▸ rfl⟩
  | cons a as ih =>
      rw [List.mapM_cons, bind_eq_ok_iff, List.forall₂_cons_left_iff]
      refine exists_congr fun b => ?_
      constructor
      · rintro ⟨hb, h⟩
        obtain ⟨bs', hbs', h⟩ := bind_eq_ok_iff.mp h
        exact ⟨bs', hb, ih.mp hbs', (Except.ok.inj h).symm⟩
      · rintro ⟨bs', hb, hbs', rfl⟩
        exact ⟨hb, bind_eq_ok_iff.mpr ⟨bs', ih.mpr hbs', rfl⟩⟩

/-- **The items of a listing**: the one at each index is what the statement there denotes. -/
def Denoted (rows : List Row) (items : List Item) : Prop :=
  List.Forall₂ (fun x item => Denotes rows x.2 x.1 item) (rows.map (·.statement)).zipIdx items

/-- Items by their indices. -/
theorem Denoted.getElem? {items : List Item} (h : Denoted rows items) :
    items.length = rows.length ∧ ∀ i row, rows[i]? = some row →
      ∃ item, items[i]? = some item ∧ Denotes rows i row.statement item := by
  obtain ⟨hlength, hget⟩ := List.forall₂_iff_get.mp h
  simp only [List.length_zipIdx, List.length_map] at hlength hget
  refine ⟨hlength.symm, fun i row hrow => ?_⟩
  obtain ⟨hi, rfl⟩ := List.getElem?_eq_some_iff.mp hrow
  have hdenotes := hget i hi (hlength ▸ hi)
  simp only [List.get_eq_getElem, List.getElem_zipIdx, List.getElem_map, Nat.zero_add] at hdenotes
  exact ⟨_, List.getElem?_eq_getElem (hlength ▸ hi), hdenotes⟩

/-- Some row carries every label of the listing. -/
theorem mem_labelsOf_iff {label : Nat} :
    label ∈ labelsOf rows ↔ ∃ index, Carries rows label index := by
  rw [labelsOf, List.mem_flatMap]
  constructor
  · rintro ⟨row, hrow, hlabel⟩
    obtain ⟨index, hindex⟩ := List.getElem?_of_mem hrow
    exact ⟨index, row, hindex, hlabel⟩
  · rintro ⟨index, row, hindex, hlabel⟩
    exact ⟨row, List.mem_of_getElem? hindex, hlabel⟩

/-- A statement denotes an item if its label is there. -/
theorem exists_denotes_iff {s : Statement} {address : Nat} :
    (∃ item, Denotes rows address s item) ↔ ∀ label ∈ s.label?, label ∈ labelsOf rows := by
  simp only [mem_labelsOf_iff]
  cases s with
  | assign target value => exact ⟨fun _ => by simp [Statement.label?], fun _ => ⟨_, .assign ..⟩⟩
  | ret value => exact ⟨fun _ => by simp [Statement.label?], fun _ => ⟨_, .ret ..⟩⟩
  | goto label =>
      constructor
      · rintro ⟨_, ⟨⟩⟩ _ ⟨⟩
        exact ⟨_, ‹Carries ..›⟩
      · intro h
        obtain ⟨index, hindex⟩ := h label rfl
        exact ⟨_, .goto hindex⟩
  | branch condition label =>
      constructor
      · rintro ⟨_, ⟨⟩⟩ _ ⟨⟩
        exact ⟨_, ‹Carries ..›⟩
      · intro h
        obtain ⟨index, hindex⟩ := h label rfl
        exact ⟨_, .branch condition hindex⟩

/-- **Rows have items** if every label that is jumped to is there. -/
theorem exists_denoted_iff : (∃ items, Denoted rows items) ↔
    ∀ row ∈ rows, ∀ label ∈ row.statement.label?, label ∈ labelsOf rows := by
  constructor
  · rintro ⟨items, h⟩ row hrow
    obtain ⟨i, hi⟩ := List.getElem?_of_mem hrow
    obtain ⟨item, -, hitem⟩ := h.getElem?.2 i row hi
    exact exists_denotes_iff.mp ⟨item, hitem⟩
  · intro h
    have hall : ∀ x ∈ (rows.map (·.statement)).zipIdx, ∃ item, Denotes rows x.2 x.1 item := by
      intro x hx
      obtain ⟨row, hrow, hstatement⟩ := List.mem_map.mp (List.fst_mem_of_mem_zipIdx hx)
      exact exists_denotes_iff.mpr (hstatement ▸ h row hrow)
    have : Nonempty Item := ⟨{ address := 0 }⟩
    choose! itemOf hitemOf using hall
    exact ⟨_, List.forall₂_map_right_iff.mpr (List.forall₂_same.mpr hitemOf)⟩

/-- Lines are turned into the items that their statements denote. -/
theorem mapM_toItem_eq_ok_iff {table : Labels} {read : List Line} {items : List Item}
    (htable : ∀ label index, table.lookup label = some index ↔ Carries rows label index)
    (hread : read.map (·.statement) = rows.map (·.statement)) :
    read.zipIdx.mapM (fun x => x.1.toItem table x.2) = .ok items ↔ Denoted rows items := by
  rw [mapM_eq_ok_iff, Denoted, ← hread, List.zipIdx_map, List.forall₂_map_left_iff]
  simp only [toItem_eq_ok_iff htable, Prod.map_fst, Prod.map_snd, id_eq]

/-! ### Listings -/

/-- **The items of a listing** are those that its rows denote, if no label occurs twice. -/
theorem ofTokens_eq_ok_iff {tokens : List Token.Located} {items : List Item} :
    ofTokens tokens = .ok items ↔ ∃ rows, DerivesRows (tokens.map (·.token)) rows ∧
      (labelsOf rows).Nodup ∧ Denoted rows items := by
  rw [ofTokens, bind_eq_ok_iff]
  constructor
  · rintro ⟨⟨⟨table, read⟩, s⟩, hlines, hitems⟩
    obtain ⟨rows, hrows, rfl, hkeys, hread⟩ := derives_lines hlines List.nodup_nil (Nat.le_refl _)
    have hnodup := nodup_keys_addRows.mp hkeys
    exact ⟨rows, hrows, hnodup,
      (mapM_toItem_eq_ok_iff (fun _ _ => lookup_addRows hnodup) hread).mp hitems⟩
  · rintro ⟨rows, hrows, hnodup, hitems⟩
    have hbound : rows.length ≤ tokens.length :=
      hrows.length_le.trans (List.length_map _).le
    obtain ⟨read, s, hlines, hread⟩ :=
      exists_lines hrows (nodup_keys_addRows.mpr hnodup) hbound { rest := tokens } rfl
    exact ⟨_, hlines, (mapM_toItem_eq_ok_iff (fun _ _ => lookup_addRows hnodup) hread).mpr hitems⟩

/-- Parsing comes down to the tokens of the text. -/
theorem parse_eq_ofTokens {text : String} {tokens : List Token.Located}
    (h : Token.scanText text = .ok tokens) : parse text = ofTokens tokens := by
  rw [parse, h]
  rfl

/-- **The parser accepts exactly the listings of the grammar.** A text with the given tokens is
accepted if and only if they are those of some rows, no label occurs twice among these, and every
label that is jumped to is there. There is one item for each row then: the one at each index stands
at this address and is what the statement of the row denotes, with jumps to the indices of the rows
that carry their labels. Tokens are those of one listing and of one expression only. -/
theorem parse_accepts_grammar {text : String} {tokens : List Token.Located}
    (h : Token.scanText text = .ok tokens) :
    ((∃ items, parse text = .ok items) ↔
      ∃ rows, DerivesRows (tokens.map (·.token)) rows ∧ (labelsOf rows).Nodup ∧
        ∀ row ∈ rows, ∀ label ∈ row.statement.label?, label ∈ labelsOf rows) ∧
    (∀ items rows, parse text = .ok items → DerivesRows (tokens.map (·.token)) rows →
      items.length = rows.length ∧ ∀ i row, rows[i]? = some row →
        ∃ item, items[i]? = some item ∧ item.address = i ∧ Denotes rows i row.statement item) ∧
    (∀ rows rows', DerivesRows (tokens.map (·.token)) rows →
      DerivesRows (tokens.map (·.token)) rows' → rows = rows') ∧
    ∀ ts e e', DerivesExpr maxNesting 1 ts e → DerivesExpr maxNesting 1 ts e' → e = e' := by
  rw [parse_eq_ofTokens h]
  refine ⟨?_, fun items rows hitems hrows => ?_, fun rows rows' => DerivesRows.unique,
    fun ts e e' he he' => ?_⟩
  · simp only [← exists_denoted_iff, ofTokens_eq_ok_iff]
    constructor
    · rintro ⟨items, rows, hrows, hnodup, hitems⟩
      exact ⟨rows, hrows, hnodup, items, hitems⟩
    · rintro ⟨rows, hrows, hnodup, items, hitems⟩
      exact ⟨items, rows, hrows, hnodup, hitems⟩
  · obtain ⟨rows', hrows', -, hdenoted⟩ := ofTokens_eq_ok_iff.mp hitems
    obtain rfl := hrows.unique hrows'
    obtain ⟨hlength, hget⟩ := hdenoted.getElem?
    refine ⟨hlength, fun i row hrow => ?_⟩
    obtain ⟨item, hitem, hdenotes⟩ := hget i row hrow
    exact ⟨item, hitem, hdenotes.address_eq, hdenotes⟩
  · have hends : EndsRun [] := rfl
    exact ((reads_expression he hends).unique (reads_expression he' hends)).1

/-- A text with two labels in front of one statement, with parentheses that are superfluous, and
with a variable that is named like a keyword. -/
def detour : String :=
  "7: 300: x = -a - b * 2 - (c);\nif (x) goto 300;\nreturn goto;"

/-- The tokens of the detour. -/
def detourTokens : List Token.Located := [
  ⟨.number 7, 1⟩, ⟨.mark .colon, 1⟩, ⟨.number 300, 1⟩, ⟨.mark .colon, 1⟩, ⟨.word "x", 1⟩,
  ⟨.mark .assign, 1⟩, ⟨.mark .minus, 1⟩, ⟨.word "a", 1⟩, ⟨.mark .minus, 1⟩, ⟨.word "b", 1⟩,
  ⟨.mark .star, 1⟩, ⟨.number 2, 1⟩, ⟨.mark .minus, 1⟩, ⟨.mark .openParen, 1⟩, ⟨.word "c", 1⟩,
  ⟨.mark .closeParen, 1⟩, ⟨.mark .semicolon, 1⟩,
  ⟨.word "if", 2⟩, ⟨.mark .openParen, 2⟩, ⟨.word "x", 2⟩, ⟨.mark .closeParen, 2⟩,
  ⟨.word "goto", 2⟩, ⟨.number 300, 2⟩, ⟨.mark .semicolon, 2⟩,
  ⟨.word "return", 3⟩, ⟨.word "goto", 3⟩, ⟨.mark .semicolon, 3⟩]

/-- The rows of the detour. -/
def detourRows : List Row := [
  ⟨[7, 300], .assign "x" (.binary .sub (.binary .sub (.unary .neg (.var ⟨"a", none⟩))
    (.binary .mul (.var ⟨"b", none⟩) (.imm 2))) (.var ⟨"c", none⟩))⟩,
  ⟨[], .branch (.var ⟨"x", none⟩) 300⟩,
  ⟨[], .ret (some (.var ⟨"goto", none⟩))⟩]

/-- The grammar has the detour: its subtractions associate to the left, and its parentheses leave no
trace in the tree. -/
theorem derives_detour : DerivesRows (detourTokens.map (·.token)) detourRows := by
  have hword : ∀ name level, level ≤ 11 →
      DerivesExpr maxNesting level [.word name] (.var { name }) := fun name level hlevel =>
    (DerivesExpr.word name).loosen hlevel (Nat.le_refl 11)
  have hneg : DerivesExpr maxNesting 9 [.mark .minus, .word "a"] (.unary .neg (.var ⟨"a", none⟩)) :=
    (DerivesExpr.unary .neg (.word "a")).loosen (by decide) (Nat.le_refl 11)
  have hproduct := DerivesExpr.binary .mul rfl (hword "b" 10 (by decide))
    (.number (n := 2) (by decide))
  have hparen : DerivesExpr maxNesting 10 [.mark .openParen, .word "c", .mark .closeParen]
      (.var ⟨"c", none⟩) :=
    (DerivesExpr.paren (.loosen (.word "c") (by decide) (Nat.le_refl 11))).loosen (by decide)
      (Nat.le_refl 11)
  have hvalue := DerivesExpr.binary .sub rfl (.binary .sub rfl hneg hproduct) hparen
  have hloose : 1 ≤ BinaryOp.sub.precedence := by decide
  exact .cons [7, 300] (.assign (by decide) (hvalue.loosen hloose (by decide)))
    (.cons [] (.branch 300 (hword "x" 1 (by decide)))
      (.cons [] (.retValue (hword "goto" 1 (by decide))) .nil))

/-- The detour is accepted, and its branch goes to the first item. A label that occurs twice is
not. -/
theorem parse_accepts_grammar_detour :
    Token.scanText detour = .ok detourTokens ∧
    (∃ items, parse detour = .ok items ∧
      items[1]? = some { address := 1, terminator := .branch (.var ⟨"x", none⟩) 0 }) ∧
    ¬ ∃ items, parse "1: 1: return;" = .ok items := by
  have hscan : Token.scanText detour = .ok detourTokens := by decide_cbv
  have hscan' : Token.scanText "1: 1: return;" = .ok [⟨.number 1, 1⟩, ⟨.mark .colon, 1⟩,
      ⟨.number 1, 1⟩, ⟨.mark .colon, 1⟩, ⟨.word "return", 1⟩, ⟨.mark .semicolon, 1⟩] := by
    decide_cbv
  refine ⟨hscan, ?_, ?_⟩
  · obtain ⟨haccepted, hitems, -⟩ := parse_accepts_grammar hscan
    obtain ⟨items, hparse⟩ := haccepted.mpr ⟨detourRows, derives_detour, by decide, by decide⟩
    refine ⟨items, hparse, ?_⟩
    obtain ⟨item, hitem, -, hdenotes⟩ := (hitems items detourRows hparse derives_detour).2 1 _ rfl
    cases hdenotes with
    | @branch _ index _ hcarries =>
        obtain ⟨row, hrow, hlabel⟩ := hcarries
        rcases index with _ | _ | _ | index
        · exact hitem
        · cases hrow
          cases hlabel
        · cases hrow
          cases hlabel
        · cases hrow
  · rw [(parse_accepts_grammar hscan').1]
    rintro ⟨rows, hrows, hnodup, -⟩
    have htwice := (parse_accepts_grammar hscan').2.2.1 rows [⟨[1, 1], .ret none⟩] hrows
      (.cons [1, 1] .ret .nil)
    rw [htwice] at hnodup
    exact absurd hnodup (by decide)

end FlowForm.Listing
