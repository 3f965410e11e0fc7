import Mathlib
import FlowForm.Proofs.Listing.Acceptance

/-!
# Printing and Parsing Listings

A listing is printed with one line for each item: its address, which is its label, and its text.
Parsing gives the items back, for all lists of items that a listing can have (`WellFormed`), and
every list that parsing gives is one of these (`wellFormed_of_parse`).

Well-formed lists are those that come from statements whose labels are addresses
(`wellFormed_iff`), so the theorem is proved for statements. The scanner finds their tokens line by
line (`scan_print`), and these are the tokens of rows with one label each (`derives_lineTokens`).
What the parser makes of them is then a matter of the grammar.

## Main results

* `wellFormed_iff`: well-formed items and well-formed statements.
* `parse_print`: parsing what has been printed.
* `wellFormed_of_parse`: what has been parsed is well formed.
* `parse_inverts_print`: both together.
-/

namespace FlowForm

/-! ### Well-formed listings -/

/-- An item is **well formed** in a listing of the given length if it is an assignment that falls
through, or nothing but a jump, a branch or a return, and its targets lie in the listing. -/
def Item.WellFormed (count : Nat) (item : Item) : Prop :=
  match item.statements, item.terminator with
  | [s], .fall =>
    s.target.version = none ∧ Token.isIdentifier s.target.name ∧
      s.target.name ∉ Listing.keywords ∧ s.value.WellFormed
  | [], .jump target => target < count
  | [], .branch condition target => condition.WellFormed ∧ target < count
  | [], .ret value => ∀ e ∈ value, e.WellFormed
  | _, _ => False

instance (count : Nat) : (item : Item) → Decidable (item.WellFormed count)
  | ⟨_, [_], .fall⟩ => inferInstanceAs (Decidable (_ ∧ _))
  | ⟨_, [], .jump _⟩ => inferInstanceAs (Decidable (_ < count))
  | ⟨_, [], .branch _ _⟩ => inferInstanceAs (Decidable (_ ∧ _))
  | ⟨_, [], .ret value⟩ => inferInstanceAs (Decidable (∀ e ∈ value, e.WellFormed))
  | ⟨_, [], .fall⟩ | ⟨_, [_], .jump _⟩ | ⟨_, [_], .branch _ _⟩ | ⟨_, [_], .ret _⟩
  | ⟨_, _ :: _ :: _, _⟩ => .isFalse id

namespace Listing

open Token (Located onLine)

/-- Items are **well formed** as a listing if each of them is, and stands at its position. -/
def WellFormed (items : List Item) : Prop :=
  ∀ x ∈ items.zipIdx, x.1.address = x.2 ∧ x.1.WellFormed items.length

instance (items : List Item) : Decidable (WellFormed items) :=
  inferInstanceAs (Decidable (∀ _ ∈ _, _))

/-- The text of a listing: one line for each item, with its address as its label. -/
def print (items : List Item) : String :=
  String.join (items.map fun item => toString item.address ++ ": " ++ item.render ++ "\n")

namespace Statement

/-- The tokens of a statement up to its semicolon. -/
def bodyTokens : Statement → List Token
  | assign target value => .word target :: .mark .assign :: value.tokens
  | goto label => [.word "goto", .number label]
  | branch condition label =>
    .word "if" :: .mark .openParen :: (condition.tokens ++
      [.mark .closeParen, .word "goto", .number label])
  | ret none => [.word "return"]
  | ret (some value) => .word "return" :: value.tokens

/-- The tokens of a statement. -/
def tokens (s : Statement) : List Token :=
  s.bodyTokens ++ [.mark .semicolon]

/-- A statement is **well formed** if its expressions are, and if it assigns to an identifier that
is no keyword. -/
def WellFormed : Statement → Prop
  | assign target value => Token.isIdentifier target ∧ target ∉ keywords ∧ value.WellFormed
  | goto _ => True
  | branch condition _ => condition.WellFormed
  | ret value => ∀ e ∈ value, e.WellFormed

/-- The item that a statement stands for if labels are addresses. -/
def toItem (s : Statement) (address : Nat) : Item :=
  match s with
  | assign target value => { address, statements := [⟨{ name := target }, value⟩] }
  | goto label => { address, terminator := .jump label }
  | branch condition label => { address, terminator := .branch condition label }
  | ret value => { address, terminator := .ret value }

/-- A statement is **placed** in a listing of the given length if it is well formed and its label is
an address there. -/
def Placed (count : Nat) (s : Statement) : Prop :=
  s.WellFormed ∧ ∀ label ∈ s.label?, label < count

end Statement

/-- **Well-formed items** are those of statements that are placed. -/
theorem wellFormed_item_iff {count : Nat} {item : Item} : item.WellFormed count ↔
    ∃ s : Statement, s.Placed count ∧ s.toItem item.address = item := by
  constructor
  · intro h
    obtain ⟨address, statements, terminator⟩ := item
    rw [Item.WellFormed] at h
    split at h
    · rename_i s hstatements hterminator
      obtain ⟨⟨name, version⟩, value⟩ := s
      obtain ⟨rfl, hname, hkeyword, hvalue⟩ := h
      obtain ⟨rfl, rfl⟩ := And.intro hstatements hterminator
      exact ⟨.assign name value, ⟨⟨hname, hkeyword, hvalue⟩, by simp [Statement.label?]⟩, rfl⟩
    · rename_i target hstatements hterminator
      obtain ⟨rfl, rfl⟩ := And.intro hstatements hterminator
      exact ⟨.goto target, ⟨trivial, by simpa [Statement.label?] using h⟩, rfl⟩
    · rename_i condition target hstatements hterminator
      obtain ⟨rfl, rfl⟩ := And.intro hstatements hterminator
      exact ⟨.branch condition target, ⟨h.1, by simpa [Statement.label?] using h.2⟩, rfl⟩
    · rename_i value hstatements hterminator
      obtain ⟨rfl, rfl⟩ := And.intro hstatements hterminator
      exact ⟨.ret value, ⟨h, by simp [Statement.label?]⟩, rfl⟩
    · exact h.elim
  · rintro ⟨s, ⟨hs, hlabel⟩, heq⟩
    rw [← heq]
    cases s with
    | assign target value => exact ⟨rfl, hs⟩
    | goto label => exact hlabel label rfl
    | branch condition label => exact ⟨hs, hlabel label rfl⟩
    | ret value => exact hs

/-- The items of statements, the first of which stands at the given address. -/
def itemsOf (statements : List Statement) (address : Nat) : List Item :=
  (statements.zipIdx address).map fun x => x.1.toItem x.2

@[simp]
theorem length_itemsOf (statements : List Statement) (address : Nat) :
    (itemsOf statements address).length = statements.length := by
  simp [itemsOf]

theorem itemsOf_cons (s : Statement) (statements : List Statement) (address : Nat) :
    itemsOf (s :: statements) address = s.toItem address :: itemsOf statements (address + 1) := by
  simp [itemsOf]

/-- A statement stands at its address. -/
@[simp]
theorem address_toItem (s : Statement) (address : Nat) : (s.toItem address).address = address := by
  cases s <;> rfl

/-- Items at consecutive addresses, and the statements they stand for. -/
theorem placed_iff {count address : Nat} {items : List Item} :
    (∀ x ∈ items.zipIdx address, x.1.address = x.2 ∧ x.1.WellFormed count) ↔
      ∃ statements : List Statement, itemsOf statements address = items ∧
        ∀ s ∈ statements, s.Placed count := by
  induction items generalizing address with
  | nil =>
      refine ⟨fun _ => ⟨[], rfl, by simp⟩, fun _ => by simp⟩
  | cons item items ih =>
      rw [List.zipIdx_cons, List.forall_mem_cons, ih]
      constructor
      · rintro ⟨⟨haddress, hitem⟩, statements, hitems, hplaced⟩
        obtain rfl : item.address = address := haddress
        obtain ⟨s, hs, heq⟩ := wellFormed_item_iff.mp hitem
        refine ⟨s :: statements, ?_, List.forall_mem_cons.mpr ⟨hs, hplaced⟩⟩
        rw [itemsOf_cons, heq, hitems]
      · rintro ⟨statements, hitems, hplaced⟩
        cases statements with
        | nil => cases hitems
        | cons s statements =>
            rw [itemsOf_cons] at hitems
            obtain ⟨rfl, htail⟩ := List.cons.inj hitems
            obtain ⟨hs, hplaced⟩ := List.forall_mem_cons.mp hplaced
            refine ⟨⟨address_toItem s address, wellFormed_item_iff.mpr ⟨s, hs, ?_⟩⟩,
              statements, htail, hplaced⟩
            rw [address_toItem]

/-- **Well-formed listings** are those of statements that are placed. -/
theorem wellFormed_iff {items : List Item} : WellFormed items ↔
    ∃ statements : List Statement, itemsOf statements 0 = items ∧
      ∀ s ∈ statements, s.Placed statements.length := by
  refine placed_iff.trans (exists_congr fun statements => and_congr_right fun hitems => ?_)
  rw [← hitems, length_itemsOf]

/-! ### The tokens of a listing -/

open Token (Phrase endsToken endsMark)

/-- **The text of a statement spells its tokens.** -/
theorem phrase_statement {s : Statement} (hs : s.WellFormed)
    (hlabel : ∀ label ∈ s.label?, label < Numeral.wordBound) (address : Nat) :
    Phrase endsMark (s.toItem address).render.toList s.tokens := by
  have hgoto : Phrase endsToken "goto".toList [.word "goto"] := Token.phrase_word (by decide)
  cases s with
  | assign target value =>
      have hphrase := (((((Token.phrase_word hs.1).blank (by decide)).mark .assign rfl).blank
        (by decide)).phrase (Expr.phrase_render hs.2.2.1) (by simp)).mark .semicolon rfl
      have htext : ((Statement.assign target value).toItem address).render.toList =
          target.toList ++ [' '] ++ Punct.assign.chars ++ [' '] ++ value.render.toList ++
            Punct.semicolon.chars := by
        simp [Statement.toItem, Item.render, Assignment.render, Var.render, Terminator.isFall,
          Punct.chars]
      rw [htext]
      exact hphrase
  | goto label =>
      have hphrase := ((hgoto.blank (by decide)).phrase (Token.phrase_number (hlabel label rfl))
        (by simp)).mark .semicolon rfl
      have htext : ((Statement.goto label).toItem address).render.toList =
          "goto".toList ++ [' '] ++ (toString label).toList ++ Punct.semicolon.chars := by
        simp [Statement.toItem, Item.render, Terminator.render, Terminator.isFall, Punct.chars]
      rw [htext]
      exact hphrase
  | branch condition label =>
      have hif : Phrase endsToken "if".toList [.word "if"] := Token.phrase_word (by decide)
      have hcondition := ((((hif.blank (by decide)).mark .openParen rfl).phrase
        (Expr.phrase_render hs.1) fun _ hc => hc).mark .closeParen rfl).blank (by decide)
      have hphrase := (((hcondition.phrase hgoto (by simp)).blank (by decide)).phrase
        (Token.phrase_number (hlabel label rfl)) (by simp)).mark .semicolon rfl
      have htext : ((Statement.branch condition label).toItem address).render.toList =
          "if".toList ++ [' '] ++ Punct.openParen.chars ++ condition.render.toList ++
            Punct.closeParen.chars ++ [' '] ++ "goto".toList ++ [' '] ++ (toString label).toList ++
              Punct.semicolon.chars := by
        simp [Statement.toItem, Item.render, Terminator.render, Terminator.isFall, Punct.chars]
      have htokens : (Statement.branch condition label).tokens = [Token.word "if"] ++
          [Token.mark .openParen] ++ condition.tokens ++ [Token.mark .closeParen] ++
            [Token.word "goto"] ++ [Token.number label] ++ [Token.mark .semicolon] := by
        simp [Statement.tokens, Statement.bodyTokens]
      rw [htext, htokens]
      exact hphrase
  | ret value =>
      have hreturn : Phrase endsToken "return".toList [.word "return"] :=
        Token.phrase_word (by decide)
      cases value with
      | none =>
          have htext : ((Statement.ret none).toItem address).render.toList =
              "return".toList ++ Punct.semicolon.chars := by
            simp [Statement.toItem, Item.render, Terminator.render, Terminator.isFall, Punct.chars]
          rw [htext]
          exact hreturn.mark .semicolon rfl
      | some value =>
          have hphrase := ((hreturn.blank (by decide)).phrase
            (Expr.phrase_render (hs value rfl).1) (by simp)).mark .semicolon rfl
          have htext : ((Statement.ret (some value)).toItem address).render.toList =
              "return".toList ++ [' '] ++ value.render.toList ++ Punct.semicolon.chars := by
            simp [Statement.toItem, Item.render, Terminator.render, Terminator.isFall, Punct.chars]
          rw [htext]
          exact hphrase

/-- The tokens of a listing, one statement a line. -/
def lineTokens (line address : Nat) : List Statement → List Located
  | [] => []
  | s :: statements =>
    onLine line (.number address :: .mark .colon :: s.tokens) ++
      lineTokens (line + 1) (address + 1) statements

/-- **The scanner finds the tokens of a printed listing** line by line. -/
theorem scan_print {statements : List Statement} (hstatements : ∀ s ∈ statements, s.WellFormed ∧
      ∀ label ∈ s.label?, label < Numeral.wordBound) {address : Nat}
    (hbound : address + statements.length ≤ Numeral.wordBound) (line : Nat) :
    Token.scan line (print (itemsOf statements address)).toList =
      .ok (lineTokens line address statements) := by
  induction statements generalizing address line with
  | nil => rw [show (print (itemsOf [] address)).toList = [] from rfl, Token.scan]; rfl
  | cons s statements ih =>
      obtain ⟨⟨hs, hlabel⟩, hrest⟩ := List.forall_mem_cons.mp hstatements
      rw [List.length_cons] at hbound
      have hphrase := (((Token.phrase_number (n := address) (by omega)).mark .colon rfl).blank
        (by decide)).phrase (phrase_statement hs hlabel address) (by simp)
      have htext : (print (itemsOf (s :: statements) address)).toList =
          (toString address).toList ++ Punct.colon.chars ++ [' '] ++
            (s.toItem address).render.toList ++
              ('\n' :: (print (itemsOf statements (address + 1))).toList) := by
        simp [print, itemsOf_cons, Punct.chars]
      rw [htext, hphrase.spells line _ (by simp; decide), Token.scan_newline,
        ih hrest (by omega) (line + 1)]
      rfl

/-! ### Parsing -/

/-- A well-formed statement is **derived from its tokens**. -/
theorem Statement.WellFormed.derives {s : Statement} (h : s.WellFormed) :
    DerivesBody s.bodyTokens s := by
  cases s with
  | assign target value => exact .assign h.2.1 h.2.2.derives
  | goto label => exact .goto label
  | branch condition label => exact .branch label (Expr.WellFormed.derives h)
  | ret value =>
      cases value with
      | none => exact .ret
      | some value => exact .retValue (h value rfl).derives

/-- The rows of a listing whose labels are addresses. -/
def rowsOf (statements : List Statement) (address : Nat) : List Row :=
  (statements.zipIdx address).map fun x => ⟨[x.2], x.1⟩

/-- **The tokens of a printed listing** are those of its rows. -/
theorem derives_lineTokens {statements : List Statement}
    (hstatements : ∀ s ∈ statements, s.WellFormed) (line address : Nat) :
    DerivesRows ((lineTokens line address statements).map (·.token))
      (rowsOf statements address) := by
  induction statements generalizing line address with
  | nil => exact .nil
  | cons s statements ih =>
      obtain ⟨hs, hrest⟩ := List.forall_mem_cons.mp hstatements
      have htokens : (lineTokens line address (s :: statements)).map (·.token) =
          labelTokens [address] ++ (s.bodyTokens ++ .mark .semicolon ::
            (lineTokens (line + 1) (address + 1) statements).map (·.token)) := by
        simp [lineTokens, onLine, labelTokens, Statement.tokens, Function.comp_def]
      rw [htokens]
      exact .cons [address] hs.derives (ih hrest (line + 1) (address + 1))

/-- The labels of a printed listing are its addresses. -/
theorem labelsOf_rowsOf (statements : List Statement) :
    labelsOf (rowsOf statements 0) = List.range statements.length := by
  rw [labelsOf, rowsOf, List.flatMap_map, ← List.map_eq_flatMap, List.range_eq_range']
  exact List.zipIdx_map_snd 0 statements

/-- Every row of a printed listing carries its own index. -/
theorem carries_rowsOf {statements : List Statement} {index : Nat}
    (h : index < statements.length) : Carries (rowsOf statements 0) index index := by
  refine ⟨⟨[index], statements[index]⟩, ?_, List.mem_singleton_self index⟩
  simp [rowsOf, h]

/-- **The rows of a printed listing** denote its items. -/
theorem denoted_itemsOf {statements : List Statement}
    (hstatements : ∀ s ∈ statements, s.Placed statements.length) :
    Denoted (rowsOf statements 0) (itemsOf statements 0) := by
  have hmap : (rowsOf statements 0).map (·.statement) = statements := by
    simp [rowsOf, Function.comp_def]
  rw [Denoted, hmap, itemsOf, List.forall₂_map_right_iff, List.forall₂_same]
  intro x hx
  obtain ⟨-, hlabel⟩ := hstatements x.1 (List.fst_mem_of_mem_zipIdx hx)
  obtain ⟨s, address⟩ := x
  cases s with
  | assign target value => exact .assign target value
  | goto label => exact .goto (carries_rowsOf (hlabel label rfl))
  | branch condition label => exact .branch condition (carries_rowsOf (hlabel label rfl))
  | ret value => exact .ret value

/-- **Parsing what has been printed** gives the items back. -/
theorem parse_print {items : List Item} (h : WellFormed items)
    (hbound : items.length ≤ Numeral.wordBound) : parse (print items) = .ok items := by
  obtain ⟨statements, rfl, hplaced⟩ := wellFormed_iff.mp h
  rw [length_itemsOf] at hbound
  have hscan : Token.scanText (print (itemsOf statements 0)) = .ok (lineTokens 1 0 statements) := by
    refine scan_print (fun s hs => ⟨(hplaced s hs).1, fun label hlabel => ?_⟩) (by omega) 1
    have := (hplaced s hs).2 label hlabel
    omega
  rw [parse_eq_ofTokens hscan, ofTokens_eq_ok_iff]
  refine ⟨rowsOf statements 0, derives_lineTokens (fun s hs => (hplaced s hs).1) 1 0, ?_,
    denoted_itemsOf hplaced⟩
  rw [labelsOf_rowsOf]
  exact List.nodup_range

/-! ### What parsing gives -/

/-- A statement that is **derived** is well formed, if words are identifiers. -/
theorem DerivesBody.wellFormed {ts : List Token} {s : Statement} (h : DerivesBody ts s)
    (hwords : ∀ name, .word name ∈ ts → Token.isIdentifier name) : s.WellFormed := by
  have hexpr : ∀ {us e}, DerivesExpr maxNesting 1 us e → us ⊆ ts → e.WellFormed :=
    fun he hsub => (he.fits (by decide) fun name hname => hwords name (hsub hname)).mono
      (Nat.zero_le 1)
  cases h with
  | assign htarget h =>
      exact ⟨hwords _ List.mem_cons_self, htarget, hexpr h fun t ht =>
        List.mem_cons_of_mem _ (List.mem_cons_of_mem _ ht)⟩
  | goto label => trivial
  | branch label h =>
      exact hexpr h fun t ht =>
        List.mem_cons_of_mem _ (List.mem_cons_of_mem _ (List.mem_append_left _ ht))
  | ret => simp [Statement.WellFormed]
  | retValue h =>
      rintro _ ⟨⟩
      exact hexpr h fun t ht => List.mem_cons_of_mem _ ht

/-- The statements of rows are derived from some of the tokens. -/
theorem DerivesRows.exists_body {ts : List Token} {rows : List Row} (h : DerivesRows ts rows)
    {row : Row} (hrow : row ∈ rows) : ∃ us, us ⊆ ts ∧ DerivesBody us row.statement := by
  induction h with
  | nil => cases hrow
  | @cons ts us s rows labels h hrest ih =>
      rcases List.mem_cons.mp hrow with rfl | hrow
      · exact ⟨ts, fun t ht => List.mem_append_right _ (List.mem_append_left _ ht), h⟩
      · obtain ⟨vs, hsub, hbody⟩ := ih hrow
        exact ⟨vs, fun t ht => List.mem_append_right _ (List.mem_append_right _
          (List.mem_cons_of_mem _ (hsub ht))), hbody⟩

/-- What a well-formed statement denotes is well formed. -/
theorem Denotes.wellFormed {rows : List Row} {address : Nat} {s : Statement} {item : Item}
    (h : Denotes rows address s item) (hs : s.WellFormed) : item.WellFormed rows.length := by
  have hlt : ∀ {label index}, Carries rows label index → index < rows.length := by
    rintro label index ⟨row, hrow, -⟩
    exact (List.getElem?_eq_some_iff.mp hrow).1
  cases h with
  | assign target value => exact ⟨rfl, hs⟩
  | goto h => exact hlt h
  | branch condition h => exact ⟨hs, hlt h⟩
  | ret value => exact hs

/-- **What has been parsed is well formed.** -/
theorem wellFormed_of_parse {text : String} {items : List Item} (h : parse text = .ok items) :
    WellFormed items := by
  rw [parse, bind_eq_ok_iff] at h
  obtain ⟨tokens, hscan, h⟩ := h
  obtain ⟨rows, hrows, -, hdenoted⟩ := ofTokens_eq_ok_iff.mp h
  have hwords : ∀ name, .word name ∈ tokens.map (·.token) → Token.isIdentifier name := by
    intro name hname
    obtain ⟨t, ht, heq⟩ := List.mem_map.mp hname
    exact Token.word_of_scan (show Token.scan 1 text.toList = .ok tokens from hscan) t ht name heq
  obtain ⟨hlength, hget⟩ := hdenoted.getElem?
  rintro ⟨item, i⟩ hitem
  have hitem : items[i]? = some item := List.mem_zipIdx_iff_getElem?.mp hitem
  obtain ⟨row, hrow⟩ : ∃ row, rows[i]? = some row :=
    ⟨_, List.getElem?_eq_getElem (hlength ▸ (List.getElem?_eq_some_iff.mp hitem).1)⟩
  obtain ⟨item', hitem', hdenotes⟩ := hget i row hrow
  obtain rfl : item' = item := Option.some.inj (hitem'.symm.trans hitem)
  obtain ⟨us, hsub, hbody⟩ := hrows.exists_body (List.mem_of_getElem? hrow)
  rw [hlength]
  exact ⟨hdenotes.address_eq,
    hdenotes.wellFormed (hbody.wellFormed fun name hname => hwords name (hsub hname))⟩

/-- **Printing and parsing are inverse to each other.** Parsing gives back every well-formed listing
from its text, and it gives well-formed listings only, so that a listing that has been parsed can be
printed and parsed again. Addresses have to be words, which is what labels can spell. -/
theorem parse_inverts_print :
    (∀ items, WellFormed items → items.length ≤ Numeral.wordBound →
      parse (print items) = .ok items) ∧
    (∀ text items, parse text = .ok items → WellFormed items) ∧
    ∀ text items, parse text = .ok items → items.length ≤ Numeral.wordBound →
      parse (print items) = .ok items :=
  ⟨fun _ => parse_print, fun _ _ => wellFormed_of_parse,
    fun _ _ h => parse_print (wellFormed_of_parse h)⟩

/-- A listing with operators of all kinds, and with variables that are named like keywords. -/
def knots : List Item := [
  { address := 0,
    statements := [⟨⟨"x", none⟩, .binary .sub (.var ⟨"a", none⟩)
      (.binary .sub (.imm 7) (.unary .neg (.binary .mul (.var ⟨"b_1", none⟩)
        (.unary .complement (.var ⟨"c", none⟩)))))⟩] },
  { address := 1,
    terminator := .branch (.binary .logicalAnd (.binary .lt (.var ⟨"x", none⟩) (.imm 0))
      (.unary .logicalNot (.var ⟨"if", none⟩))) 0 },
  { address := 2, terminator := .jump 1 },
  { address := 3, terminator := .ret (some (.var ⟨"return", none⟩)) }]

/-- The listing of knots is parsed back from its text. -/
theorem parse_inverts_print_knots : WellFormed knots ∧ knots.length ≤ Numeral.wordBound ∧
    print knots = "0: x = a - (7 - -(b_1 * ~c));\n1: if (x < 0 && !if) goto 0;\n2: goto 1;\n" ++
      "3: return return;\n" ∧
    parse (print knots) = .ok knots := by
  have hformed : WellFormed knots := by decide
  have hlength : knots.length ≤ Numeral.wordBound := by decide
  exact ⟨hformed, hlength, by decide +kernel, parse_inverts_print.1 knots hformed hlength⟩

end Listing

end FlowForm
