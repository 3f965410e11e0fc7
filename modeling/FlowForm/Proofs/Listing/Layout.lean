import Mathlib
import FlowForm.Proofs.Listing.Spelling

/-!
# Tokens and the Text Between Them

A text is laid out as tokens with gaps between them. `Divides` says what the scanner has to find in
a text, without the scanner: each token is spelled in one of the ways it has, gaps are blanks and
comments, a token is as long as it can be, and its line is told by the line breaks before it. The
scanner finds some tokens in a text if and only if the text divides into these tokens
(`scan_eq_ok_iff`), so there is one way at most to divide a text.

Where tokens are kept apart by **separators**, which start with a blank, no token can be longer than
it has been written, however it is spelled. So the scanner finds what has been written
(`Writes.divides`).

## Main results

* `Numeral.word?_eq_some_iff`: the strings of digits that are read as a number.
* `scan_eq_ok_iff`: the scanner divides a text into tokens.
* `scanText_inverts_writing`: what has been written is found.
-/

namespace FlowForm

/-! ### Numbers -/

namespace Numeral

/-- The digits in their order, letters in lower case. -/
def lowerDigits : List Char :=
  ['0', '1', '2', '3', '4', '5', '6', '7', '8', '9', 'a', 'b', 'c', 'd', 'e', 'f']

/-- The digits in their order, letters in upper case. -/
def upperDigits : List Char :=
  ['0', '1', '2', '3', '4', '5', '6', '7', '8', '9', 'A', 'B', 'C', 'D', 'E', 'F']

/-- A character **stands for** a digit of the given base, in either case. -/
def StandsFor (base : Nat) (c : Char) (value : Nat) : Prop :=
  value < base ∧ (lowerDigits[value]? = some c ∨ upperDigits[value]? = some c)

/-- A string of digits **has a value** in the given base, most significant digit first. It may start
with zeros, and is not empty. -/
def HasValue (base : Nat) (digits : List Char) (n : Nat) : Prop :=
  digits ≠ [] ∧ ∃ values, List.Forall₂ (StandsFor base) digits values ∧
    Nat.ofDigits base values.reverse = n

/-- Digits stand at their positions, by the codes of the characters. -/
theorem standsFor_sixteen {c : Char} {value : Nat} : StandsFor 16 c value ↔
    48 ≤ c.toNat ∧ c.toNat ≤ 57 ∧ value = c.toNat - 48 ∨
      97 ≤ c.toNat ∧ c.toNat ≤ 102 ∧ value = c.toNat - 87 ∨
      65 ≤ c.toNat ∧ c.toNat ≤ 70 ∧ value = c.toNat - 55 := by
  constructor
  · rintro ⟨hlt, h⟩
    interval_cases value <;> rcases h with h | h <;> cases h <;> decide
  · rw [← Char.ofNat_toNat c]
    rintro (⟨hlower, hupper, rfl⟩ | ⟨hlower, hupper, rfl⟩ | ⟨hlower, hupper, rfl⟩)
    all_goals
      rw [Char.ofNat_toNat] at hlower hupper
      generalize c.toNat = k at hlower hupper
      interval_cases k <;> simp [StandsFor, lowerDigits, upperDigits]

/-- **The value of a digit** is what it stands for. -/
theorem digit?_eq_some_iff {base : Nat} (hbase : base ≤ 16) {c : Char} {value : Nat} :
    digit? base c = some value ↔ StandsFor base c value := by
  have hstands : StandsFor base c value ↔ StandsFor 16 c value ∧ value < base :=
    ⟨fun h => ⟨⟨h.1.trans_le hbase, h.2⟩, h.1⟩, fun h => ⟨h.2, h.1.2⟩⟩
  have hdecimal : ('0' ≤ c ∧ c ≤ '9') = (48 ≤ c.toNat ∧ c.toNat ≤ 57) := rfl
  have hlower : ('a' ≤ c ∧ c ≤ 'f') = (97 ≤ c.toNat ∧ c.toNat ≤ 102) := rfl
  have hupper : ('A' ≤ c ∧ c ≤ 'F') = (65 ≤ c.toNat ∧ c.toNat ≤ 70) := rfl
  rw [hstands, standsFor_sixteen, digit?, Option.filter_eq_some_iff, decide_eq_true_eq]
  refine and_congr_left fun _ => ?_
  simp only [hdecimal, hlower, hupper]
  split_ifs <;> simp only [Option.some.injEq, false_iff] <;> omega

/-- The value of a string of digits, added to that of the digits before. -/
theorem foldlM_digit?_eq_some_iff {base : Nat} (hbase : base ≤ 16) {digits : List Char}
    {m n : Nat} :
    digits.foldlM (fun n d => (digit? base d).map (base * n + ·)) m = some n ↔
      ∃ values, List.Forall₂ (StandsFor base) digits values ∧
        values.foldl (fun n value => base * n + value) m = n := by
  induction digits generalizing m with
  | nil => simp
  | cons c digits ih =>
      rw [List.foldlM_cons, Option.bind_eq_bind, Option.bind_eq_some_iff]
      simp only [Option.map_eq_some_iff, digit?_eq_some_iff hbase, ih, List.forall₂_cons_left_iff]
      constructor
      · rintro ⟨-, ⟨value, hvalue, rfl⟩, values, hvalues, hn⟩
        exact ⟨value :: values, ⟨value, values, hvalue, hvalues, rfl⟩, hn⟩
      · rintro ⟨-, ⟨value, values, hvalue, hvalues, rfl⟩, hn⟩
        exact ⟨_, ⟨value, hvalue, rfl⟩, values, hvalues, hn⟩

/-- **The strings of digits that are read as a word.** -/
theorem word?_eq_some_iff {base : Nat} (hbase : base ≤ 16) {digits : List Char} {n : Nat} :
    word? base digits = some n ↔ HasValue base digits n ∧ n < wordBound := by
  rw [word?, Option.filter_eq_some_iff, decide_eq_true_eq, HasValue]
  refine and_congr_left fun _ => ?_
  cases digits with
  | nil => simp [ofDigits?]
  | cons c digits =>
      rw [ofDigits?, foldlM_digit?_eq_some_iff hbase]
      simp only [Nat.ofDigits_eq_foldr, List.foldr_reverse, Nat.cast_id, ne_eq, reduceCtorEq,
        not_false_eq_true, true_and, Nat.add_comm]

/-- What holds of all digits of a base holds of the characters of a number. -/
theorem HasValue.forall_mem {base : Nat} {digits : List Char} {n : Nat} {p : Char → Prop}
    (h : HasValue base digits n) (hp : ∀ c value, StandsFor base c value → p c) :
    ∀ c ∈ digits, p c := by
  obtain ⟨-, values, hvalues, -⟩ := h
  induction hvalues with
  | nil => simp
  | cons hvalue _ ih => exact List.forall_mem_cons.mpr ⟨hp _ _ hvalue, ih⟩

/-- Decimal digits. -/
theorem StandsFor.isDigit {c : Char} {value : Nat} (h : StandsFor 10 c value) : c.isDigit := by
  obtain ⟨hlt, h⟩ := h
  interval_cases value <;> rcases h with h | h <;> cases h <;> rfl

/-- All digits are digits or letters. -/
theorem StandsFor.isAlphanum {c : Char} {value : Nat} (h : StandsFor 16 c value) :
    c.isAlphanum := by
  obtain ⟨hlt, h⟩ := h
  interval_cases value <;> rcases h with h | h <;> cases h <;> rfl

end Numeral

namespace Token

/-! ### Layouts -/

/-- The blanks. -/
def blanks : List Char :=
  [' ', '\t', '\n', '\x0c', '\r']

/-- The ways to **spell** a token. -/
inductive Spelling : Token → List Char → Prop
  | decimal {n : Nat} {digits : List Char} (hvalue : Numeral.HasValue 10 digits n)
      (hn : n < 2 ^ 64) : Spelling (.number n) digits
  | hexadecimal {n : Nat} {digits : List Char} {marker : Char} (hmarker : marker ∈ ['x', 'X'])
      (hvalue : Numeral.HasValue 16 digits n) (hn : n < 2 ^ 64) :
      Spelling (.number n) ('0' :: marker :: digits)
  | word {name : String} (hname : isIdentifier name) : Spelling (.word name) name.toList
  | mark (p : Punct) : Spelling (.mark p) p.chars

/-- A **gap** between tokens: blanks, and comments that are ended by a line break. -/
inductive Gap : List Char → Prop
  | nil : Gap []
  | blank {c : Char} {gap : List Char} (hblank : c ∈ blanks) (hgap : Gap gap) : Gap (c :: gap)
  | comment {body gap : List Char} (hbody : '\n' ∉ body) (hgap : Gap gap) :
      Gap ('/' :: '/' :: (body ++ '\n' :: gap))

/-- The line of what stands behind the given text. -/
def lineAfter (before : List Char) : Nat :=
  1 + before.count '\n'

/-- A text **writes** tokens if it spells them in order and has a separator between neighbours: a
gap that starts with a blank. Each token has the line that the text before it leads to, `before`
being what precedes the text itself. -/
inductive Writes : List Char → List Char → List Located → Prop
  | nil {before : List Char} : Writes before [] []
  | last {before cs : List Char} {t : Token} (hspelling : Spelling t cs) :
      Writes before cs [⟨t, lineAfter before⟩]
  | next {before cs gap text : List Char} {c : Char} {t : Token} {ts : List Located}
      (hspelling : Spelling t cs) (hblank : c ∈ blanks) (hgap : Gap gap)
      (hwrites : Writes (before ++ cs ++ c :: gap) text ts) :
      Writes before (cs ++ c :: gap ++ text) (⟨t, lineAfter before⟩ :: ts)

/-- A token **ends** before a text if the first character of the text cannot make it longer: it
belongs to no word or number, and makes neither another mark nor a comment of a mark. -/
def Ends : Token → List Char → Prop
  | .number _, rest => ∀ c ∈ rest.head?, c.isAlphanum = false
  | .word _, rest => ∀ c ∈ rest.head?, continuesWord c = false
  | .mark p, rest => ∀ c ∈ rest.head?,
      (∀ q : Punct, q.chars ≠ p.chars ++ [c]) ∧ ¬ (p = .slash ∧ c = '/')

/-- A text **divides** into tokens that are as long as they can be, with gaps before them. Behind
the last token there is a gap, and maybe a comment that is not ended. -/
inductive Divides : List Char → List Char → List Located → Prop
  | rest {before gap : List Char} (hgap : Gap gap) : Divides before gap []
  | comment {before gap body : List Char} (hgap : Gap gap) (hbody : '\n' ∉ body) :
      Divides before (gap ++ '/' :: '/' :: body) []
  | token {before gap cs text : List Char} {t : Token} {ts : List Located} (hgap : Gap gap)
      (hspelling : Spelling t cs) (hends : Ends t text)
      (hdivides : Divides (before ++ gap ++ cs) text ts) :
      Divides before (gap ++ cs ++ text) (⟨t, lineAfter (before ++ gap)⟩ :: ts)

/-! ### Gaps -/

/-- The blanks are those that the scanner skips. -/
theorem isBlank_iff {c : Char} : isBlank c = true ↔ c ∈ blanks := by
  simp [isBlank, blanks, or_assoc]

/-- Two gaps are a gap. -/
theorem Gap.append {gap gap' : List Char} (h : Gap gap) (h' : Gap gap') : Gap (gap ++ gap') := by
  induction h with
  | nil => exact h'
  | blank hblank _ ih => exact .blank hblank ih
  | @comment body gap hbody _ ih =>
      rw [List.cons_append, List.cons_append, List.append_assoc, List.cons_append]
      exact .comment hbody ih

/-- The scanner goes on behind a comment at the line break that ends it. -/
theorem scan_comment (line : Nat) {body : List Char} (hbody : '\n' ∉ body) (rest : List Char)
    (hrest : ∀ c ∈ rest.head?, c = '\n') :
    scan line ('/' :: '/' :: (body ++ rest)) = scan line rest := by
  rw [scan, skipComment, (takeWhile_append_of_head (fun c hc => ?_) fun c hc => ?_).2]
  · simpa using ne_of_mem_of_not_mem hc hbody
  · simpa using hrest c hc

/-- **The scanner skips gaps** and counts their line breaks. -/
theorem scan_gap {gap : List Char} (h : Gap gap) (line : Nat) (rest : List Char) :
    scan line (gap ++ rest) = scan (line + gap.count '\n') rest := by
  induction h generalizing line with
  | nil => rfl
  | @blank c gap hblank _ ih =>
      rw [List.cons_append, List.count_cons]
      by_cases hc : c = '\n'
      · rw [hc, scan_newline, ih, beq_self_eq_true, if_pos rfl, Nat.add_assoc, Nat.add_comm 1]
      · rw [scan_blank line (isBlank_iff.mpr hblank) hc, ih, beq_false_of_ne hc]
        rfl
  | @comment body gap hbody _ ih =>
      rw [List.cons_append, List.cons_append, List.append_assoc, List.cons_append,
        scan_comment line hbody _ (by simp), scan_newline, ih]
      simp [List.count_eq_zero.mpr hbody, Nat.add_comm, Nat.add_left_comm]

/-! ### Tokens -/

/-- **The spellings of a number** are the texts that are read as the number. -/
theorem spelling_number_iff {n : Nat} {cs : List Char} :
    Spelling (.number n) cs ↔ Numeral.literal? cs = some n := by
  constructor
  · intro h
    cases h with
    | decimal hvalue hn =>
        rw [Numeral.literal?_of_isDigit (hvalue.forall_mem fun _ _ h => h.isDigit)]
        exact (Numeral.word?_eq_some_iff (by decide)).mpr ⟨hvalue, hn⟩
    | hexadecimal hmarker hvalue hn =>
        have hword := (Numeral.word?_eq_some_iff (by decide)).mpr ⟨hvalue, hn⟩
        simp only [List.mem_cons, List.not_mem_nil, or_false] at hmarker
        rcases hmarker with rfl | rfl
        · exact hword
        · exact hword
  · intro h
    rw [Numeral.literal?, Numeral.based?.eq_def] at h
    split at h
    · obtain ⟨hvalue, hn⟩ := (Numeral.word?_eq_some_iff (by decide)).mp h
      exact .hexadecimal (by decide) hvalue hn
    · obtain ⟨hvalue, hn⟩ := (Numeral.word?_eq_some_iff (by decide)).mp h
      exact .hexadecimal (by decide) hvalue hn
    · obtain ⟨hvalue, hn⟩ := (Numeral.word?_eq_some_iff (by decide)).mp h
      exact .decimal hvalue hn

/-- A number starts with a digit, and goes on with digits and letters. -/
theorem Spelling.exists_digit {n : Nat} {cs : List Char} (h : Spelling (.number n) cs) :
    ∃ c rest, cs = c :: rest ∧ c.isDigit ∧ ∀ x ∈ rest, x.isAlphanum := by
  cases h with
  | decimal hvalue hn =>
      have hdigits := hvalue.forall_mem fun _ _ h => h.isDigit
      obtain ⟨c, rest, rfl⟩ := List.exists_cons_of_ne_nil hvalue.1
      refine ⟨c, rest, rfl, hdigits c (List.mem_cons_self ..), fun x hx => ?_⟩
      rw [Char.isAlphanum, hdigits x (List.mem_cons_of_mem _ hx), Bool.or_true]
  | @hexadecimal _ digits marker hmarker hvalue hn =>
      refine ⟨'0', marker :: digits, rfl, rfl, List.forall_mem_cons.mpr ⟨?_, ?_⟩⟩
      · simp only [List.mem_cons, List.not_mem_nil, or_false] at hmarker
        rcases hmarker with rfl | rfl <;> rfl
      · exact hvalue.forall_mem fun _ _ h => h.isAlphanum

/-- A word starts with what words start with, and goes on with what words go on with. -/
theorem Spelling.exists_letter {name : String} {cs : List Char} (h : Spelling (.word name) cs) :
    ∃ c rest, cs = c :: rest ∧ name = String.ofList (c :: rest) ∧ startsWord c ∧
      ∀ x ∈ rest, continuesWord x := by
  cases h with
  | word hname =>
      simp only [isIdentifier] at hname
      split at hname
      · cases hname
      · rename_i c rest hlist
        simp only [Bool.and_eq_true, List.all_eq_true] at hname
        exact ⟨c, rest, hlist, by rw [← hlist, String.ofList_toList], hname.1, hname.2⟩

/-- No blank belongs to a token. -/
theorem Spelling.not_mem_blanks {t : Token} {cs : List Char} (h : Spelling t cs) :
    ∀ c ∈ blanks, c ∉ cs := by
  have hword : ∀ {x : Char}, continuesWord x → x ∉ blanks := fun hx hblank => by
    rw [← isBlank_iff, (isBlank_of_continuesWord hx).1] at hblank
    cases hblank
  intro c hc hmem
  cases t with
  | number n =>
      obtain ⟨d, rest, rfl, hdigit, hrest⟩ := h.exists_digit
      refine hword (x := c) ?_ hc
      rcases List.mem_cons.mp hmem with rfl | hmem
      · simp [continuesWord, Char.isAlphanum, hdigit]
      · simp [continuesWord, hrest c hmem]
  | word name =>
      obtain ⟨d, rest, rfl, -, hstarts, hrest⟩ := h.exists_letter
      refine hword (x := c) ?_ hc
      rcases List.mem_cons.mp hmem with rfl | hmem
      · exact continuesWord_of_startsWord hstarts
      · exact hrest c hmem
  | mark p =>
      cases h
      have hnone : (blanks.all fun c => !p.chars.contains c) = true := by
        cases p <;> rfl
      simpa [hmem] using List.all_eq_true.mp hnone c hc

/-- A blank ends every token. -/
theorem ends_blank {c : Char} (hc : c ∈ blanks) (t : Token) (text : List Char) :
    Ends t (c :: text) := by
  have hclass : c.isAlphanum = false ∧ continuesWord c = false ∧
      Punct.isExtension c = false ∧ c ≠ '/' := by
    simp only [blanks, List.mem_cons, List.not_mem_nil, or_false] at hc
    rcases hc with rfl | rfl | rfl | rfl | rfl <;> decide
  obtain ⟨halphanum, hcontinues, hextension, hslash⟩ := hclass
  cases t with
  | number n => simpa [Ends] using halphanum
  | word name => simpa [Ends] using hcontinues
  | mark p =>
      intro x hx
      obtain rfl : c = x := Option.some.inj hx
      exact ⟨fun q => p.chars_ne_append q hextension, fun h => hslash h.2⟩

/-- **What is spelled is found first**, if it ends there. -/
theorem Spelling.exists_first {t : Token} {cs text : List Char} (h : Spelling t cs)
    (hends : Ends t text) :
    ∃ c rest, cs = c :: rest ∧ first c (rest ++ text) = .ok (t, text) ∧ isBlank c = false ∧
      (c = '/' → (rest ++ text).head? ≠ some '/') := by
  cases t with
  | number n =>
      obtain ⟨c, rest, rfl, hdigit, hrest⟩ := h.exists_digit
      obtain ⟨hblank, hslash⟩ : isBlank c = false ∧ c ≠ '/' :=
        isBlank_of_continuesWord (by simp [continuesWord, Char.isAlphanum, hdigit])
      exact ⟨c, rest, rfl, first_number hdigit hrest hends (spelling_number_iff.mp h), hblank,
        fun hc => absurd hc hslash⟩
  | word name =>
      obtain ⟨c, rest, rfl, rfl, hstarts, hrest⟩ := h.exists_letter
      obtain ⟨hblank, hslash⟩ := isBlank_of_continuesWord (continuesWord_of_startsWord hstarts)
      exact ⟨c, rest, rfl, first_word hstarts hrest hends, hblank, fun hc => absurd hc hslash⟩
  | mark p =>
      cases h
      obtain ⟨c, rest, hchars, hfirst, hblank, hslash⟩ := first_mark fun c hc => (hends c hc).1
      refine ⟨c, rest, hchars, hfirst, hblank, fun hc hhead => ?_⟩
      obtain rfl := hslash hc
      obtain rfl : rest = [] := (List.cons.inj hchars).2.symm
      exact (hends '/' hhead).2 ⟨rfl, rfl⟩

/-- **What is found first is spelled** in some way, and ends there. -/
theorem spelling_of_first {c : Char} {cs text : List Char} {t : Token}
    (h : first c cs = .ok (t, text)) (hcomment : c = '/' → cs.head? ≠ some '/') :
    ∃ spelled, c :: cs = spelled ++ text ∧ Spelling t spelled ∧ Ends t text := by
  have hdropped : ∀ {p : Char → Bool}, ∀ x ∈ (cs.dropWhile p).head?, p x = false :=
    fun {p} x hx => by
      have := List.head?_dropWhile_not p cs
      rw [Option.mem_def.mp hx] at this
      simpa using this
  simp only [first] at h
  split at h
  · split at h
    · rename_i n hn
      cases h
      refine ⟨c :: cs.takeWhile Char.isAlphanum, ?_, spelling_number_iff.mpr hn, hdropped⟩
      rw [List.cons_append, List.takeWhile_append_dropWhile]
    · cases h
  · split at h
    · rename_i hstarts
      cases h
      refine ⟨c :: cs.takeWhile continuesWord, ?_, ?_, hdropped⟩
      · rw [List.cons_append, List.takeWhile_append_dropWhile]
      · have hword : isIdentifier (String.ofList (c :: cs.takeWhile continuesWord)) := by
          simp [isIdentifier, String.toList_ofList, hstarts, List.all_takeWhile]
        simpa using Spelling.word hword
    · split at h
      · rename_i p hp
        cases h
        obtain ⟨rest, hrest⟩ := (Punct.leading?_eq_some_iff.mp hp).1
        have hpos := List.length_pos_iff.mpr p.chars_ne_nil
        have htext : (c :: cs).drop p.chars.length = rest := by
          rw [← hrest, List.drop_left]
        rw [← Nat.sub_add_cancel hpos, List.drop_succ_cons] at htext
        rw [htext]
        rw [← hrest] at hp
        refine ⟨p.chars, hrest.symm, .mark p, fun x hx =>
          ⟨Punct.leading?_chars_append_iff.mp hp x hx, ?_⟩⟩
        rintro ⟨rfl, rfl⟩
        obtain ⟨rfl, rfl⟩ := List.cons.inj hrest
        exact hcomment rfl hx
      · cases h

/-! ### Texts -/

/-- The line behind two texts. -/
theorem lineAfter_append (before text : List Char) :
    lineAfter (before ++ text) = lineAfter before + text.count '\n' := by
  rw [lineAfter, lineAfter, List.count_append, Nat.add_assoc]

/-- A token goes on on the line on which it starts. -/
theorem Spelling.lineAfter_eq {t : Token} {cs : List Char} (h : Spelling t cs)
    (before : List Char) : lineAfter (before ++ cs) = lineAfter before := by
  rw [lineAfter_append, List.count_eq_zero.mpr (h.not_mem_blanks '\n' (by decide)), Nat.add_zero]

/-- **The scanner finds the tokens** into which a text divides. -/
theorem Divides.scan_eq {before text : List Char} {ts : List Located}
    (h : Divides before text ts) : scan (lineAfter before) text = .ok ts := by
  induction h with
  | @rest before gap hgap =>
      rw [← List.append_nil gap, scan_gap hgap, scan]
  | @comment before gap body hgap hbody =>
      rw [scan_gap hgap, ← List.append_nil body, scan_comment _ hbody [] (by simp), scan]
  | @token before gap cs text t ts hgap hspelling hends _ ih =>
      obtain ⟨c, rest, rfl, hfirst, hblank, hcomment⟩ := hspelling.exists_first hends
      rw [hspelling.lineAfter_eq] at ih
      rw [List.append_assoc, scan_gap hgap, ← lineAfter_append, List.cons_append,
        scan_first _ hblank hcomment hfirst, ih]
      rfl

/-- A text with a gap in front divides as it does without. -/
theorem Divides.skip {before gap text : List Char} {ts : List Located} (hgap : Gap gap)
    (h : Divides (before ++ gap) text ts) : Divides before (gap ++ text) ts := by
  cases h with
  | rest hgap' => exact .rest (hgap.append hgap')
  | comment hgap' hbody =>
      rw [← List.append_assoc]
      exact .comment (hgap.append hgap') hbody
  | token hgap' hspelling hends hdivides =>
      rw [List.append_assoc before] at hdivides ⊢
      rw [← List.append_assoc, ← List.append_assoc]
      exact .token (hgap.append hgap') hspelling hends hdivides

/-- A text that starts with a token. -/
theorem Divides.start {before cs text : List Char} {t : Token} {ts : List Located}
    (hspelling : Spelling t cs) (hends : Ends t text) (h : Divides (before ++ cs) text ts) :
    Divides before (cs ++ text) (⟨t, lineAfter before⟩ :: ts) := by
  rw [← List.append_nil before] at h
  have hdivides := Divides.token .nil hspelling hends h
  rwa [List.append_nil] at hdivides

/-- **The tokens that the scanner finds** are those into which a text divides. -/
theorem divides_of_scan {before text : List Char} {ts : List Located}
    (h : scan (lineAfter before) text = .ok ts) : Divides before text ts := by
  generalize hn : text.length = n
  induction n using Nat.strong_induction_on generalizing before text ts with
  | _ n ih =>
      subst hn
      -- What is skipped is a gap, and the rest of the text is shorter.
      have hskip : ∀ gap rest : List Char, Gap gap → text = gap ++ rest → gap ≠ [] →
          Divides before text ts := by
        rintro gap rest hgap rfl hne
        rw [scan_gap hgap, ← lineAfter_append] at h
        have hpos := List.length_pos_iff.mpr hne
        exact (ih rest.length (by rw [List.length_append]; omega) h rfl).skip hgap
      cases text with
      | nil =>
          rw [scan] at h
          cases h
          exact .rest .nil
      | cons c cs =>
          by_cases hblank : isBlank c = true
          · exact hskip [c] cs (.blank (isBlank_iff.mp hblank) .nil) rfl (by simp)
          · rw [Bool.not_eq_true] at hblank
            by_cases hcomment : c = '/' → cs.head? ≠ some '/'
            · rw [scan_token _ hblank hcomment] at h
              cases hfirst : first c cs with
              | error fault =>
                  rw [hfirst] at h
                  cases h
              | ok found =>
                  obtain ⟨t, rest⟩ := found
                  obtain ⟨spelled, htext, hspelling, hends⟩ := spelling_of_first hfirst hcomment
                  have hshorter := Nat.lt_succ_of_le (length_le_of_first hfirst)
                  rw [htext]
                  rw [hfirst, ← hspelling.lineAfter_eq] at h
                  cases hrest : scan (lineAfter (before ++ spelled)) rest with
                  | error e =>
                      simp only [hrest] at h
                      cases h
                  | ok us =>
                      simp only [hrest] at h
                      cases h
                      rw [hspelling.lineAfter_eq]
                      exact .start hspelling hends (ih rest.length hshorter hrest rfl)
            · obtain ⟨rfl, hhead⟩ := Classical.not_imp.mp hcomment
              rw [not_not] at hhead
              obtain ⟨body, rfl⟩ := List.head?_eq_some_iff.mp hhead
              by_cases hbreak : '\n' ∈ body
              · obtain ⟨body, rest, rfl, hbody⟩ := List.eq_append_cons_of_mem hbreak
                exact hskip ('/' :: '/' :: (body ++ ['\n'])) rest (.comment hbody .nil) (by simp)
                  (by simp)
              · have hend := scan_comment (lineAfter before) hbreak [] (by simp)
                rw [List.append_nil, h, scan] at hend
                cases hend
                exact .comment .nil hbreak

/-- **The scanner divides a text into tokens.** -/
theorem scan_eq_ok_iff {before text : List Char} {ts : List Located} :
    scan (lineAfter before) text = .ok ts ↔ Divides before text ts :=
  ⟨divides_of_scan, Divides.scan_eq⟩

/-- **What is written divides** into what has been written, for the separators end every token. -/
theorem Writes.divides {before text : List Char} {ts : List Located} (h : Writes before text ts) :
    Divides before text ts := by
  induction h with
  | nil => exact .rest .nil
  | @last before cs t hspelling =>
      rw [← List.append_nil cs]
      refine .start hspelling ?_ (.rest .nil)
      cases t <;> simp [Ends]
  | @next before cs gap text c t ts hspelling hblank hgap _ ih =>
      rw [List.append_assoc]
      exact .start hspelling (ends_blank hblank t _) (ih.skip (.blank hblank hgap))

/-- **The scanner inverts writing.** If a text writes tokens, with separators between them, the
scanner finds just these tokens, each on the line that the line breaks before it lead to. And of any
text, the scanner finds some tokens if and only if the text divides into them: gaps aside, the
tokens follow each other in the text in one of their spellings, and each ends only where the next
character does not make it longer. In particular, no mark goes on with a character that makes a
longer mark of it. -/
theorem scanText_inverts_writing (text : String) (ts : List Located) :
    (Writes [] text.toList ts → scanText text = .ok ts) ∧
      (scanText text = .ok ts ↔ Divides [] text.toList ts) := by
  have hscan : scanText text = scan (lineAfter []) text.toList := rfl
  rw [hscan, scan_eq_ok_iff]
  exact ⟨Writes.divides, Iff.rfl⟩

/-- Three tokens on three lines, behind the first of which stands a comment. -/
def jotted : List Char :=
  ['0', 'X', 'f', 'F'] ++ '\t' :: ['/', '/', 'é', '\r', '\n', ' '] ++
    (['<', '<'] ++ '\r' :: ['\n'] ++ ['0', '0', '7'])

/-- What is jotted down is found, and marks that touch are split into the longest ones. -/
theorem scanText_inverts_writing_jotted :
    Writes [] jotted [⟨.number 255, 1⟩, ⟨.mark .shl, 2⟩, ⟨.number 7, 3⟩] ∧
      scanText (String.ofList jotted) =
        .ok [⟨.number 255, 1⟩, ⟨.mark .shl, 2⟩, ⟨.number 7, 3⟩] ∧
      Divides [] ['<', '<', '='] [⟨.mark .shl, 1⟩, ⟨.mark .assign, 1⟩] := by
  have hhex : Spelling (.number 255) ['0', 'X', 'f', 'F'] := spelling_number_iff.mpr (by decide)
  have hdecimal : Spelling (.number 7) ['0', '0', '7'] := spelling_number_iff.mpr (by decide)
  have hcomment : '\n' ∉ ['é', '\r'] := by decide
  have hwrites : Writes [] jotted [⟨.number 255, 1⟩, ⟨.mark .shl, 2⟩, ⟨.number 7, 3⟩] :=
    .next hhex (by decide) (.comment hcomment (.blank (by decide) .nil))
      (.next (.mark .shl) (by decide) (.blank (by decide) .nil) (.last hdecimal))
  have htouching : scanText (String.ofList ['<', '<', '=']) =
      .ok [⟨.mark .shl, 1⟩, ⟨.mark .assign, 1⟩] := by decide_cbv
  obtain ⟨hfound, -⟩ := scanText_inverts_writing (String.ofList jotted)
    [⟨.number 255, 1⟩, ⟨.mark .shl, 2⟩, ⟨.number 7, 3⟩]
  have hdivides := (scanText_inverts_writing _ _).2.mp htouching
  rw [String.toList_ofList] at hfound hdivides
  exact ⟨hwrites, hfound hwrites, hdivides⟩

end Token

end FlowForm
