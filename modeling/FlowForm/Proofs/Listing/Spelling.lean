import Mathlib
import FlowForm.Listing.Token

/-!
# Tokens and Their Spelling

What the scanner makes of texts that are put together from tokens. A text **spells** some tokens if
the scanner finds just these tokens in it, whatever follows, as long as the first character that
follows cannot belong to the last of them (`Spells`). The scanner is opened for single tokens only,
which are punctuation marks, words and numbers; longer texts are put together from **phrases**.

In the other direction, every word that the scanner finds is an **identifier** (`word_of_scan`).

## Main results

* `Punct.leading?_eq_some_iff`: the mark that a text starts with is the longest one.
* `spells_mark`, `spells_word` and `spells_number`: each token has its spelling.
* `Phrase.mark`, `Phrase.blank` and `Phrase.phrase`: how phrases go on.
* `word_of_scan`: words are identifiers.
-/

namespace FlowForm

/-! ### Decimal numbers -/

namespace Numeral

/-- The value of a decimal digit. -/
theorem digit?_of_isDigit {c : Char} (h : c.isDigit) : digit? 10 c = some (c.toNat - 48) := by
  have hbounds := Char.isDigit_iff_toNat.mp h
  have hdigit : '0' ≤ c ∧ c ≤ '9' := hbounds
  have hlt : c.toNat - 48 < 10 := by
    have : c.toNat ≤ 57 := hbounds.2
    omega
  simp only [digit?, hdigit, and_self, if_true, Option.filter, hlt, decide_true]

/-- The value of a string of decimal digits. -/
theorem ofDigits?_of_isDigit {digits : List Char} (hne : digits ≠ [])
    (h : ∀ c ∈ digits, c.isDigit) : ofDigits? 10 digits = some (Nat.ofDigitChars 10 digits 0) := by
  have hfold : ∀ n, digits.foldlM (fun n d => (digit? 10 d).map (10 * n + ·)) n =
      some (Nat.ofDigitChars 10 digits n) := by
    clear hne
    induction digits with
    | nil => exact fun _ => rfl
    | cons c cs ih =>
        intro n
        rw [List.foldlM_cons, digit?_of_isDigit (h c List.mem_cons_self)]
        exact ih (fun c hc => h c (List.mem_cons_of_mem _ hc)) _
  cases digits with
  | nil => exact absurd rfl hne
  | cons c cs => exact hfold 0

/-- Decimal digits never look like the marker of a hexadecimal number. -/
theorem literal?_of_isDigit {digits : List Char} (h : ∀ c ∈ digits, c.isDigit) :
    literal? digits = word? 10 digits := by
  rw [literal?, based?.eq_def]
  split
  · exact absurd (h 'x' (by simp)) (by decide)
  · exact absurd (h 'X' (by simp)) (by decide)
  · rfl

/-- **A number that is printed is read back.** -/
theorem literal?_toDigits {n : Nat} (h : n < wordBound) :
    literal? (Nat.toDigits 10 n) = some n := by
  have hdigits : ∀ c ∈ Nat.toDigits 10 n, c.isDigit := fun c hc =>
    Nat.isDigit_of_mem_toDigits (by decide) (by decide) hc
  rw [literal?_of_isDigit hdigits, word?, ofDigits?_of_isDigit Nat.toDigits_ne_nil hdigits,
    Nat.ofDigitChars_ten_toDigits]
  simp [Option.filter, h]

end Numeral

/-! ### Marks -/

namespace Punct

/-- The characters that make another mark, or a comment, of a mark in front of them. -/
def isExtension (c : Char) : Bool :=
  ['<', '>', '=', '&', '|', '/'].contains c

/-- A mark is known by its spelling. -/
theorem chars_injective : Function.Injective chars := fun p q h =>
  List.inj_on_of_nodup_map (f := chars) (l := all) (by decide) (mem_all p) (mem_all q) h

/-- Marks have one character or two. -/
theorem length_chars (p : Punct) : p.chars.length = 1 ∨ p.chars.length = 2 := by
  cases p <;> decide

/-- **The mark that a text starts with** is the longest one that it starts with. -/
theorem leading?_eq_some_iff {cs : List Char} {p : Punct} : leading? cs = some p ↔
    p.chars <+: cs ∧ ∀ q : Punct, q.chars <+: cs → q.chars.length ≤ p.chars.length := by
  have hfits : ∀ q : Punct, q.chars.isPrefixOf cs = true ↔ q.chars <+: cs := fun q =>
    List.isPrefixOf_iff_prefix
  -- Longer marks stand before shorter ones.
  have hsorted : all.Pairwise fun a b => b.chars.length ≤ a.chars.length := by decide
  have hfound : ∀ {r}, leading? cs = some r →
      r.chars <+: cs ∧ ∀ q : Punct, q.chars <+: cs → q.chars.length ≤ r.chars.length := by
    intro r h
    obtain ⟨hr, front, back, hall, hfront⟩ := List.find?_eq_some_iff_append.mp h
    refine ⟨(hfits r).mp hr, fun q hq => ?_⟩
    have hmem := mem_all q
    rw [hall] at hsorted hmem
    rcases List.mem_append.mp hmem with hmem | hmem
    · have hnot := hfront q hmem
      rw [(hfits q).mpr hq] at hnot
      cases hnot
    · rcases List.mem_cons.mp hmem with rfl | hmem
      · exact le_rfl
      · exact (List.pairwise_cons.mp (List.pairwise_append.mp hsorted).2.1).1 q hmem
  refine ⟨hfound, fun h => ?_⟩
  obtain ⟨hp, hlongest⟩ := h
  obtain ⟨r, hr⟩ : ∃ r, leading? cs = some r := by
    rw [← Option.isSome_iff_exists, leading?, List.find?_isSome]
    exact ⟨p, mem_all p, (hfits p).mpr hp⟩
  obtain ⟨hstarts, hr'⟩ := hfound hr
  have hlength : r.chars.length = p.chars.length := le_antisymm (hlongest r hstarts) (hr' p hp)
  have hchars := (List.prefix_of_prefix_length_le hstarts hp hlength.le).eq_of_length hlength
  rw [hr, chars_injective hchars]

/-- A mark is found in front of a text unless the first character **makes a longer mark** of it. -/
theorem leading?_chars_append_iff {p : Punct} {rest : List Char} :
    leading? (p.chars ++ rest) = some p ↔
      ∀ c ∈ rest.head?, ∀ q : Punct, q.chars ≠ p.chars ++ [c] := by
  rw [leading?_eq_some_iff]
  constructor
  · rintro ⟨-, hlongest⟩ c hc q hq
    obtain ⟨cs, rfl⟩ := List.head?_eq_some_iff.mp hc
    have hle := hlongest q ⟨cs, by rw [hq, List.append_assoc, List.singleton_append]⟩
    rw [hq, List.length_append, List.length_singleton] at hle
    omega
  · intro h
    refine ⟨List.prefix_append .., fun q hq => ?_⟩
    by_contra hlt
    obtain ⟨more, hmore⟩ := List.prefix_of_prefix_length_le (List.prefix_append ..) hq (by omega)
    have hlength := congrArg List.length hmore
    rw [List.length_append] at hlength
    have hp := p.length_chars
    have hq' := q.length_chars
    obtain ⟨c, rfl⟩ := List.length_eq_one_iff.mp (by omega : more.length = 1)
    rw [← hmore, List.prefix_append_right_inj] at hq
    obtain ⟨cs, rfl⟩ := hq
    exact h c rfl q hmore.symm

/-- No other character makes a longer mark of one. -/
theorem chars_ne_append (p q : Punct) {c : Char} (h : isExtension c = false) :
    q.chars ≠ p.chars ++ [c] := by
  intro hq
  have hlength := congrArg List.length hq
  have hp := p.length_chars
  have hq' := q.length_chars
  rw [List.length_append, List.length_singleton] at hlength
  obtain ⟨a, ha⟩ := List.length_eq_one_iff.mp (by omega : p.chars.length = 1)
  rw [ha, List.singleton_append] at hq
  have hlast : isExtension c = true := by
    cases q <;> cases hq <;> rfl
  rw [hlast] at h
  cases h

end Punct

namespace Token

/-! ### The scanner -/

/-- The scanner goes on to the next line behind a line break. -/
theorem scan_newline (line : Nat) (cs : List Char) :
    scan line ('\n' :: cs) = scan (line + 1) cs := by
  rw [scan]

/-- The scanner skips the other blanks. -/
theorem scan_blank (line : Nat) {c : Char} (hblank : isBlank c) (hne : c ≠ '\n') (cs : List Char) :
    scan line (c :: cs) = scan line cs := by
  rw [scan]
  · rw [if_pos hblank]
  · exact fun h => hne h
  · rintro cs' rfl
    exact absurd hblank (by decide)

/-- The scanner takes the token that stands first, unless there is a comment. -/
theorem scan_token {c : Char} {cs : List Char} (line : Nat) (hblank : isBlank c = false)
    (hcomment : c = '/' → cs.head? ≠ some '/') :
    scan line (c :: cs) = match first c cs with
      | .error fault => .error (.malformed line fault)
      | .ok (t, rest) => (⟨t, line⟩ :: ·) <$> scan line rest := by
  rw [scan]
  · simp only [hblank, Bool.false_eq_true, if_false]
    cases first c cs with
    | error fault => rfl
    | ok found =>
        simp only
        cases scan line found.2 <;> rfl
  · rintro rfl
    exact absurd hblank (by decide)
  · rintro cs' rfl rfl
    exact hcomment rfl rfl

/-- The scanner takes the first token, unless there is a comment. -/
theorem scan_first {c : Char} {cs rest : List Char} {t : Token} (line : Nat)
    (hblank : isBlank c = false) (hcomment : c = '/' → cs.head? ≠ some '/')
    (h : first c cs = .ok (t, rest)) :
    scan line (c :: cs) = (⟨t, line⟩ :: ·) <$> scan line rest := by
  rw [scan_token line hblank hcomment, h]

/-- Of a text, the characters of a word are taken up to the first that does not belong to it. -/
theorem takeWhile_append_of_head {p : Char → Bool} {cs rest : List Char} (h : ∀ c ∈ cs, p c)
    (hrest : ∀ c ∈ rest.head?, p c = false) :
    (cs ++ rest).takeWhile p = cs ∧ (cs ++ rest).dropWhile p = rest := by
  rw [List.takeWhile_append_of_pos h, List.dropWhile_append_of_pos h]
  cases rest with
  | nil => simp
  | cons c rest => simp [hrest c rfl]

/-- A digit starts no word. -/
theorem isDigit_of_startsWord {c : Char} (h : startsWord c) : c.isDigit = false := by
  rw [Bool.eq_false_iff, Ne, Char.isDigit_iff_toNat]
  simp only [startsWord, Char.isAlpha, Char.isUpper, Char.isLower, Bool.or_eq_true, beq_iff_eq,
    Bool.and_eq_true, decide_eq_true_eq, ge_iff_le, UInt32.le_iff_toNat_le, Char.reduceVal,
    UInt32.reduceToNat] at h
  rintro ⟨hlower, hupper⟩
  simp only [Char.toNat, Char.reduceVal, UInt32.reduceToNat] at hlower hupper
  rcases h with (h | h) | rfl
  · omega
  · omega
  · exact absurd hupper (by decide)

/-- A mark stands first in a text that goes on with no character which makes a longer one of it. -/
theorem first_mark {p : Punct} {rest : List Char}
    (h : ∀ c ∈ rest.head?, ∀ q : Punct, q.chars ≠ p.chars ++ [c]) :
    ∃ c cs, p.chars = c :: cs ∧ first c (cs ++ rest) = .ok (.mark p, rest) ∧ isBlank c = false ∧
      (c = '/' → p = .slash) := by
  obtain ⟨c, cs, hchars⟩ := List.exists_cons_of_ne_nil p.chars_ne_nil
  have hleading := Punct.leading?_chars_append_iff.mpr h
  have hclass : isBlank c = false ∧ c.isDigit = false ∧ startsWord c = false ∧
      (c = '/' → p = .slash) := by
    cases p <;> cases hchars <;> decide
  obtain ⟨hblank, hdigit, hword, hslash⟩ := hclass
  refine ⟨c, cs, hchars, ?_, hblank, hslash⟩
  rw [hchars, List.cons_append] at hleading
  simp only [first, hdigit, hword, hleading, hchars]
  simp

/-- A word stands first in a text that does not go on with it. -/
theorem first_word {c : Char} {cs rest : List Char} (hstarts : startsWord c)
    (hcs : ∀ x ∈ cs, continuesWord x) (hrest : ∀ x ∈ rest.head?, continuesWord x = false) :
    first c (cs ++ rest) = .ok (.word (String.ofList (c :: cs)), rest) := by
  obtain ⟨htake, hdrop⟩ := takeWhile_append_of_head hcs hrest
  simp only [first, isDigit_of_startsWord hstarts, hstarts, htake, hdrop, if_true,
    Bool.false_eq_true, if_false]

/-- A number stands first in a text that does not go on with it. -/
theorem first_number {c : Char} {cs rest : List Char} {n : Nat} (hdigit : c.isDigit)
    (hcs : ∀ x ∈ cs, x.isAlphanum) (hrest : ∀ x ∈ rest.head?, x.isAlphanum = false)
    (hliteral : Numeral.literal? (c :: cs) = some n) :
    first c (cs ++ rest) = .ok (.number n, rest) := by
  obtain ⟨htake, hdrop⟩ := takeWhile_append_of_head hcs hrest
  simp only [first, hdigit, htake, hdrop, if_true, hliteral]

/-! ### Spellings -/

/-- Tokens that stand on one line. -/
def onLine (line : Nat) (ts : List Token) : List Located :=
  ts.map (⟨·, line⟩)

/-- A text **spells** tokens if the scanner finds them in front of every text that is empty or goes
on with one of the given characters. -/
def Spells (follow : Char → Bool) (cs : List Char) (ts : List Token) : Prop :=
  ∀ line rest, (∀ c ∈ rest.head?, follow c) →
    scan line (cs ++ rest) = (onLine line ts ++ ·) <$> scan line rest

/-- The characters that can follow a word or a number. -/
def endsWord (c : Char) : Bool :=
  !continuesWord c

/-- The characters that can follow a mark. -/
def endsMark (c : Char) : Bool :=
  !Punct.isExtension c

/-- One spelling behind another, which it can follow. -/
theorem Spells.append {follow follow' : Char → Bool} {cs cs' : List Char} {ts ts' : List Token}
    (h : Spells follow cs ts) (h' : Spells follow' cs' ts') (hne : cs' ≠ [])
    (hfollow : ∀ c ∈ cs'.head?, follow c) : Spells follow' (cs ++ cs') (ts ++ ts') := by
  intro line rest hrest
  obtain ⟨c, tail, rfl⟩ := List.exists_cons_of_ne_nil hne
  rw [List.append_assoc, h line (c :: tail ++ rest) hfollow, h' line rest hrest, ← comp_map]
  congr 1
  funext us
  simp [onLine]

/-- What follows can be restricted further. -/
theorem Spells.mono {follow follow' : Char → Bool} {cs : List Char} {ts : List Token}
    (h : Spells follow cs ts) (hfollow : ∀ c, follow' c → follow c) : Spells follow' cs ts :=
  fun line rest hrest => h line rest fun c hc => hfollow c (hrest c hc)

/-- A blank spells nothing. -/
theorem spells_blank (follow : Char → Bool) : Spells follow [' '] [] := by
  intro line rest _
  rw [List.singleton_append, scan_blank line (by decide) (by decide)]
  exact (id_map _).symm

/-- **Marks.** -/
theorem spells_mark (p : Punct) : Spells endsMark p.chars [.mark p] := by
  intro line rest hrest
  have hextension : ∀ c ∈ rest.head?, Punct.isExtension c = false := fun c hc => by
    simpa [endsMark] using hrest c hc
  obtain ⟨c, cs, hchars, hfirst, hblank, hslash⟩ :=
    first_mark fun c hc q => p.chars_ne_append q (hextension c hc)
  rw [hchars, List.cons_append]
  refine scan_first line hblank (fun hc => ?_) hfirst
  obtain rfl := hslash hc
  obtain rfl : cs = [] := (List.cons.inj hchars).2.symm
  intro hhead
  exact absurd (hextension '/' hhead) (by decide)

/-- The **identifiers**: letters, digits and underscores, and no digit in front. -/
def isIdentifier (name : String) : Bool :=
  match name.toList with
  | [] => false
  | c :: cs => startsWord c && cs.all continuesWord

/-- A word goes on with what a word can start with. -/
theorem continuesWord_of_startsWord {c : Char} (h : startsWord c) : continuesWord c := by
  simp only [startsWord, continuesWord, Char.isAlphanum, Bool.or_eq_true] at h ⊢
  exact h.imp_left .inl

/-- Words and numbers are neither blank nor comments. -/
theorem isBlank_of_continuesWord {c : Char} (h : continuesWord c) :
    isBlank c = false ∧ c ≠ '/' := by
  refine ⟨?_, ?_⟩
  · rw [Bool.eq_false_iff]
    intro hblank
    simp only [isBlank, Bool.or_eq_true, beq_iff_eq] at hblank
    rcases hblank with (((rfl | rfl) | rfl) | rfl) | rfl <;> exact absurd h (by decide)
  · rintro rfl
    exact absurd h (by decide)

/-- **Words.** -/
theorem spells_word {name : String} (h : isIdentifier name) :
    Spells endsWord name.toList [.word name] := by
  intro line rest hrest
  have hends : ∀ c ∈ rest.head?, continuesWord c = false := fun c hc => by
    simpa [endsWord] using hrest c hc
  cases hname : name.toList with
  | nil => simp [isIdentifier, hname] at h
  | cons c cs =>
      simp only [isIdentifier, hname, Bool.and_eq_true, List.all_eq_true] at h
      have hfirst := first_word h.1 h.2 hends
      rw [← hname, String.ofList_toList] at hfirst
      obtain ⟨hblank, hslash⟩ := isBlank_of_continuesWord (continuesWord_of_startsWord h.1)
      exact scan_first line hblank (fun hc => absurd hc hslash) hfirst

/-- **Numbers.** -/
theorem spells_number {n : Nat} (h : n < Numeral.wordBound) :
    Spells endsWord (toString n).toList [.number n] := by
  intro line rest hrest
  have hends : ∀ c ∈ rest.head?, c.isAlphanum = false := fun c hc => by
    have := hrest c hc
    simp only [endsWord, continuesWord, Bool.not_eq_true', Bool.or_eq_false_iff] at this
    exact this.1
  rw [Nat.toString_eq_ofList_toDigits, String.toList_ofList]
  have hdigits : ∀ c ∈ Nat.toDigits 10 n, c.isDigit := fun c hc =>
    Nat.isDigit_of_mem_toDigits (by decide) (by decide) hc
  have hliteral := Numeral.literal?_toDigits h
  cases hn : Nat.toDigits 10 n with
  | nil => exact absurd hn Nat.toDigits_ne_nil
  | cons c cs =>
      rw [hn] at hdigits hliteral
      have hdigit := hdigits c List.mem_cons_self
      have halphanum : ∀ c ∈ cs, c.isAlphanum := fun c hc => by
        simp [Char.isAlphanum, hdigits c (List.mem_cons_of_mem _ hc)]
      have hfirst := first_number hdigit halphanum hends hliteral
      obtain ⟨hblank, hslash⟩ : isBlank c = false ∧ c ≠ '/' :=
        isBlank_of_continuesWord (by simp [continuesWord, Char.isAlphanum, hdigit])
      exact scan_first line hblank (fun hc => absurd hc hslash) hfirst

/-! ### Phrases -/

/-- The characters that can follow any token. -/
def endsToken (c : Char) : Bool :=
  endsWord c && endsMark c

/-- What belongs to a word can follow a mark. -/
theorem endsMark_of_continuesWord {c : Char} (h : continuesWord c) : endsMark c := by
  rw [endsMark, Bool.not_eq_true', Bool.eq_false_iff]
  intro hextension
  simp only [Punct.isExtension, List.contains_eq_mem, List.mem_cons, List.not_mem_nil, or_false,
    decide_eq_true_eq] at hextension
  rcases hextension with rfl | rfl | rfl | rfl | rfl | rfl <;> exact absurd h (by decide)

/-- A text is a **phrase** if it spells tokens and starts with a character that can follow a
mark. -/
structure Phrase (follow : Char → Bool) (cs : List Char) (ts : List Token) : Prop where
  spells : Spells follow cs ts
  ne_nil : cs ≠ []
  opens : ∀ c ∈ cs.head?, endsMark c

section Phrase

variable {follow follow' : Char → Bool} {cs cs' : List Char} {ts ts' : List Token}

theorem Phrase.mono (h : Phrase follow cs ts) (hfollow : ∀ c, follow' c → follow c) :
    Phrase follow' cs ts :=
  ⟨h.spells.mono hfollow, h.ne_nil, h.opens⟩

/-- A phrase that goes on. -/
theorem Phrase.append (h : Phrase follow cs ts) (h' : Spells follow' cs' ts') (hne : cs' ≠ [])
    (hfollow : ∀ c ∈ cs'.head?, follow c) : Phrase follow' (cs ++ cs') (ts ++ ts') := by
  refine ⟨h.spells.append h' hne hfollow, List.append_ne_nil_of_left_ne_nil h.ne_nil _, ?_⟩
  rw [List.head?_append_of_ne_nil _ h.ne_nil]
  exact h.opens

/-- A phrase with a blank behind it, which anything can follow. -/
theorem Phrase.blank (h : Phrase follow cs ts) (hblank : follow ' ') :
    Phrase (fun _ => true) (cs ++ [' ']) ts := by
  have := h.append (spells_blank fun _ => true) (by simp) (by simpa using hblank)
  rwa [List.append_nil] at this

/-- A mark opens with whatever its first character is. -/
theorem opens_mark {p : Punct} (hp : p.chars.head?.all follow) : ∀ c ∈ p.chars.head?, follow c := by
  intro c hc
  rw [Option.mem_def.mp hc] at hp
  exact hp

/-- A phrase with a mark behind it. -/
theorem Phrase.mark (h : Phrase follow cs ts) (p : Punct) (hp : p.chars.head?.all follow) :
    Phrase endsMark (cs ++ p.chars) (ts ++ [.mark p]) :=
  h.append (spells_mark p) p.chars_ne_nil (opens_mark hp)

/-- A mark that can follow a mark is a phrase. -/
theorem phrase_mark (p : Punct) (hp : p.chars.head?.all endsMark) :
    Phrase endsMark p.chars [.mark p] :=
  ⟨spells_mark p, p.chars_ne_nil, opens_mark hp⟩

/-- A phrase behind a mark or a blank. -/
theorem Phrase.phrase (h : Phrase follow cs ts) (h' : Phrase follow' cs' ts')
    (hfollow : ∀ c, endsMark c → follow c) : Phrase follow' (cs ++ cs') (ts ++ ts') :=
  h.append h'.spells h'.ne_nil fun c hc => hfollow c (h'.opens c hc)

end Phrase

/-- A word or a number is a phrase. -/
theorem phrase_of_continuesWord {cs : List Char} {t : Token} (hne : cs ≠ [])
    (h : Spells endsWord cs [t]) (hcs : ∀ c ∈ cs, continuesWord c) : Phrase endsToken cs [t] := by
  refine ⟨h.mono fun c hc => ?_, hne, fun c hc => ?_⟩
  · simp only [endsToken, Bool.and_eq_true] at hc
    exact hc.1
  · exact endsMark_of_continuesWord (hcs c (List.mem_of_mem_head? hc))

/-- **A number that is printed is a phrase.** -/
theorem phrase_number {n : Nat} (h : n < Numeral.wordBound) :
    Phrase endsToken (toString n).toList [.number n] := by
  have hspells := spells_number h
  rw [Nat.toString_eq_ofList_toDigits, String.toList_ofList] at hspells ⊢
  refine phrase_of_continuesWord Nat.toDigits_ne_nil hspells fun c hc => ?_
  have hdigit := Nat.isDigit_of_mem_toDigits (by decide) (by decide) hc
  simp [continuesWord, Char.isAlphanum, hdigit]

/-- **An identifier is a phrase.** -/
theorem phrase_word {name : String} (h : isIdentifier name) :
    Phrase endsToken name.toList [.word name] := by
  have hspells := spells_word h
  simp only [isIdentifier] at h
  split at h
  · cases h
  · rename_i c cs hcs
    simp only [Bool.and_eq_true, List.all_eq_true] at h
    rw [hcs] at hspells ⊢
    refine phrase_of_continuesWord (by simp) hspells fun x hx => ?_
    rcases List.mem_cons.mp hx with rfl | hx
    · exact continuesWord_of_startsWord h.1
    · exact h.2 x hx

/-! ### What the scanner finds -/

/-- A word at the front of a text is an identifier. -/
theorem isIdentifier_of_first {c : Char} {cs rest : List Char} {name : String}
    (h : first c cs = .ok (.word name, rest)) : isIdentifier name := by
  simp only [first] at h
  split at h
  · split at h <;> cases h
  · split at h
    · rename_i hstart
      cases h
      simp [isIdentifier, String.toList_ofList, hstart, List.all_takeWhile]
    · split at h <;> cases h

/-- **Every word that the scanner finds is an identifier.** -/
theorem word_of_scan {line : Nat} {cs : List Char} {ts : List Located} (h : scan line cs = .ok ts) :
    ∀ t ∈ ts, ∀ name, t.token = .word name → isIdentifier name := by
  fun_induction scan line cs generalizing ts with
  | case1 =>
      cases h
      simp
  | case2 line cs ih => exact ih h
  | case3 line cs ih => exact ih h
  | case4 line c cs _ _ hblank ih => exact ih h
  | case5 => cases h
  | case6 line c cs _ _ hblank t rest hfirst ih =>
      cases hrest : scan line rest with
      | error e =>
          rw [hrest] at h
          cases h
      | ok us =>
          rw [hrest] at h
          cases h
          intro u hu name hname
          rcases List.mem_cons.mp hu with rfl | hu
          · obtain rfl : t = .word name := hname
            exact isIdentifier_of_first hfirst
          · exact ih hrest u hu name hname

end Token

end FlowForm
