import FlowForm.Listing.Error

/-!
# Tokens

The **tokens** of a listing and the scanner that finds them. Blanks and comments, which run
from `//` to the end of their line, separate tokens and are otherwise skipped. A token is as
long as it can be: a number or a word extends over all following characters that fit, and of
two punctuation marks that fit the longer one is taken.

`scan` reports the first character that starts no token, and the first number that is no
word, with the line it stands on.
-/

namespace FlowForm

/-- A token of a listing. -/
inductive Token where
  | number (value : Nat)
  | word (text : String)
  | mark (p : Punct)
deriving DecidableEq

namespace Token

/-- A token with the line it stands on, counted from one. -/
structure Located where
  token : Token
  line : Nat
deriving DecidableEq

/-- The characters that separate tokens. Every line break is one of them, so no token goes
over the end of a line. -/
def isBlank (c : Char) : Bool :=
  c == ' ' || c == '\t' || c == '\n' || c == '\x0c' || c == '\r'

/-- The characters a word can start with. -/
def startsWord (c : Char) : Bool :=
  c.isAlpha || c == '_'

/-- The characters a word can go on with. -/
def continuesWord (c : Char) : Bool :=
  c.isAlphanum || c == '_'

/-- The token at the front of a text whose first character `c` is not blank, and the text
behind it. Digits and letters that follow a digit belong to the number, also where they spell
none. -/
def first (c : Char) (cs : List Char) : Except Fault (Token × List Char) :=
  if c.isDigit then
    let digits := c :: cs.takeWhile Char.isAlphanum
    match Numeral.literal? digits with
    | some n => .ok (number n, cs.dropWhile Char.isAlphanum)
    | none => .error (.invalidNumber (String.ofList digits))
  else if startsWord c then
    .ok (word (String.ofList (c :: cs.takeWhile continuesWord)), cs.dropWhile continuesWord)
  else
    match Punct.leading? (c :: cs) with
    | some p => .ok (mark p, cs.drop (p.chars.length - 1))
    | none => .error (.unexpectedChar c)

/-- Skips a comment up to the line break that ends it. -/
def skipComment (cs : List Char) : List Char :=
  cs.dropWhile (· != '\n')

/-- What is left behind a token is no longer than what followed its first character. -/
theorem length_le_of_first {c : Char} {cs rest : List Char} {t : Token}
    (h : first c cs = .ok (t, rest)) : rest.length ≤ cs.length := by
  simp only [first] at h
  split at h
  · split at h
    · cases h; exact (List.dropWhile_sublist _).length_le
    · cases h
  · split at h
    · cases h; exact (List.dropWhile_sublist _).length_le
    · split at h
      · cases h; simp
      · cases h

/-- The tokens of a text that starts on the given line. -/
def scan (line : Nat) : List Char → Except ListingError (List Located)
  | [] => .ok []
  | '\n' :: cs => scan (line + 1) cs
  | '/' :: '/' :: cs => scan line (skipComment cs)
  | c :: cs =>
    if isBlank c then scan line cs
    else
      match _h : first c cs with
      | .error fault => .error (.malformed line fault)
      | .ok (t, rest) => return ⟨t, line⟩ :: (← scan line rest)
termination_by cs => cs.length
decreasing_by
  · simp
  · have := (List.dropWhile_sublist (l := cs) (· != '\n')).length_le
    simp only [skipComment, List.length_cons]
    omega
  · simp
  · have := length_le_of_first _h
    simp only [List.length_cons]
    omega

/-- The tokens of a listing. -/
def scanText (text : String) : Except ListingError (List Located) :=
  scan 1 text.toList

/-- The binary operator that a token writes, if it writes one. -/
def binary? : Token → Option BinaryOp
  | mark p => p.binary?
  | _ => none

end Token

end FlowForm
