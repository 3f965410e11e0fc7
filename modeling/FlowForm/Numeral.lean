/-!
# Numerals

The numbers that stand in listings and on the command line, and the way addresses are
printed. A **word** is a number below `wordBound`; readers refuse everything else, so the
rest of the library works with plain natural numbers and never meets a larger one coming
from outside.
-/

namespace FlowForm.Numeral

/-- Addresses and constants are read into words of 64 bits, which stay below this bound. -/
def wordBound : Nat := 0x10000000000000000

/-- Immediates are signed words, so a constant has to stay below half of that. -/
def immediateBound : Nat := 0x8000000000000000

/-- The value of a digit in base `base`; letters of either case stand for ten to fifteen. -/
def digit? (base : Nat) (c : Char) : Option Nat :=
  let value :=
    if '0' ≤ c ∧ c ≤ '9' then some (c.toNat - 48)
    else if 'a' ≤ c ∧ c ≤ 'f' then some (c.toNat - 87)
    else if 'A' ≤ c ∧ c ≤ 'F' then some (c.toNat - 55)
    else none
  value.filter (· < base)

/-- The value of a digit string, most significant digit first. The empty string has none. -/
def ofDigits? (base : Nat) : List Char → Option Nat
  | [] => none
  | c :: cs => (c :: cs).foldlM (fun n d => (digit? base d).map (base * n + ·)) 0

/-- The word that a digit string denotes, if it denotes one. -/
def word? (base : Nat) (digits : List Char) : Option Nat :=
  (ofDigits? base digits).filter (· < wordBound)

/-- A word whose digits may follow one plus sign. -/
def signedWord? (base : Nat) : List Char → Option Nat
  | '+' :: digits => word? base digits
  | digits => word? base digits

/-- Chooses the base by the leading marker: hexadecimal after `0x` or `0X`, else decimal. -/
def based? (read : Nat → List Char → Option Nat) : List Char → Option Nat
  | '0' :: 'x' :: digits => read 16 digits
  | '0' :: 'X' :: digits => read 16 digits
  | digits => read 10 digits

/-- A number as it is written in a listing. -/
def literal? : List Char → Option Nat :=
  based? word?

/-- An address as it is written on the command line, where a plus sign may precede the
digits, also behind the marker. -/
def address? : List Char → Option Nat :=
  based? signedWord?

/-- An address as it is printed: the marker `0x` and lower case digits without leading
zeros. -/
def hex (n : Nat) : String :=
  "0x" ++ String.ofList (Nat.toDigits 16 n)

end FlowForm.Numeral
