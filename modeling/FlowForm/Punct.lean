/-!
# Punctuation

The twenty-five punctuation marks of the listing language. A mark is the same thing for
the scanner, which recognises its spelling, and for the printer of expressions, which
writes it; `Punct.chars` is the one place where the spelling stands.
-/

namespace FlowForm

/-- A **punctuation mark** of the listing language. -/
inductive Punct where
  | shl | shr | eqEq | notEq | lessEq | greaterEq | andAnd | orOr
  | assign | less | greater | plus | minus | star | slash | percent | amp | bar | caret
  | bang | tilde | openParen | closeParen | semicolon | colon
deriving DecidableEq

namespace Punct

/-- The spelling of a mark. -/
def chars : Punct → List Char
  | shl => ['<', '<']
  | shr => ['>', '>']
  | eqEq => ['=', '=']
  | notEq => ['!', '=']
  | lessEq => ['<', '=']
  | greaterEq => ['>', '=']
  | andAnd => ['&', '&']
  | orOr => ['|', '|']
  | assign => ['=']
  | less => ['<']
  | greater => ['>']
  | plus => ['+']
  | minus => ['-']
  | star => ['*']
  | slash => ['/']
  | percent => ['%']
  | amp => ['&']
  | bar => ['|']
  | caret => ['^']
  | bang => ['!']
  | tilde => ['~']
  | openParen => ['(']
  | closeParen => [')']
  | semicolon => [';']
  | colon => [':']

/-- The spelling of a mark as text. -/
def symbol (p : Punct) : String :=
  String.ofList p.chars

/-- All marks, **longest first**, so that the first mark that fits is the longest one. -/
def all : List Punct :=
  [shl, shr, eqEq, notEq, lessEq, greaterEq, andAnd, orOr,
   assign, less, greater, plus, minus, star, slash, percent, amp, bar, caret,
   bang, tilde, openParen, closeParen, semicolon, colon]

/-- The longest mark that the text starts with. -/
def leading? (cs : List Char) : Option Punct :=
  all.find? fun p => p.chars.isPrefixOf cs

theorem mem_all (p : Punct) : p ∈ all := by
  cases p <;> decide

theorem chars_ne_nil (p : Punct) : p.chars ≠ [] := by
  cases p <;> decide

end Punct

end FlowForm
