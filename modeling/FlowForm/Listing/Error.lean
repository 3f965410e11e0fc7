import FlowForm.Item
import FlowForm.Numeral

/-!
# Errors of listings

Everything that can be wrong with a listing: its text, its labels, its order, or the
address at which reading is to start. Each cause has one wording, given by
`ListingError.message`.
-/

namespace FlowForm

/-- Deepest nesting of parentheses and unary operators inside one expression. -/
def maxNesting : Nat := 256

/-- What is wrong with the text at some line. -/
inductive Fault where
  | invalidNumber (text : String)
  | unexpectedChar (c : Char)
  | expectedMark (p : Punct)
  | expectedNumber
  | expectedGoto
  | expectedStatement
  | expectedExpression
  | constantOutOfRange (n : Nat)
  | nestedTooDeep
deriving DecidableEq

/-- The wording of a fault. -/
def Fault.message : Fault → String
  | invalidNumber text => "invalid number '" ++ text ++ "'"
  | unexpectedChar c => "unexpected character '" ++ c.toString ++ "'"
  | expectedMark p => "expected '" ++ p.symbol ++ "'"
  | expectedNumber => "expected number"
  | expectedGoto => "expected 'goto'"
  | expectedStatement => "expected statement"
  | expectedExpression => "expected expression"
  | constantOutOfRange n => "constant " ++ toString n ++ " out of range"
  | nestedTooDeep => "expression nested deeper than " ++ toString maxNesting

/-- Why a listing cannot be used. -/
inductive ListingError where
  /-- The text breaks the grammar at `line`. -/
  | malformed (line : Nat) (fault : Fault)
  /-- A statement at `line` jumps to a label that no statement carries. -/
  | undefinedLabel (line label : Nat)
  /-- A label is given a second time. -/
  | duplicateLabel (line label : Nat)
  /-- No item stands at the entry address. -/
  | entryNotFound (entry : Nat)
  /-- An item does not stand above the one before it. -/
  | unordered (address previous : Nat)
  /-- The listing could not be read as text at all. -/
  | unreadable
deriving DecidableEq

/-- The wording of a listing error. -/
def ListingError.message : ListingError → String
  | malformed line fault => "line " ++ toString line ++ ": " ++ fault.message
  | undefinedLabel line label =>
    "line " ++ toString line ++ ": undefined label " ++ toString label
  | duplicateLabel line label =>
    "line " ++ toString line ++ ": duplicate label " ++ toString label
  | entryNotFound entry => "No instruction at entry " ++ Numeral.hex entry
  | unordered address previous =>
    "Listing out of order at " ++ Numeral.hex address ++ " (previous " ++
      Numeral.hex previous ++ ")"
  | unreadable => "Listing cannot be read"

end FlowForm
