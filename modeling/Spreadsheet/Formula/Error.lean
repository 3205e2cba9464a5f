import Spreadsheet.Address.A1

/-! Why a formula cannot be read, or a cell has no value. -/
namespace Spreadsheet

/-- What is wrong at the place where a formula stops making sense. -/
inductive SyntaxFault where
  | emptyFormula
  | badCharacter (c : Char)
  /-- A number starts with its point. -/
  | missingWhole
  /-- A number ends with its point. -/
  | missingFraction
  | missingRow (letters : String)
  | badReference (reason : AddressError)
  /-- The formula ends where an operand is needed. -/
  | missingOperand
  /-- A token stands where an operand is needed. -/
  | expectedOperand (found : String)
  /-- A token stands where a parenthesis has to be closed. -/
  | expectedClose (found : String)
  /-- The formula ends before a parenthesis is closed. Where it was opened is counted from after
  the leading blanks and the equals sign. -/
  | unclosed (openAt : Nat)
  | afterExpression (found : String)
  | tooDeep
  /-- A reference was asked for and the text has no tokens. -/
  | emptyReference
  /-- A reference was asked for and the text is something else. -/
  | notReference (found : String)
deriving DecidableEq, Repr

/-- Why a cell has no value. -/
inductive FormulaError where
  /-- The formula cannot be read; the position is a byte offset. -/
  | malformed (position : Nat) (fault : SyntaxFault)
  /-- A number is not a finite decimal. -/
  | badNumber (text : String)
  /-- A referenced cell has no content. -/
  | undefinedReference (cell : Address)
  | circularReference (cell : Address)
  | divisionByZero
  /-- A referenced cell has an error of its own. -/
  | dependencyFailed (cell : Address)
deriving DecidableEq, Repr

/-- The greatest number of operators and parentheses around a place in a formula. -/
def maxNesting : Nat := 256

/-- The text shown to the user, without the position. -/
def SyntaxFault.message : SyntaxFault → String
  | emptyFormula => "empty formula"
  | badCharacter c => s!"unexpected character '{c}'"
  | missingWhole => "number must start with a digit"
  | missingFraction => "expected digits after decimal point"
  | missingRow letters => s!"cell reference '{letters}' is missing a row number"
  | badReference reason => reason.message
  | missingOperand => "unexpected end of formula, expected an operand"
  | expectedOperand found => s!"expected an operand, found '{found}'"
  | expectedClose found => s!"expected ')', found '{found}'"
  | unclosed openAt => s!"missing ')' for '(' at position {openAt}"
  | afterExpression found => s!"unexpected '{found}' after expression"
  | tooDeep => s!"expression nested deeper than {maxNesting} levels"
  | emptyReference => "expected a cell reference"
  | notReference found => s!"expected a cell reference, found '{found}'"

namespace FormulaError

def message : FormulaError → String
  | malformed position fault => s!"Syntax error at position {position}: {fault.message}"
  | badNumber text => s!"Invalid number '{text}'"
  | undefinedReference cell => s!"Reference to empty cell {cell.text}"
  | circularReference cell => s!"Circular reference involving cell {cell.text}"
  | divisionByZero => "Division by zero"
  | dependencyFailed cell => s!"Dependency {cell.text} failed"

/-- The text shown in place of a value. -/
def marker : FormulaError → String
  | malformed _ _ => "#SYNTAX!"
  | badNumber _ => "#NUM!"
  | undefinedReference _ => "#REF!"
  | circularReference _ => "#CIRC!"
  | divisionByZero => "#DIV/0!"
  | dependencyFailed _ => "#DEP!"

/-- Moves the position of a malformed formula. -/
def shift (offset : Nat) : FormulaError → FormulaError
  | malformed position fault => malformed (position + offset) fault
  | e => e

end FormulaError

/-- What a cell comes to: a number, or why there is none. -/
abbrev Outcome := Except FormulaError Float

end Spreadsheet
