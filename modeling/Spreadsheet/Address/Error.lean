/-! Why a text names no cell. -/
namespace Spreadsheet

/-- Why a text is no cell address. -/
inductive AddressError where
  /-- Nothing is left once the blanks around the text are removed. -/
  | empty
  | noColumn (text : String)
  | noRow (text : String)
  /-- Something other than digits follows the letters. -/
  | malformedRow (text : String)
  | noLetters
  /-- A column name holds a character that is no ASCII letter. -/
  | badLetter (c : Char)
  | rowZero (digits : String)
  /-- The column number is greater than `Address.maxNumber`. -/
  | columnOutOfRange (letters : String)
  /-- The row number is greater than `Address.maxNumber`. -/
  | rowOutOfRange (digits : String)
deriving DecidableEq, Repr

def AddressError.message : AddressError → String
  | empty => "Invalid cell address: empty address"
  | noColumn text => s!"Invalid cell address: no column letters in '{text}'"
  | noRow text => s!"Invalid cell address: no row number in '{text}'"
  | malformedRow text => s!"Invalid cell address: invalid row number in '{text}'"
  | noLetters => "Invalid cell address: empty column letters"
  | badLetter c => s!"Invalid cell address: invalid column letter '{c}'"
  | rowZero digits => s!"Invalid cell address: row number must be >= 1 in '{digits}'"
  | columnOutOfRange letters => s!"Column '{letters}' is out of range"
  | rowOutOfRange digits => s!"Row '{digits}' is out of range"

end Spreadsheet
