import Spreadsheet.Address.Column
import Spreadsheet.Text.Blank

/-! The A1 form of an address: column letters followed by the row number, counted from one. -/
namespace Spreadsheet.Address

/-- The A1 form, with upper-case letters and no leading zeros. -/
def text (a : Address) : String := Column.letters a.col ++ toString (a.row.toNat + 1)

instance : ToString Address := ⟨text⟩

/-- The row, counted from zero, that decimal digits name. -/
def rowOfDigits (digits : List Char) : Except AddressError UInt32 :=
  let n := Nat.ofDigitChars 10 digits 0
  if maxNumber < n then .error (.rowOutOfRange (String.ofList digits))
  else if n = 0 then .error (.rowZero (String.ofList digits))
  else .ok (.ofNat (n - 1))

/-- Reads an address in A1 form. Blanks around it, lower-case letters and leading zeros of the row
number are accepted. -/
def parse (s : String) : Except AddressError Address :=
  let text := Text.trim s
  let letters := text.toList.takeWhile Char.isAlpha
  let digits := text.toList.dropWhile Char.isAlpha
  if text.isEmpty then .error .empty
  else if letters.isEmpty then .error (.noColumn text)
  else if digits.isEmpty then .error (.noRow text)
  else if !digits.all Char.isDigit then .error (.malformedRow text)
  else do
    let col ← Column.ofLetters (String.ofList letters)
    let row ← rowOfDigits digits
    return { row, col }

end Spreadsheet.Address
