import Spreadsheet.Address.Basic
import Spreadsheet.Address.Error

/-! Column letters: a bijective numeral in base 26, `A` for 1 to `Z` for 26, then `AA`. -/
namespace Spreadsheet.Column

/-- The letters of the column with a given number, counted from one; zero has none. -/
def numberLetters (n : Nat) : List Char :=
  if n = 0 then []
  else numberLetters ((n - 1) / 26) ++ [Char.ofNat ('A'.toNat + (n - 1) % 26)]
termination_by n
decreasing_by omega

/-- The letters of a column, counted from zero. -/
def letters (col : UInt32) : String := String.ofList (numberLetters (col.toNat + 1))

/-- The value of a letter of either case, from 1 to 26. -/
def letterValue (c : Char) : Nat := c.toUpper.toNat - 'A'.toNat + 1

/-- Reads on from the number `n` of the letters before. The first character that is no letter and
the first letter that takes the number out of range are both reported where they stand. -/
def readLetters (whole : String) (n : Nat) : List Char → Except AddressError Nat
  | [] => .ok n
  | c :: cs =>
    if !c.isAlpha then .error (.badLetter c)
    else if Address.maxNumber < 26 * n + letterValue c then .error (.columnOutOfRange whole)
    else readLetters whole (26 * n + letterValue c) cs

/-- The column, counted from zero, that letters of either case name. -/
def ofLetters (s : String) : Except AddressError UInt32 :=
  if s.isEmpty then .error .noLetters
  else do
    let n ← readLetters s 0 s.toList
    return .ofNat (n - 1)

end Spreadsheet.Column
