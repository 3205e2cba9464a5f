import Spreadsheet.Address.A1

/-! Sheets of raw cell texts. -/
namespace Spreadsheet

/-- The text of every cell that has one, in row-major order. -/
structure Sheet where
  cells : AddressMap String

namespace Sheet

instance : EmptyCollection Sheet := ⟨⟨∅⟩⟩

/-- Sets the text of a cell; a blank text removes the cell. -/
def set (s : Sheet) (cell : Address) (text : String) : Sheet :=
  if Text.allBlank text then ⟨s.cells.erase cell⟩ else ⟨s.cells.insert cell text⟩

def setAt (s : Sheet) (reference text : String) : Except AddressError Sheet := do
  return s.set (← Address.parse reference) text

def text? (s : Sheet) (cell : Address) : Option String := s.cells[cell]?

def clear (s : Sheet) (cell : Address) : Sheet := ⟨s.cells.erase cell⟩

/-- Sets the cells of one row from the column `col` on. Rows and columns beyond the last are counted
from the first again. -/
def setRow (s : Sheet) (row col : Nat) : List String → Sheet
  | [] => s
  | text :: texts => setRow (s.set ⟨.ofNat row, .ofNat col⟩ text) row (col + 1) texts

/-- Sets the cells of rows from the row `row` on. -/
def setRows (s : Sheet) (row : Nat) : List (List String) → Sheet
  | [] => s
  | texts :: rows => setRows (s.setRow row 0 texts) (row + 1) rows

/-- The sheet whose rows start at A1. -/
def ofRows (rows : List (List String)) : Sheet := setRows ∅ 0 rows

def toList (s : Sheet) : List (Address × String) := s.cells.toList

def size (s : Sheet) : Nat := s.cells.size

def isEmpty (s : Sheet) : Bool := s.cells.isEmpty

/-- The number of rows and of columns of the area that starts at A1 and holds every cell. The sums
wrap around, so a cell in the last row or column of all adds none. -/
def dimensions (s : Sheet) : UInt32 × UInt32 :=
  s.cells.keys.foldl (fun (rows, cols) cell => (max rows (cell.row + 1), max cols (cell.col + 1)))
    (0, 0)

end Sheet

end Spreadsheet
