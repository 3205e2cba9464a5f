import Std.Data.ExtTreeMap
import Std.Data.ExtTreeSet

/-! Cell addresses and their row-major order. -/
namespace Spreadsheet

/-- A cell's place in the grid. Rows and columns are counted from zero, in words of 32 bits. -/
structure Address where
  row : UInt32
  col : UInt32
deriving DecidableEq, Repr

namespace Address

/-- Addresses are ordered by row and, within a row, by column. -/
instance : Ord Address := ⟨compareLex (compareOn row) (compareOn col)⟩

theorem compare_def (a b : Address) :
    compare a b = (compare a.row b.row).then (compare a.col b.col) := rfl

instance : Std.TransOrd Address :=
  inferInstanceAs (Std.TransCmp (compareLex (compareOn row) (compareOn col)))

instance : Std.LawfulEqOrd Address where
  eq_of_compare {a b} h := by
    simp only [compare_def, Ordering.then_eq_eq, Std.LawfulEqCmp.compare_eq_iff_eq] at h
    cases a
    cases b
    simp_all

/-- The greatest row number and the greatest column number, both counted from one, that a text
may name. -/
def maxNumber : Nat := 1 <<< 32 - 1

end Address

/-- A set of cells; its members are listed in row-major order. -/
abbrev AddressSet := Std.ExtTreeSet Address

/-- A table with one entry per cell, listed in row-major order. -/
abbrev AddressMap (α : Type) := Std.ExtTreeMap Address α

end Spreadsheet
