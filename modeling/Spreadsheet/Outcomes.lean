import Spreadsheet.Formula.Error

/-! The outcomes known so far. A cell's outcome is written once and never replaced. -/
namespace Spreadsheet

/-- The outcome of every cell that has one, in row-major order. -/
structure Outcomes where
  entries : AddressMap Outcome

namespace Outcomes

instance : EmptyCollection Outcomes := ⟨⟨∅⟩⟩

def get? (o : Outcomes) (cell : Address) : Option Outcome := o.entries[cell]?

def contains (o : Outcomes) (cell : Address) : Bool := o.entries.contains cell

/-- Writes the outcome of a cell, unless the cell has one. -/
def record (o : Outcomes) (cell : Address) (outcome : Outcome) : Outcomes :=
  ⟨o.entries.insertIfNew cell outcome⟩

/-- Writes the outcomes of cells in their order. -/
def recordAll (o : Outcomes) (l : List (Address × Outcome)) : Outcomes :=
  l.foldl (fun o x => o.record x.1 x.2) o

def value? (o : Outcomes) (cell : Address) : Option Float :=
  (o.get? cell).bind Except.toOption

def error? (o : Outcomes) (cell : Address) : Option FormulaError :=
  match o.get? cell with
  | some (.error e) => some e
  | _ => none

def toList (o : Outcomes) : List (Address × Outcome) := o.entries.toList

def errors (o : Outcomes) : List (Address × FormulaError) :=
  o.toList.filterMap fun
    | (cell, .error e) => some (cell, e)
    | (_, .ok _) => none

def size (o : Outcomes) : Nat := o.entries.size

def isEmpty (o : Outcomes) : Bool := o.entries.isEmpty

end Outcomes

end Spreadsheet
