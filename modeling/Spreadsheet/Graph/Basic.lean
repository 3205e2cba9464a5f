import Spreadsheet.Formula.Expr

/-! Which cells read which. -/
namespace Spreadsheet

/-- The cells read by each cell and, the other way round, the cells that read it. The nodes are
the cells with an entry in `precedents`; a cell that is only read need not be a node. -/
structure Graph where
  precedents : AddressMap AddressSet
  dependents : AddressMap AddressSet

namespace Graph

instance : EmptyCollection Graph := ⟨⟨∅, ∅⟩⟩

/-- Adds a node that reads nothing, unless it is a node already. -/
def addCell (g : Graph) (cell : Address) : Graph :=
  { g with precedents := g.precedents.insertIfNew cell ∅ }

def addTo (m : AddressMap AddressSet) (key cell : Address) : AddressMap AddressSet :=
  m.alter key fun s => some ((s.getD ∅).insert cell)

/-- Lets `dependent` read `precedent`; the dependent becomes a node. -/
def addDependency (g : Graph) (precedent dependent : Address) : Graph where
  precedents := addTo g.precedents dependent precedent
  dependents := addTo g.dependents precedent dependent

/-- Adds a node that reads what its formula refers to. -/
def addFormula (g : Graph) (cell : Address) (e : Expr) : Graph :=
  e.references.toList.foldl (fun g precedent => g.addDependency precedent cell) (g.addCell cell)

def ofFormulas (l : List (Address × Expr)) : Graph :=
  l.foldl (fun g x => g.addFormula x.1 x.2) ∅

/-- The cells that a cell reads, in row-major order. -/
def precedentsOf (g : Graph) (cell : Address) : List Address := (g.precedents.getD cell ∅).toList

/-- The cells that read a cell, in row-major order. -/
def dependentsOf (g : Graph) (cell : Address) : List Address := (g.dependents.getD cell ∅).toList

def contains (g : Graph) (cell : Address) : Bool := g.precedents.contains cell

/-- The nodes, in row-major order. -/
def cells (g : Graph) : List Address := g.precedents.keys

def size (g : Graph) : Nat := g.precedents.size

def isEmpty (g : Graph) : Bool := g.precedents.isEmpty

end Graph

end Spreadsheet
