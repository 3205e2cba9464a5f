import Spreadsheet.Graph.Basic
import Spreadsheet.Graph.LinkWalk

/-! The order in which cells can be evaluated, and the cells that cannot. -/
namespace Spreadsheet

structure Schedule where
  /-- The cells on no cycle, each after the cells that it reads. -/
  order : List Address
  /-- The cells on a cycle. -/
  cycles : AddressSet

namespace Graph

def nodes (g : Graph) : AddressSet := Std.ExtTreeSet.ofList g.cells

/-- The depth-first walk from every node to the cells that it reads, in row-major order. -/
def search (g : Graph) : Walk := g.cells.foldl (Walk.visit g.precedentsOf) (Walk.start g.nodes)

/-- The walk from every node that finds the components. -/
def linkSearch (g : Graph) : LinkWalk :=
  g.cells.foldl (LinkWalk.visit g.precedentsOf) (LinkWalk.start g.nodes)

/-- Sets the cells on cycles apart and orders all others. -/
def schedule (g : Graph) : Schedule where
  order := g.linkSearch.order.reverse
  cycles := g.linkSearch.cycles

/-- Orders all cells, each after the cells that it reads. On a graph with a cycle the error names
the cell where the first cycle that is met closes. -/
def order (g : Graph) : Except FormulaError (List Address) :=
  match g.search.closing? with
  | some cell => .error (.circularReference cell)
  | none => .ok g.search.finished.reverse

end Graph

/-- Cells arranged in layers, and the layer of each. -/
structure Layering where
  depths : AddressMap Nat
  layers : Array (Array Address)

namespace Layering

instance : EmptyCollection Layering := ⟨⟨∅, #[]⟩⟩

/-- The layer after those of the given cells; cells in no layer do not count. -/
def depthAfter (l : Layering) (cells : List Address) : Nat :=
  cells.foldl (fun depth cell => max depth (l.depths[cell]?.elim 0 (· + 1))) 0

/-- The layers, filled up with empty ones to at least `n`. -/
def grow (l : Layering) (n : Nat) : Array (Array Address) :=
  l.layers ++ Array.replicate (n - l.layers.size) #[]

/-- Puts a cell into the first layer after the cells that it reads. -/
def place (g : Graph) (l : Layering) (cell : Address) : Layering :=
  let depth := l.depthAfter (g.precedentsOf cell)
  { depths := l.depths.insert cell depth
    layers := (l.grow (depth + 1)).modify depth (·.push cell) }

end Layering

namespace Schedule

instance : EmptyCollection Schedule := ⟨⟨[], ∅⟩⟩

def isCyclic (s : Schedule) (cell : Address) : Bool := s.cycles.contains cell

/-- The ordered cells in layers. A cell reads cells of earlier layers, cells on cycles and cells
without content only, so the cells of a layer can be evaluated independently. -/
def layers (s : Schedule) (g : Graph) : List (List Address) :=
  ((s.order.foldl (Layering.place g) ∅).layers.map Array.toList).toList

end Schedule

end Spreadsheet
