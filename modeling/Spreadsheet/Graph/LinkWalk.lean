import Spreadsheet.Graph.Walk

/-!
A depth-first walk that finds strongly connected components by low-links. A cell stays open until
its component is complete, so a cell that closes a cycle through a cell left before is still found
to be on it.
-/
namespace Spreadsheet

/-- What the walk knows of a cell that has been entered. -/
structure Link where
  /-- Whether the component of the cell may still grow. -/
  isOpen : Bool
  /-- The number of cells entered before. -/
  index : Nat
  /-- The least index of an open cell that the cell is known to lead to, itself included. -/
  low : Nat
deriving DecidableEq, Repr

structure LinkWalk where
  /-- The cells that may still be entered. -/
  unseen : AddressSet
  links : AddressMap Link
  /-- The number of cells entered. -/
  entered : Nat
  /-- The open cells, the latest first. -/
  stack : List Address
  /-- The cells found to be on no cycle, the latest first. -/
  order : List Address
  /-- The cells found to be on a cycle. -/
  cycles : AddressSet

namespace LinkWalk

def start (cells : AddressSet) : LinkWalk := ⟨cells, ∅, 0, [], [], ∅⟩

def enter (w : LinkWalk) (cell : Address) : LinkWalk :=
  { w with
    unseen := w.unseen.erase cell
    links := w.links.insert cell ⟨true, w.entered, w.entered⟩
    entered := w.entered + 1
    stack := cell :: w.stack }

/-- Notes that a cell leads to an open cell with the given index. -/
def lower (w : LinkWalk) (cell : Address) (index : Nat) : LinkWalk :=
  { w with links := w.links.modify cell fun link => { link with low := min link.low index } }

/-- Looks from a cell at a neighbour that is not entered. -/
def look (w : LinkWalk) (cell neighbour : Address) : LinkWalk :=
  match w.links[neighbour]? with
  | some ⟨true, index, _⟩ => w.lower cell index
  | _ => w

/-- The cells down to the given one, and those below. -/
def popTo (cell : Address) : List Address → List Address × List Address
  | [] => ([], [])
  | c :: cs =>
    if c = cell then ([c], cs)
    else
      let (component, below) := popTo cell cs
      (c :: component, below)

def close (links : AddressMap Link) (cell : Address) : AddressMap Link :=
  links.modify cell fun link => { link with isOpen := false }

/-- Completes the component of a cell: the open cells down to it. They are on a cycle if there are
several or if the cell leads to itself. -/
def complete (next : Address → List Address) (w : LinkWalk) (cell : Address) : LinkWalk :=
  let (component, below) := popTo cell w.stack
  let onCycle := 1 < component.length || (next cell).contains cell
  { w with
    links := component.foldl close w.links
    stack := below
    order := if onCycle then w.order else cell :: w.order
    cycles := if onCycle then w.cycles.insertMany component else w.cycles }

/-- Leaves a cell for the cell before it on the path, which leads to whatever it leads to. -/
def leave (next : Address → List Address) (w : LinkWalk) (cell : Address)
    (parent? : Option Address) : LinkWalk :=
  match w.links[cell]? with
  | none => w
  | some link =>
    let w := parent?.elim w fun parent => w.lower parent link.low
    if link.low = link.index then w.complete next cell else w

@[simp] theorem unseen_look (w : LinkWalk) (cell neighbour : Address) :
    (w.look cell neighbour).unseen = w.unseen := by
  unfold look
  split <;> rfl

@[simp] theorem unseen_leave (next : Address → List Address) (w : LinkWalk) (cell : Address)
    (parent? : Option Address) : (w.leave next cell parent?).unseen = w.unseen := by
  unfold leave
  split
  · rfl
  · cases parent? <;> dsimp only [Option.elim] <;> split <;> rfl

/-- Walks on until the path is empty. -/
def run (next : Address → List Address) (w : LinkWalk) : List Frame → LinkWalk
  | [] => w
  | ⟨cell, []⟩ :: path => run next (w.leave next cell (path.head?.map Frame.cell)) path
  | ⟨cell, n :: pending⟩ :: path =>
    if n ∈ w.unseen then run next (w.enter n) (⟨n, next n⟩ :: ⟨cell, pending⟩ :: path)
    else run next (w.look cell n) (⟨cell, pending⟩ :: path)
termination_by path => (w.unseen.size, path.length + (path.flatMap Frame.pending).length)
decreasing_by
  · simp [Prod.lex_def]
  · exact Prod.Lex.left _ _ (Walk.size_erase_lt ‹_›)
  · simp [Prod.lex_def]

/-- Walks from a root, unless it has been entered before. -/
def visit (next : Address → List Address) (w : LinkWalk) (root : Address) : LinkWalk :=
  if root ∈ w.unseen then run next (w.enter root) [⟨root, next root⟩] else w

end LinkWalk

end Spreadsheet
