import Spreadsheet.Address.Basic

/-!
Depth-first walks over cells. The path from the root is a list of frames and not a chain of calls,
so its length is not limited.
-/
namespace Spreadsheet

/-- A cell on the path and the neighbours that it has still to look at. -/
structure Frame where
  cell : Address
  pending : List Address

/-- What a walk has done so far. -/
structure Walk where
  /-- The cells that may still be entered. -/
  unseen : AddressSet
  active : AddressSet
  /-- The cells that have been left, the latest first. -/
  finished : List Address
  /-- The first neighbour looked at that was on the path. -/
  closing? : Option Address

namespace Walk

def start (cells : AddressSet) : Walk := ⟨cells, ∅, [], none⟩

def enter (w : Walk) (cell : Address) : Walk :=
  { w with unseen := w.unseen.erase cell, active := w.active.insert cell }

def leave (w : Walk) (cell : Address) : Walk :=
  { w with active := w.active.erase cell, finished := cell :: w.finished }

/-- Looks at a neighbour that is not entered. -/
def skip (w : Walk) (cell : Address) : Walk :=
  if w.closing?.isNone ∧ cell ∈ w.active then { w with closing? := some cell } else w

theorem size_erase_lt {s : AddressSet} {cell : Address} (h : cell ∈ s) :
    (s.erase cell).size < s.size := by
  have hc : s.contains cell = true := h
  have hp : s.size ≠ 0 := by
    intro h0
    have : s.isEmpty = true := by simp [Std.ExtTreeSet.isEmpty_eq_size_beq_zero, h0]
    rw [Std.ExtTreeSet.isEmpty_iff] at this
    simp [this] at h
  simp only [Std.ExtTreeSet.size_erase, hc, if_true]
  omega

theorem size_unseen_enter {w : Walk} {cell : Address} (h : cell ∈ w.unseen) :
    (w.enter cell).unseen.size < w.unseen.size := size_erase_lt h

@[simp] theorem unseen_leave (w : Walk) (cell : Address) : (w.leave cell).unseen = w.unseen := rfl

@[simp] theorem unseen_skip (w : Walk) (cell : Address) : (w.skip cell).unseen = w.unseen := by
  simp only [skip]
  split <;> rfl

/-- Walks on until the path is empty. Each cell on the path enters its neighbours in their order
and is left after the last. -/
def run (next : Address → List Address) (w : Walk) : List Frame → Walk
  | [] => w
  | ⟨cell, []⟩ :: path => run next (w.leave cell) path
  | ⟨cell, n :: pending⟩ :: path =>
    if n ∈ w.unseen then run next (w.enter n) (⟨n, next n⟩ :: ⟨cell, pending⟩ :: path)
    else run next (w.skip n) (⟨cell, pending⟩ :: path)
termination_by path => (w.unseen.size, path.length + (path.flatMap Frame.pending).length)
decreasing_by
  · simp [Prod.lex_def]
  · exact Prod.Lex.left _ _ (size_unseen_enter ‹_›)
  · simp [Prod.lex_def]

/-- Walks from a root, unless it has been entered before. -/
def visit (next : Address → List Address) (w : Walk) (root : Address) : Walk :=
  if root ∈ w.unseen then run next (w.enter root) [⟨root, next root⟩] else w

end Walk

end Spreadsheet
