import Spreadsheet.Proofs.Recalculate.Shown

/-!
The counts of a pass. The cells that cannot be read, the cells on cycles and the cells that are evaluated
are apart from each other and together all that have a text. So a pass writes the outcome of every cell
once, and its counts are those of its outcomes and of what it shows.
-/
namespace Spreadsheet

namespace Outcomes

variable {o : Outcomes} {c k : Address} {x : Outcome} {l : List (Address × Outcome)}

end Outcomes

section WritesOf

variable (formulas : AddressMap Expr) (known : Outcomes) (batches : List (List Address))

end WritesOf

namespace Sheet

variable {s : Sheet} {c : Address}

section Partition

end Partition

section Tally

variable (s : Sheet) (mode : Mode)

end Tally

end Sheet

namespace Results

variable {r : Results} {c : Address}

/-- The cells that are shown, row by row. -/
def area (r : Results) : List Address :=
  (List.range r.rows.toNat).flatMap fun row => (List.range r.cols.toNat).map fun col =>
    ⟨.ofNat row, .ofNat col⟩

end Results

namespace Outcomes

variable {o : Outcomes} {c : Address}

end Outcomes

namespace Sheet

end Sheet

end Spreadsheet
