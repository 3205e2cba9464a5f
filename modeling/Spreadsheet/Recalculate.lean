import Spreadsheet.Formula.Evaluate
import Spreadsheet.Formula.Parse
import Spreadsheet.Graph.Schedule
import Spreadsheet.Outcomes
import Spreadsheet.Sheet
import Spreadsheet.Table

/-!
Recalculation: every cell with a text comes to a number or an error.

Cells that cannot be read and cells on cycles get their error first. All others are evaluated in
batches. The cells of a batch see the outcomes of earlier batches only.
-/
namespace Spreadsheet

/-- How the cells that can be evaluated are put into batches. -/
inductive Mode where
  | single
  /-- A layer of independent cells at a time. -/
  | layered
deriving DecidableEq, Repr

/-- The batches in which the cells of a schedule are evaluated. -/
def Mode.batches (mode : Mode) (g : Graph) (s : Schedule) : List (List Address) :=
  match mode with
  | single => s.order.map ([·])
  | layered => s.layers g

/-- Counts over one recalculation. -/
structure Tally where
  cells : Nat
  /-- The cells with a text other than a plain number. -/
  formulas : Nat
  evaluated : Nat
  circular : Nat
  errors : Nat
deriving DecidableEq, Repr

/-- What a sheet comes to. -/
structure Results where
  outcomes : Outcomes
  tally : Tally
  rows : UInt32
  cols : UInt32

namespace Sheet

/-- Every cell with its formula, or the reason why it has none. -/
def formulas (s : Sheet) : List (Address × Except FormulaError Expr) :=
  s.toList.map fun (cell, text) => (cell, Formula.parse text)

end Sheet

/-- The cells whose formula can be read. -/
def readable (l : List (Address × Except FormulaError Expr)) : List (Address × Expr) :=
  l.filterMap fun
    | (cell, .ok e) => some (cell, e)
    | (_, .error _) => none

/-- The errors of the cells whose formula cannot be read. -/
def unreadable (l : List (Address × Except FormulaError Expr)) : List (Address × Outcome) :=
  l.filterMap fun
    | (_, .ok _) => none
    | (cell, .error e) => some (cell, .error e)

def Expr.isLiteral : Expr → Bool
  | literal _ => true
  | _ => false

/-- The outcome of a cell from the outcomes known so far. -/
def outcomeOf (formulas : AddressMap Expr) (known : Outcomes) (cell : Address) : Outcome :=
  match formulas[cell]? with
  | some e => e.evaluate known.get?
  | none => .error (.undefinedReference cell)

/-- Evaluates the cells of a batch, and only then writes their outcomes. -/
def runBatch (formulas : AddressMap Expr) (known : Outcomes) (batch : List Address) : Outcomes :=
  known.recordAll (batch.map fun cell => (cell, outcomeOf formulas known cell))

/-- A sheet whose formulas are read and whose cells on cycles are set apart. -/
structure Plan where
  /-- Every cell with its formula, or the reason why it has none. -/
  cells : List (Address × Except FormulaError Expr)
  formulas : AddressMap Expr
  graph : Graph
  schedule : Schedule
  /-- The errors of the cells that are not evaluated. -/
  failed : Outcomes

/-- What is known before the first cell is evaluated. -/
def Sheet.plan (s : Sheet) : Plan :=
  let cells := s.formulas
  let formulas := readable cells
  let graph := Graph.ofFormulas formulas
  let schedule := graph.schedule
  let circular := schedule.cycles.toList.map fun cell => (cell, .error (.circularReference cell))
  { cells, graph, schedule
    formulas := Std.ExtTreeMap.ofList formulas
    failed := (∅ : Outcomes).recordAll (unreadable cells ++ circular) }

/-- The outcomes after evaluating batches in their order. -/
def Plan.run (p : Plan) (batches : List (List Address)) : Outcomes :=
  batches.foldl (runBatch p.formulas) p.failed

def Sheet.recalculate (s : Sheet) (mode : Mode) : Results :=
  let p := s.plan
  let batches := mode.batches p.graph p.schedule
  let outcomes := p.run batches
  let (rows, cols) := s.dimensions
  { outcomes, rows, cols
    tally :=
      { cells := p.cells.length
        formulas := p.cells.countP fun (_, e) => !e.toOption.any Expr.isLiteral
        evaluated := batches.flatten.length
        circular := p.schedule.cycles.size
        errors := outcomes.errors.length } }

namespace Results

/-- The outcome of a cell given by its reference; a cell without a text is an undefined
reference. -/
def get (r : Results) (reference : String) : Outcome :=
  match Formula.parseReference reference with
  | .error e => .error e
  | .ok cell => (r.outcomes.get? cell).getD (.error (.undefinedReference cell))

def display (r : Results) (cell : Address) : String :=
  match r.outcomes.get? cell with
  | none => ""
  | some (.ok x) => Number.display x
  | some (.error e) => e.marker

/-- The texts shown for the used area, row by row. -/
def toRows (r : Results) : List (List String) :=
  (List.range r.rows.toNat).map fun row => (List.range r.cols.toNat).map fun col =>
    r.display ⟨.ofNat row, .ofNat col⟩

def table (r : Results) : String := Table.render r.toRows

end Results

end Spreadsheet
