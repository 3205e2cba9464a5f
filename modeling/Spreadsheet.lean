import Spreadsheet.CommandLine.Session
import Spreadsheet.Main
import Spreadsheet.Proofs.Graph.Reads
import Spreadsheet.Proofs.Graph.Walk
import Spreadsheet.Proofs.Graph.Schedule
import Spreadsheet.Proofs.Graph.Layers
import Spreadsheet.Proofs.Graph.Depth
import Spreadsheet.Proofs.Recalculate.Batches
import Spreadsheet.Proofs.Formula.Faults
import Spreadsheet.Proofs.Recalculate.Pass
import Spreadsheet.Proofs.Number.Bits
import Spreadsheet.Proofs.Number.Nearest
import Spreadsheet.Proofs.Number.Sign
import Spreadsheet.Proofs.Text.Pieces
import Spreadsheet.Proofs.Address.Column
import Spreadsheet.Proofs.Formula.Scan
import Spreadsheet.Proofs.Formula.Tiling
import Spreadsheet.Proofs.Formula.Nesting
import Spreadsheet.Proofs.Formula.Grammar
import Spreadsheet.Proofs.Formula.Height
import Spreadsheet.Proofs.Formula.Loads
import Spreadsheet.Proofs.Recalculate.Expansion
import Spreadsheet.Proofs.Recalculate.Blame
import Spreadsheet.Proofs.Graph.Strict
import Spreadsheet.Proofs.Graph.Recursion
import Spreadsheet.Proofs.Sheet.Area
import Spreadsheet.Proofs.Address.Form
import Spreadsheet.Proofs.Address.Limit
import Spreadsheet.Proofs.Text.Trim
import Spreadsheet.Proofs.Text.Utf8
import Spreadsheet.Proofs.Formula.Reference
import Spreadsheet.Proofs.Formula.Stuck
import Spreadsheet.Proofs.Csv.RoundTrip
import Spreadsheet.Proofs.Formula.Blanks
import Spreadsheet.Proofs.Csv.Trim
import Spreadsheet.Proofs.Recalculate.Shown
import Spreadsheet.Proofs.Csv.Reevaluation
import Spreadsheet.Proofs.Formula.Spacing
import Spreadsheet.Proofs.Formula.Layout
import Spreadsheet.Proofs.Formula.Places
import Spreadsheet.Proofs.Formula.Unclosed
import Spreadsheet.Proofs.Formula.Postorder
import Spreadsheet.Proofs.Formula.Parens
import Spreadsheet.Proofs.Graph.History
import Spreadsheet.Proofs.Recalculate.Counts
import Spreadsheet.Proofs.Formula.Leaves
import Spreadsheet.Proofs.History
import Spreadsheet.Proofs.Sheet.History
import Spreadsheet.Proofs.Table.Layout
import Spreadsheet.Proofs.Formula.Counters
