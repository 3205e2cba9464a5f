import Spreadsheet.Address.Error
import Spreadsheet.Csv.Record
import Spreadsheet.Files.Fault

/-! Why separated values cannot be read. -/
namespace Spreadsheet

/-- Why there is no sheet to be had from separated values. -/
inductive CsvError where
  /-- The file cannot be loaded or written. -/
  | file (fault : LoadFault)
  /-- A field is not UTF-8 from the byte `index` on. -/
  | invalidText (start : Csv.Position) (field index : Nat)
  /-- A record, or a field of one, is at no address. -/
  | core (fault : AddressError)
deriving DecidableEq, Repr

namespace CsvError

/-- The error and the errors behind it, as shown to the user. -/
def chain : CsvError → List String
  | file (.opening fault) => [s!"IO error: {fault.message}", fault.message]
  | file (.reading fault) => [s!"CSV error: {fault.message}", fault.message]
  | invalidText start field index =>
    let place :=
      s!"record {start.record} (line {start.line}, field: {field}, byte: {start.byte})"
    let reason := s!"invalid utf-8: invalid UTF-8 in field {field} near byte index {index}"
    [s!"CSV error: CSV parse error: {place}: {reason}", s!"CSV parse error: {place}: {reason}"]
  | core fault => [s!"Core error: {fault.message}", fault.message]

def message (e : CsvError) : String := e.chain.headD ""

end CsvError

end Spreadsheet
