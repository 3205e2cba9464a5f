import Spreadsheet.Csv.Error
import Spreadsheet.Sheet

/-! Reading a sheet from separated values. -/
namespace Spreadsheet.Csv

structure ReadOptions extends Dialect where
  /-- Whether the first record is no row of the sheet. -/
  header : Bool := false
  /-- Whether blanks around fields are removed. -/
  trim : Bool := true

def isAsciiBlank (b : UInt8) : Bool := [9, 10, 12, 13, 32].contains b

def trimBytes (bytes : Bytes) : Bytes :=
  ((bytes.dropWhile isAsciiBlank).reverse.dropWhile isAsciiBlank).reverse

/-- The text of the field number `index` of a record that starts at `start`. ASCII blanks go
first, so that a fault is counted from what is left. -/
def fieldText (trim : Bool) (start : Position) (index : Nat) (bytes : Bytes) :
    Except CsvError String :=
  let bytes := if trim then trimBytes bytes else bytes
  match Text.decode? bytes with
  | none => .error (.invalidText start index (Text.validLength bytes))
  | some s => .ok (if trim then Text.trim s else s)

def Record.texts (trim : Bool) (r : Record) : Except CsvError (List String) :=
  r.fields.zipIdx.mapM fun (bytes, index) => fieldText trim r.start index bytes

/-- Drops the header record. The search for the first row begins where the search for the header
began. -/
def dropHeader : List Record → List Record
  | header :: first :: rest => { first with start := header.start } :: rest
  | _ => []

/-- The records that are rows of a sheet. -/
def rowRecords (options : ReadOptions) (bytes : Bytes) : List Record :=
  let all := records options.toDialect bytes
  if options.header then dropHeader all else all

/-- The number of a row or column as one of an address; if it is no word, its digits are at fault. -/
def toWord (fault : String → AddressError) (n : Nat) : Except AddressError UInt32 :=
  if n < UInt32.size then .ok (.ofNat n) else .error (fault (toString n))

/-- Puts the fields of a row into the cells from the column `col` on. Empty fields are no cells, so
they need no column. -/
def placeFields (s : Sheet) (row : UInt32) (col : Nat) : List String → Except AddressError Sheet
  | [] => .ok s
  | field :: fields =>
    if field.isEmpty then placeFields s row (col + 1) fields
    else do
      let column ← toWord .columnOutOfRange col
      placeFields (s.set ⟨row, column⟩ field) row (col + 1) fields

/-- Puts the fields of the row number `index` into its cells. -/
def placeRow (s : Sheet) (index : Nat) (fields : List String) : Except AddressError Sheet := do
  let row ← toWord .rowOutOfRange index
  placeFields s row 0 fields

/-- Reads records as the rows from the number `index` on. A fault is reported before any later record
is looked at. -/
def placeRecords (trim : Bool) (s : Sheet) (index : Nat) : List Record → Except CsvError Sheet
  | [] => .ok s
  | record :: records => do
    let fields ← record.texts trim
    let s ← (placeRow s index fields).mapError .core
    placeRecords trim s (index + 1) records

/-- Reads a sheet. Each record is a row. -/
def read (options : ReadOptions) (bytes : Bytes) : Except CsvError Sheet :=
  placeRecords options.trim ∅ 0 (rowRecords options bytes)

end Spreadsheet.Csv
