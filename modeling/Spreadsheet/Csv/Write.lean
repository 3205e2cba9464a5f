import Spreadsheet.Csv.Record

/-! Writing rows of texts as separated values. -/
namespace Spreadsheet.Csv

structure WriteOptions extends Dialect where
  /-- Whether a record ends with a carriage return before its line feed. -/
  crlf : Bool := false

/-- Whether a field can be misread unless it is quoted. -/
def needsQuotes (d : Dialect) (bytes : Bytes) : Bool :=
  bytes.any fun b => b = d.delimiter || b = d.quote || endsRecord b

/-- The field in quotes, with its quotes doubled. -/
def quoteField (d : Dialect) (bytes : Bytes) : Bytes :=
  d.quote :: bytes.flatMap (fun b => if b = d.quote then [b, b] else [b]) ++ [d.quote]

def encodeField (d : Dialect) (s : String) : Bytes :=
  let bytes := Text.encode s
  if needsQuotes d bytes then quoteField d bytes else bytes

/-- The written form of a row, without its end. A row that would leave no trace is written as an
empty field in quotes. -/
def encodeRow (d : Dialect) (row : List String) : Bytes :=
  let bytes := [d.delimiter].intercalate (row.map (encodeField d))
  if bytes.isEmpty then quoteField d [] else bytes

/-- Writes rows, one record a row. -/
def write (options : WriteOptions) (rows : List (List String)) : Bytes :=
  let terminator := if options.crlf then [carriageReturn, lineFeed] else [lineFeed]
  rows.flatMap fun row => encodeRow options.toDialect row ++ terminator

end Spreadsheet.Csv
