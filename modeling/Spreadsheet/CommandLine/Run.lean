import Spreadsheet.CommandLine.Arguments
import Spreadsheet.Csv.Read
import Spreadsheet.Csv.Write
import Spreadsheet.Files.Path

/-! What a command answers, given the content of its input. -/
namespace Spreadsheet.CommandLine

/-- Why a command failed, with the reasons behind it. -/
structure Report where
  message : String
  causes : List String := []
deriving DecidableEq, Repr

namespace Report

/-- Puts `first` before the first line of a text and `others` before all others. -/
def indent (first others text : String) : String :=
  first ++ ("\n" ++ others).intercalate (text.splitOn "\n")

/-- The reasons as an indented list, numbered if there are several. -/
def causeLines : List String → List String
  | [cause] => [indent "    " "    " cause]
  | causes => causes.mapIdx fun i cause => indent s!"    {i}: " "       " cause

def text (r : Report) : String :=
  let head := s!"Error: {r.message}\n"
  if r.causes.isEmpty then head
  else head ++ "\nCaused by:\n" ++ String.join ((causeLines r.causes).map (· ++ "\n"))

end Report

inductive Source where
  | standardInput
  | file (path : String)
deriving DecidableEq, Repr

/-- The source that a path names; a hyphen stands for standard input. -/
def Source.ofPath (path : String) : Source :=
  if (Path.ofString path).isName "-" then standardInput else file path

/-- What a command leaves behind. -/
structure Answer where
  output : Bytes := []
  /-- The content of a file that is to be written. -/
  file? : Option (String × Bytes) := none
  report? : Option Report := none
deriving DecidableEq, Repr

/-- The content of an input, or why there is none. -/
abbrev Content := Except LoadFault Bytes

def Answer.failure (r : Report) : Answer := { report? := some r }

def delimiterByte? (c : Char) : Option UInt8 := if c.toNat < 128 then some c.toUInt8 else none

def badDelimiter (c : Char) : Report :=
  { message := s!"Delimiter must be a single ASCII character, got '{c}'" }

def sheetOf (input : String) (delimiter : UInt8) (content : Content) : Except Report Sheet :=
  let sheet : Except CsvError Sheet := match content with
    | .error fault => .error (.file fault)
    | .ok bytes => Csv.read { delimiter } bytes
  match sheet with
  | .ok sheet => .ok sheet
  | .error e =>
    let message := match Source.ofPath input with
      | .standardInput => "Failed to read stdin"
      | .file path => s!"Failed to open '{path}'"
    .error { message, causes := e.chain }

/-- The lines about cells that fail, or the line that there are none. -/
def checkAnswer (r : Results) : Answer :=
  let errors := r.outcomes.errors
  if errors.isEmpty then { output := Text.encode s!"{r.tally.cells} cells OK\n" }
  else
    let lines := errors.map fun (cell, e) => s!"{cell.text}\t{e.marker}\t{e.message}\n"
    { output := Text.encode (String.join lines)
      report? := some
        { message := s!"{errors.length} of {r.tally.cells} cells failed to evaluate" } }

/-- The value of a formula without cells. -/
def exprAnswer (formula : String) : Answer :=
  match Formula.parse formula with
  | .error e => .failure { message := s!"Failed to parse '{formula}'", causes := [e.message] }
  | .ok e =>
    match e.evaluate fun _ => none with
    | .error e => .failure { message := s!"Failed to evaluate '{formula}'", causes := [e.message] }
    | .ok x => { output := Text.encode (Number.display x ++ "\n") }

namespace Command

/-- What a command reads; with a delimiter that cannot be used it reads nothing. -/
def source? : Command → Option Source
  | eval input _ _ delimiter _ | check input delimiter =>
    (delimiterByte? delimiter).map fun _ => Source.ofPath input
  | expr _ => none

/-- Runs a command on the content of its source. -/
def run (c : Command) (content : Content) : Answer :=
  match c with
  | eval input format output? delimiter mode =>
    match delimiterByte? delimiter with
    | none => .failure (badDelimiter delimiter)
    | some byte =>
      match sheetOf input byte content with
      | .error r => .failure r
      | .ok sheet =>
        let results := sheet.recalculate mode
        let bytes := match format with
          | .grid => Text.encode results.table
          | .csv => Csv.write { delimiter := byte } results.toRows
        match output? with
        | none => { output := bytes }
        | some path => { file? := some (path, bytes) }
  | check input delimiter =>
    match delimiterByte? delimiter with
    | none => .failure (badDelimiter delimiter)
    | some byte =>
      match sheetOf input byte content with
      | .error r => .failure r
      | .ok sheet => checkAnswer (sheet.recalculate .single)
  | expr formula => exprAnswer formula

end Command

def unwritten (path : String) (fault : FileFault) : Report :=
  { message := s!"Failed to write '{path}'", causes := [fault.message] }

def versionText : String := "cellcalc 0.1.0\n"

def helpText : String :=
  "Spreadsheet formula evaluator\n\n" ++
  "Usage: cellcalc [-v]... eval INPUT [-f grid|csv] [-o OUTPUT] [-d CHAR] [--parallel]\n" ++
  "       cellcalc [-v]... check INPUT [-d CHAR]\n" ++
  "       cellcalc [-v]... expr FORMULA\n\n" ++
  "INPUT is a file of comma-separated values, or - for standard input.\n"

end Spreadsheet.CommandLine
