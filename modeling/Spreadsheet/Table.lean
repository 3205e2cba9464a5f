import Spreadsheet.Address.Column

/-!
Framed tables. Every row ends with a divider, the first row has the column letters and the first
column the row numbers:

```
 --------------------
 | / | A  | B       |
 --------------------
 | 1 | 10 | #DIV/0! |
 --------------------
```
-/
namespace Spreadsheet.Table

/-- The cells with column letters above, row numbers before, and short rows filled up. -/
def frame (rows : List (List String)) : List (List String) :=
  let cols := (rows.map List.length).foldl max 0
  let header := "/" :: (List.range cols).map fun col => Column.letters (.ofNat col)
  header :: rows.mapIdx fun i row => toString (i + 1) :: row.rightpad cols ""

def widths (framed : List (List String)) : List Nat :=
  match framed with
  | [] => []
  | row :: rows =>
    rows.foldl (fun ws row => List.zipWith max ws (row.map String.length)) (row.map String.length)

def pad (width : Nat) (s : String) : String :=
  s ++ String.ofList (List.replicate (width - s.length) ' ')

def rowLine (widths : List Nat) (row : List String) : String :=
  String.join (List.zipWith (fun width s => " | " ++ pad width s) widths row) ++ " |"

def divider (widths : List Nat) : String :=
  " " ++ String.ofList (List.replicate (widths.foldl (· + ·) 0 + 3 * widths.length + 1) '-') ++ " "

def lines (rows : List (List String)) : List String :=
  let framed := frame rows
  let widths := widths framed
  divider widths :: framed.flatMap fun row => [rowLine widths row, divider widths]

/-- The table as text, with a line break after every line. -/
def render (rows : List (List String)) : String := String.join ((lines rows).map (· ++ "\n"))

end Spreadsheet.Table
