import Spreadsheet.Csv.Read
import Spreadsheet.Proofs.Except
import Spreadsheet.Proofs.Text.Utf8

/-! The rows that are read are the texts of the fields of the records. Whether they can be read does
not depend on trimming. -/
namespace Spreadsheet.Csv

/-- A text as it is read with or without trimming. -/
def trimIf (trim : Bool) (t : String) : String := if trim then Text.trim t else t

theorem map_trimIf_false (rows : List (List String)) :
    rows.map (List.map (trimIf false)) = rows := by
  have hid : trimIf false = id := rfl
  rw [hid, List.map_id_fun, List.map_id]

theorem toOption_fieldText (trim : Bool) (start : Position) (index : Nat) (bytes : Bytes) :
    (fieldText trim start index bytes).toOption = (Text.decode? bytes).map (trimIf trim) := by
  cases trim with
  | false =>
    simp only [fieldText, Bool.false_eq_true, if_false]
    cases Text.decode? bytes <;> rfl
  | true =>
    have hread : (fieldText true start index bytes).toOption =
        (Text.decode? (trimBytes bytes)).map Text.trim := by
      simp only [fieldText, if_true]
      cases Text.decode? (trimBytes bytes) <;> rfl
    rw [hread]
    exact Text.map_trim_decode?_trimBytes bytes

theorem toOption_texts (trim : Bool) (r : Record) :
    (r.texts trim).toOption = (r.fields.mapM Text.decode?).map (List.map (trimIf trim)) := by
  have h := toOption_mapM (f := fun x => fieldText trim r.start x.2 x.1)
    (g := fun x => Text.decode? x.1) (fun x => toOption_fieldText trim r.start x.2 x.1)
    r.fields.zipIdx
  have hfields : r.fields.zipIdx.mapM (fun x => Text.decode? x.1) = r.fields.mapM Text.decode? := by
    conv_rhs => rw [← List.zipIdx_map_fst 0 r.fields, List.mapM_map]
    rfl
  rw [hfields] at h
  exact h

/-- The records that are rows of a sheet, as the bytes of their fields. -/
def rowFields (options : ReadOptions) (bytes : Bytes) : List (List Bytes) :=
  ((records options.toDialect bytes).map Record.fields).drop (if options.header then 1 else 0)

theorem fields_dropHeader (l : List Record) :
    (dropHeader l).map Record.fields = (l.map Record.fields).drop 1 := by
  cases l with
  | nil => rfl
  | cons header l => cases l <;> rfl

/-- The texts of the rows of a sheet, if all of them can be read. -/
def readRows (options : ReadOptions) (bytes : Bytes) : Except CsvError (List (List String)) :=
  (rowRecords options bytes).mapM (Record.texts options.trim)

theorem toOption_readRows (options : ReadOptions) (bytes : Bytes) :
    (readRows options bytes).toOption =
      ((rowFields options bytes).mapM (List.mapM Text.decode?)).map
        (List.map (List.map (trimIf options.trim))) := by
  have h := toOption_mapM (toOption_texts options.trim)
  have hfields : ∀ l : List Record, (l.mapM fun r => r.fields.mapM Text.decode?) =
      (l.map Record.fields).mapM (List.mapM Text.decode?) := fun l => by
    rw [List.mapM_map]
    rfl
  rw [readRows, h, hfields, rowFields, rowRecords]
  cases options.header with
  | false => rfl
  | true =>
    simp only [if_true]
    rw [fields_dropHeader]

end Spreadsheet.Csv
