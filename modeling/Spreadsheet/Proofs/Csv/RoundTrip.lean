import Spreadsheet.Proofs.Csv.Placing
import Spreadsheet.Proofs.Csv.Scan

/-! A grid that is written and read again gives the sheet of the grid. -/
namespace Spreadsheet.Csv

variable {o : WriteOptions} {rows : List (List String)}

section PadRow

/-- A field that is put in for a row without fields is empty. -/
theorem getElem?_padRow_bind_kept (row : List String) (k : Nat) :
    ((padRow row)[k]?).bind Text.kept = (row[k]?).bind Text.kept := by
  cases row with
  | nil => cases k <;> rfl
  | cons t row => rfl

theorem fits_map_padRow (h : Sheet.Fits rows) : Sheet.Fits (rows.map padRow) := by
  refine Sheet.fits_map h.1 fun row hrow => ?_
  cases row with
  | nil => exact Nat.one_le_two_pow
  | cons t row => exact h.2 _ hrow

/-- An empty field in a row without fields is no cell. -/
theorem bind_kept_map_padRow (rows : List (List String)) (i k : Nat) :
    (((rows.map padRow)[i]?).bind (·[k]?)).bind Text.kept =
      ((rows[i]?).bind (·[k]?)).bind Text.kept := by
  rw [List.getElem?_map]
  cases rows[i]? with
  | none => rfl
  | some row => exact getElem?_padRow_bind_kept row k

theorem ofRows_map_padRow (h : Sheet.Fits rows) :
    Sheet.ofRows (rows.map padRow) = Sheet.ofRows rows := by
  refine Sheet.ext_text? fun c => ?_
  rw [Sheet.text?_ofRows (fits_map_padRow h), Sheet.text?_ofRows h, bind_kept_map_padRow]

theorem map_trimIf_padRow (trim : Bool) (row : List String) :
    (padRow row).map (trimIf trim) = padRow (row.map (trimIf trim)) := by
  cases row with
  | nil => cases trim <;> rfl
  | cons t row => rfl

end PadRow

theorem mapM_map_of_leftInverse {α β : Type} {f : α → Option β} {g : β → α}
    (h : ∀ b, f (g b) = some b) (l : List β) : (l.map g).mapM f = some l := by
  induction l with
  | nil => rfl
  | cons b l ih =>
    rw [List.map_cons, List.mapM_cons, h, ih]
    rfl

/-- Written rows are read back as they are, but for an empty field in a row without fields. -/
theorem readRows_write (hd : o.Proper) (hbom : ¬ byteOrderMark <+: write o rows) (trim : Bool) :
    readRows ⟨o.toDialect, false, trim⟩ (write o rows) =
      .ok ((rows.map (List.map (trimIf trim))).map padRow) := by
  have hdecode : (rows.map fun row => (padRow row).map Text.encode).mapM (List.mapM Text.decode?) =
      some (rows.map padRow) := by
    have h := mapM_map_of_leftInverse
      (mapM_map_of_leftInverse Text.decode?_encode) (rows.map padRow)
    rwa [List.map_map] at h
  have hfields : rowFields ⟨o.toDialect, false, trim⟩ (write o rows) =
      rows.map fun row => (padRow row).map Text.encode := fields_records_write hd rows hbom
  have hread := toOption_readRows ⟨o.toDialect, false, trim⟩ (write o rows)
  rw [hfields, hdecode, Option.map_some, List.map_map, toOption_eq_some_iff] at hread
  rw [hread, List.map_map]
  simp only [Function.comp_def, map_trimIf_padRow]

theorem fits_map_map (f : String → String) (h : Sheet.Fits rows) :
    Sheet.Fits (rows.map (List.map f)) := by
  refine Sheet.fits_map h.1 fun row hrow => ?_
  rw [List.length_map]
  exact h.2 row hrow

theorem read_write_of_trim (hd : o.Proper) (hbom : ¬ byteOrderMark <+: write o rows)
    (hf : Sheet.Fits rows) (trim : Bool) : read ⟨o.toDialect, false, trim⟩ (write o rows) =
      .ok (Sheet.ofRows (rows.map (List.map (trimIf trim)))) := by
  have hfits := fits_map_map (trimIf trim) hf
  rw [read_of_fits (readRows_write hd hbom trim) (fits_map_padRow hfits), ofRows_map_padRow hfits]

end Spreadsheet.Csv
