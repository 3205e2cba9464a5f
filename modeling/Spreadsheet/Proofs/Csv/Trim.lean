import Spreadsheet.Proofs.Csv.RoundTrip
import Spreadsheet.Proofs.Formula.Blanks
import Spreadsheet.Proofs.Recalculate.Readings

/-! Whether blanks around fields are removed as a sheet is read changes no number and no table. -/
namespace Spreadsheet

theorem Text.kept_trim (t : String) : kept (trim t) = (kept t).map trim := by
  unfold kept
  rw [allBlank_trim]
  split <;> rfl

namespace Sheet

variable {raw trimmed : Sheet}

/-- Trimmed texts are read as they were, but for the places of faults. -/
theorem readings_eq_of_text?_trim (htext : ∀ c, trimmed.text? c = (raw.text? c).map Text.trim)
    (hraw : ∀ c t, raw.text? c = some t → Text.allBlank t = false) :
    trimmed.readings FormulaError.withoutPosition = raw.readings FormulaError.withoutPosition := by
  refine Std.ExtTreeMap.ext_getElem? fun {c} => ?_
  rw [getElem?_readings, getElem?_readings, htext]
  cases ht : raw.text? c with
  | none => rfl
  | some t => exact congrArg some (Formula.mapError_parse_trim (hraw c t ht))

end Sheet

namespace Results

variable {r r' : Results}

/-- Errors that differ in nothing but the place of a fault are shown alike. -/
theorem display_congr {c : Address}
    (h : (r.outcomes.get? c).map (Except.mapError FormulaError.withoutPosition) =
      (r'.outcomes.get? c).map (Except.mapError FormulaError.withoutPosition)) :
    r.display c = r'.display c := by
  have hview : ∀ r : Results, r.display c =
      match (r.outcomes.get? c).map (Except.mapError FormulaError.withoutPosition) with
      | none => ""
      | some (.ok x) => Number.display x
      | some (.error e) => e.marker := by
    intro r
    unfold display
    rcases r.outcomes.get? c with _ | e | x
    · rfl
    · exact (FormulaError.marker_withoutPosition e).symm
    · rfl
  rw [hview, hview, h]

theorem toRows_congr (hrows : r.rows = r'.rows) (hcols : r.cols = r'.cols)
    (hdisplay : ∀ c, r.display c = r'.display c) : r.toRows = r'.toRows := by
  unfold toRows
  rw [hrows, hcols]
  simp only [hdisplay]

/-- A pass over trimmed texts comes to what a pass over the texts comes to. -/
theorem congr_of_text?_trim {raw trimmed : Sheet}
    (htext : ∀ c, trimmed.text? c = (raw.text? c).map Text.trim)
    (hraw : ∀ c t, raw.text? c = some t → Text.allBlank t = false) (mode : Mode) :
    let r := raw.recalculate mode
    let r' := trimmed.recalculate mode
    (∀ c, (r'.outcomes.get? c).map (Except.mapError FormulaError.withoutPosition) =
      (r.outcomes.get? c).map (Except.mapError FormulaError.withoutPosition)) ∧
    r'.tally = r.tally ∧ (r'.rows, r'.cols) = (r.rows, r.cols) ∧
    r'.toRows = r.toRows ∧ r'.table = r.table ∧
    ∀ o, Csv.write o r'.toRows = Csv.write o r.toRows := by
  intro r r'
  have hreadings := Sheet.readings_eq_of_text?_trim htext hraw
  have houtcomes := Sheet.get?_recalculate_of_readings_eq hreadings mode
  have hdimensions := Sheet.dimensions_of_readings_eq hreadings
  have hrows : r'.toRows = r.toRows :=
    toRows_congr (congrArg Prod.fst hdimensions) (congrArg Prod.snd hdimensions)
      fun c => display_congr (houtcomes c)
  refine ⟨houtcomes, Sheet.tally_recalculate_of_readings_eq hreadings mode, hdimensions, hrows,
    ?_, ?_⟩
  · show Table.render r'.toRows = Table.render r.toRows
    rw [hrows]
  · intro o
    rw [hrows]

end Results

namespace Csv

variable {d : Dialect} {bytes : Bytes}

section Blanks

variable {rows : List (List String)}

/-- A field that is not empty when it is trimmed was not empty before. -/
theorem Addressable.map_trim (h : Addressable rows) : Addressable (rows.map (List.map Text.trim)) := by
  constructor
  · rw [List.length_map]
    exact h.1
  · rw [List.forall_mem_map]
    intro row hrow x hx hne
    rw [List.zipIdx_map, List.mem_map] at hx
    obtain ⟨⟨t, k⟩, hx, rfl⟩ := hx
    refine h.2 row hrow (t, k) hx fun ht => hne ?_
    show Text.trim t = ""
    rw [show t = "" from ht]
    rfl

theorem bind_kept_map_trim (rows : List (List String)) (i k : Nat) :
    (((rows.map (List.map Text.trim))[i]?).bind (·[k]?)).bind Text.kept =
      (((rows[i]?).bind (·[k]?)).bind Text.kept).map Text.trim := by
  rw [List.getElem?_map]
  cases rows[i]? with
  | none => rfl
  | some row =>
    rw [Option.map_some, Option.bind_some, Option.bind_some, List.getElem?_map]
    cases row[k]? with
    | none => rfl
    | some t => rw [Option.map_some, Option.bind_some, Option.bind_some, Text.kept_trim]

theorem allBlank_of_bind_kept {u : Option String} {t : String} (h : u.bind Text.kept = some t) :
    Text.allBlank t = false := by
  obtain ⟨v, -, hv⟩ := Option.bind_eq_some_iff.1 h
  exact (Text.kept_eq_some_iff.1 hv).2

end Blanks

/-- Bytes that can be read with or without trimming are those of one grid. -/
theorem exists_readRows {header trim : Bool} {s : Sheet}
    (h : read ⟨d, header, trim⟩ bytes = .ok s) :
    ∃ rows : List (List String), ∀ trim, readRows ⟨d, header, trim⟩ bytes =
      .ok (rows.map (List.map (trimIf trim))) := by
  obtain ⟨rows', hrows⟩ := exists_readRows_of_read h
  rw [← toOption_eq_some_iff, toOption_readRows, Option.map_eq_some_iff] at hrows
  obtain ⟨rows, hrows, -⟩ := hrows
  refine ⟨rows, fun trim => ?_⟩
  rw [← toOption_eq_some_iff, toOption_readRows]
  -- The fields of the rows are cut out before they are trimmed.
  have hrows' : (rowFields ⟨d, header, trim⟩ bytes).mapM (List.mapM Text.decode?) = some rows := hrows
  rw [hrows']
  rfl

/-- Bytes that can be read with or without trimming can be read with it, and also without it unless a
field is beyond the last column. If they can be read in both ways, the two sheets have texts in the same
cells, and a pass over either leaves every cell with the same number or the same error, but for the
places of faults. So the counts, the area and all that is shown are the same. -/
theorem recalculate_read_trim (d : Dialect) (header : Bool) (bytes : Bytes)
    (h : ∃ trim s, read ⟨d, header, trim⟩ bytes = .ok s) :
    ∃ trimmed, read ⟨d, header, true⟩ bytes = .ok trimmed ∧
      ((∃ n, 2 ^ 32 ≤ n ∧
          read ⟨d, header, false⟩ bytes = .error (.core (.columnOutOfRange (toString n)))) ∨
        ∃ raw, read ⟨d, header, false⟩ bytes = .ok raw ∧
          (∀ c, trimmed.text? c = (raw.text? c).map Text.trim) ∧
          ∀ mode,
            let r := raw.recalculate mode
            let r' := trimmed.recalculate mode
            (∀ c, (r'.outcomes.get? c).map (Except.mapError FormulaError.withoutPosition) =
              (r.outcomes.get? c).map (Except.mapError FormulaError.withoutPosition)) ∧
            r'.tally = r.tally ∧ (r'.rows, r'.cols) = (r.rows, r.cols) ∧
            r'.toRows = r.toRows ∧ r'.table = r.table ∧
            ∀ o, write o r'.toRows = write o r.toRows) := by
  obtain ⟨trim, s, hs⟩ := h
  obtain ⟨rows, hrows⟩ := exists_readRows hs
  have hraw : readRows ⟨d, header, false⟩ bytes = .ok rows := by rw [hrows, map_trimIf_false]
  have htrimmed : readRows ⟨d, header, true⟩ bytes = .ok (rows.map (List.map Text.trim)) := hrows true
  have ha' : Addressable (rows.map (List.map Text.trim)) := by
    cases trim with
    | true => exact addressable_of_read htrimmed hs
    | false => exact (addressable_of_read hraw hs).map_trim
  refine ⟨_, read_of_addressable htrimmed ha', ?_⟩
  by_cases ha : Addressable rows
  · right
    have htext : ∀ c, (Sheet.ofRows ((rows.map (List.map Text.trim)).map (List.take (2 ^ 32)))).text? c =
        ((Sheet.ofRows (rows.map (List.take (2 ^ 32)))).text? c).map Text.trim := fun c => by
      rw [text?_ofRows_take ha', text?_ofRows_take ha, bind_kept_map_trim]
    refine ⟨_, read_of_addressable hraw ha, htext, fun mode => ?_⟩
    refine Results.congr_of_text?_trim htext (fun c t ht => ?_) mode
    rw [text?_ofRows_take ha] at ht
    exact allBlank_of_bind_kept ht
  · left
    rcases read_of_not_addressable hraw ha with ⟨hlt, -⟩ | ⟨-, -, x, -, -, hge, herror⟩
    · have hle := ha'.1
      rw [List.length_map] at hle
      omega
    · exact ⟨x.2, hge, herror⟩

/-- A formula that cannot be read has blanks in front, so its fault is moved by trimming. -/
theorem recalculate_read_trim_of_row :
    let o : WriteOptions := ⟨⟨44, 34⟩, false⟩
    let bytes := write o [["  =2 + ( ", "=A1"]]
    (∃ trim s, read ⟨o.toDialect, false, trim⟩ bytes = .ok s) ∧
      ∃ raw trimmed, read ⟨o.toDialect, false, false⟩ bytes = .ok raw ∧
        read ⟨o.toDialect, false, true⟩ bytes = .ok trimmed ∧
        trimmed.text? ⟨0, 0⟩ = (raw.text? ⟨0, 0⟩).map Text.trim ∧
        (trimmed.recalculate .layered).tally = (raw.recalculate .layered).tally ∧
        (trimmed.recalculate .layered).table = (raw.recalculate .layered).table := by
  intro o bytes
  have hd : o.Proper := ⟨by decide, by decide, by decide⟩
  have hbom : ¬ byteOrderMark <+: bytes := by decide +kernel
  have hf : Sheet.Fits [["  =2 + ( ", "=A1"]] := ⟨by decide, by decide⟩
  have hread := read_write_of_trim hd hbom hf false
  have h : ∃ trim s, read ⟨o.toDialect, false, trim⟩ bytes = .ok s := ⟨false, _, hread⟩
  obtain ⟨trimmed, htrimmed, ⟨n, -, herror⟩ | ⟨raw, hraw, htext, hpass⟩⟩ :=
    recalculate_read_trim o.toDialect false bytes h
  · rw [hread] at herror
    cases herror
  · obtain ⟨-, htally, -, -, htable, -⟩ := hpass .layered
    exact ⟨h, raw, trimmed, hraw, htrimmed, htext _, htally, htable⟩

end Csv

end Spreadsheet
