import Spreadsheet.Proofs.Csv.RoundTrip
import Spreadsheet.Proofs.Recalculate.Shown

/-! What is shown for a pass, written as separated values, read again and evaluated again: numbers
stay as they are, and the grid keeps its shape. -/
namespace Spreadsheet

/-- A text of visible ASCII characters has bytes below 128 and no blanks around it. -/
theorem Text.Graphic.toNat_lt {t : String} (h : Graphic t) {b : UInt8} (hb : b ∈ encode t) :
    b.toNat < 128 := by
  rw [encode_eq_flatMap] at hb
  obtain ⟨c, hc, hb⟩ := List.mem_flatMap.1 hb
  obtain ⟨-, hle⟩ := h c hc
  have hval : c.val.toNat ≤ 127 := Nat.le_succ_of_le hle
  rw [String.utf8EncodeChar, if_pos hval, List.mem_singleton] at hb
  rw [hb]
  show c.val.toNat % 256 < 128
  omega

namespace Csv

variable {o : WriteOptions} {rows : List (List String)}

section Alphabet

variable {d : Dialect} {p : UInt8 → Prop} {row : List String} {t : String}

theorem forall_mem_quoteField (hquote : p d.quote) {bytes : Bytes} (h : ∀ b ∈ bytes, p b) :
    ∀ b ∈ quoteField d bytes, p b := by
  have hdoubled : ∀ b ∈ bytes.flatMap (fun b => if b = d.quote then [b, b] else [b]), p b := by
    intro b hb
    obtain ⟨b', hb', hmem⟩ := List.mem_flatMap.1 hb
    have heq : b = b' := by
      split at hmem <;> simpa using hmem
    rw [heq]
    exact h b' hb'
  intro b hb
  rcases List.mem_append.1 hb with hb | hb
  · rcases List.mem_cons.1 hb with rfl | hb
    · exact hquote
    · exact hdoubled b hb
  · rw [List.mem_singleton.1 hb]
    exact hquote

theorem forall_mem_encodeField (hquote : p d.quote) (h : ∀ b ∈ Text.encode t, p b) :
    ∀ b ∈ encodeField d t, p b := by
  unfold encodeField
  dsimp only
  split
  · exact forall_mem_quoteField hquote h
  · exact h

theorem forall_mem_fields (hdelimiter : p d.delimiter) (hquote : p d.quote)
    (h : ∀ t ∈ row, ∀ b ∈ Text.encode t, p b) :
    ∀ b ∈ [d.delimiter].intercalate (row.map (encodeField d)), p b := by
  induction row with
  | nil => exact List.forall_mem_nil _
  | cons t row ih =>
    obtain ⟨ht, hrow⟩ := List.forall_mem_cons.1 h
    have hfield := forall_mem_encodeField hquote ht
    cases row with
    | nil => simpa using hfield
    | cons u row =>
      rw [List.map_cons, List.map_cons, List.intercalate_cons_cons, List.forall_mem_append,
        List.forall_mem_append, List.forall_mem_singleton]
      exact ⟨⟨hfield, hdelimiter⟩, ih hrow⟩

theorem forall_mem_encodeRow (hdelimiter : p d.delimiter) (hquote : p d.quote)
    (h : ∀ t ∈ row, ∀ b ∈ Text.encode t, p b) : ∀ b ∈ encodeRow d row, p b := by
  unfold encodeRow
  dsimp only
  split
  · exact forall_mem_quoteField hquote (List.forall_mem_nil _)
  · exact forall_mem_fields hdelimiter hquote h

/-- What is written is made of the bytes of the texts, the delimiter, the quote and line breaks. -/
theorem forall_mem_write (hdelimiter : p o.delimiter) (hquote : p o.quote)
    (hreturn : p carriageReturn) (hfeed : p lineFeed)
    (h : ∀ row ∈ rows, ∀ t ∈ row, ∀ b ∈ Text.encode t, p b) : ∀ b ∈ write o rows, p b := by
  intro b hb
  obtain ⟨row, hrow, hb⟩ := List.mem_flatMap.1 hb
  rcases List.mem_append.1 hb with hb | hb
  · exact forall_mem_encodeRow hdelimiter hquote (h row hrow) b hb
  · have hend : ∀ b ∈ (if o.crlf then [carriageReturn, lineFeed] else [lineFeed]), p b := by
      split <;> simp [hreturn, hfeed]
    exact hend b hb

end Alphabet

/-- A byte order mark has three bytes outside ASCII, and the rows bring in no more than two. -/
theorem not_prefix_write (h : ∀ row ∈ rows, ∀ t ∈ row, Text.Graphic t) :
    ¬ byteOrderMark <+: write o rows := by
  have hmem : ∀ b ∈ write o rows, 128 ≤ b.toNat → b = o.delimiter ∨ b = o.quote := by
    apply forall_mem_write
    · exact fun _ => .inl rfl
    · exact fun _ => .inr rfl
    · exact fun hge => absurd hge (by decide)
    · exact fun hge => absurd hge (by decide)
    · intro row hrow t ht b hb hge
      have hlt := (h row hrow t ht).toNat_lt hb
      omega
  intro hbom
  have h1 := hmem 0xEF (hbom.subset (by decide)) (by decide)
  have h2 := hmem 0xBB (hbom.subset (by decide)) (by decide)
  have h3 := hmem 0xBF (hbom.subset (by decide)) (by decide)
  grind

theorem map_trimIf_of_graphic (trim : Bool) (h : ∀ row ∈ rows, ∀ t ∈ row, Text.Graphic t) :
    rows.map (List.map (trimIf trim)) = rows := by
  have htrim : ∀ row ∈ rows, ∀ t ∈ row, trimIf trim t = t := by
    intro row hrow t ht
    cases trim with
    | false => rfl
    | true =>
      exact Text.trim_eq_self fun c hc => Text.isBlank_eq_false_of_graphic (h row hrow t ht c hc)
  have hrow : ∀ row ∈ rows, row.map (trimIf trim) = id row := by
    intro row hrow
    rw [List.map_congr_left (htrim row hrow), List.map_id']
    rfl
  rw [List.map_congr_left hrow, List.map_id]

/-- What is shown for a pass over a sheet whose cells can be named can be written and read with any
delimiter and quote, and a pass over what is read shows the same grid, in which only what was no finite
number has changed. -/
theorem toRows_recalculate_read_write (s : Sheet) (hs : s.Nameable) (mode mode' : Mode)
    (o : WriteOptions) (trim : Bool) (hd : o.Proper) :
    let r := s.recalculate mode
    ∃ s', read ⟨o.toDialect, false, trim⟩ (write o r.toRows) = .ok s' ∧
      (s'.recalculate mode').toRows = r.toRows.map (List.map reread) ∧
      ∀ c x, r.outcomes.get? c = some (.ok x) → x.isFinite = true →
        (s'.recalculate mode').display c = r.display c := by
  intro r
  have hgraphic := r.graphic_toRows
  have hread := read_write_of_trim hd (not_prefix_write hgraphic) r.fits_toRows trim
  rw [map_trimIf_of_graphic trim hgraphic] at hread
  refine ⟨Sheet.ofRows r.toRows, hread, ?_, ?_⟩
  · exact Sheet.toRows_recalculate_ofRows hs mode mode'
  · intro c x hc hx
    rw [Sheet.display_recalculate_ofRows hs mode mode' c]
    exact (Results.constant_display hc hx).reread_eq

/-- A cell that reads itself, and a negative number in fields that a minus delimits. -/
theorem toRows_recalculate_read_write_of_row :
    let o : WriteOptions := ⟨⟨45, 39⟩, true⟩
    let r := (Sheet.ofRows [["=A1", "-0.5"]]).recalculate .single
    o.Proper ∧ (Sheet.ofRows [["=A1", "-0.5"]]).Nameable ∧ r.toRows = [["#CIRC!", "-0.5"]] ∧
      ∃ s', read ⟨o.toDialect, false, true⟩ (write o r.toRows) = .ok s' ∧
        (s'.recalculate .layered).toRows = [["#SYNTAX!", "-0.5"]] := by
  intro o r
  have hd : o.Proper := ⟨by decide, by decide, by decide⟩
  have ta : (Sheet.ofRows [["=A1", "-0.5"]]).text? ⟨0, 0⟩ = some "=A1" := by decide
  have tb : (Sheet.ofRows [["=A1", "-0.5"]]).text? ⟨0, 1⟩ = some "-0.5" := by decide
  have ha : Formula.parse "=A1" = .ok (.reference ⟨0, 0⟩) :=
    Formula.parse_eq_reference (t := ⟨⟨.reference, "A1"⟩, 0⟩) (by cbv) rfl rfl
  have hreads : (Sheet.ofRows [["=A1", "-0.5"]]).Reads ⟨0, 0⟩ ⟨0, 0⟩ :=
    (Sheet.reads_iff ta).2 ⟨_, ha, List.mem_singleton_self _⟩
  have hb : Formula.Constant "-0.5" := by
    let half := Float.ofBits 4602678819172646912
    have hhalf : Number.Unsigned half := by
      unfold Number.Unsigned
      decide +kernel
    have htext : "-" ++ Number.text half = "-0.5" := by decide +kernel
    have hdisplay : Number.display (-half) = "-0.5" := by decide +kernel
    have hparse := Formula.parse_minus hhalf
    rw [htext] at hparse
    exact ⟨_, -half, hparse, rfl, rfl, hdisplay⟩
  have da : r.display ⟨0, 0⟩ = "#CIRC!" :=
    Results.display_of_error (Sheet.get?_recalculate_of_onCycle .single (.single hreads))
  have db : r.display ⟨0, 1⟩ = "-0.5" := Sheet.display_recalculate_of_constant .single tb hb
  have hs : (Sheet.ofRows [["=A1", "-0.5"]]).Nameable :=
    Sheet.nameable_ofRows (by decide) (by decide)
  have hrows : r.rows = 1 := by decide
  have hcols : r.cols = 2 := by decide
  have hr : r.toRows = [["#CIRC!", "-0.5"]] := by
    simp [Results.toRows, hrows, hcols, List.range_succ, da, db]
  obtain ⟨s', hread, hgrid, -⟩ :=
    toRows_recalculate_read_write (Sheet.ofRows [["=A1", "-0.5"]]) hs .single .layered o true hd
  refine ⟨hd, hs, hr, s', hread, ?_⟩
  rw [hgrid, hr]
  decide

end Csv

end Spreadsheet
