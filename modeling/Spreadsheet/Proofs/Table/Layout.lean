import Spreadsheet.Proofs.Address.Column
import Spreadsheet.Table

/-! Where the texts of a framed table stand. A column starts at the same place of every line, so that
the texts can be cut out of the table again. -/
namespace Spreadsheet.Table

/-- The number of columns of a grid, which is the length of its longest row. -/
def columns (rows : List (List String)) : Nat := (rows.map List.length).foldl max 0

/-- The text in a row and a column of the table. Row and column zero are those of the frame. -/
def entry (rows : List (List String)) : Nat → Nat → String
  | 0, 0 => "/"
  | 0, j + 1 => Column.letters (.ofNat j)
  | i + 1, 0 => toString (i + 1)
  | i + 1, j + 1 => ((rows[i]?).bind (·[j]?)).getD ""

/-- The length of the widest entry of a column. -/
def width (rows : List (List String)) (j : Nat) : Nat :=
  (Finset.range (rows.length + 1)).sup fun i => (entry rows i j).length

/-- How far into a line the separator in front of a column is. -/
def offset (rows : List (List String)) (j : Nat) : Nat :=
  ∑ k ∈ Finset.range j, (width rows k + 3)

variable {rows : List (List String)} {i j : Nat}

theorem map_range_succ {α : Type} (n : Nat) (f : Nat → α) :
    (List.range (n + 1)).map f = f 0 :: (List.range n).map fun i => f (i + 1) := by
  rw [List.range_succ_eq_map, List.map_cons, List.map_map]
  rfl

theorem foldl_max_le_iff {l : List Nat} {n m : Nat} :
    l.foldl max n ≤ m ↔ n ≤ m ∧ ∀ k ∈ l, k ≤ m := by
  induction l generalizing n with
  | nil => simp
  | cons k l ih => rw [List.foldl_cons, ih, List.forall_mem_cons, max_le_iff, and_assoc]

theorem length_le_columns {row : List String} (h : row ∈ rows) : row.length ≤ columns rows :=
  (foldl_max_le_iff.1 (le_refl (columns rows))).2 _ (List.mem_map_of_mem h)

theorem lt_columns {s : String} (h : (rows[i]?).bind (·[j]?) = some s) : j < columns rows := by
  obtain ⟨row, hrow, hs⟩ := Option.bind_eq_some_iff.1 h
  have hlt : j < row.length := (List.getElem?_eq_some_iff.1 hs).1
  exact lt_of_lt_of_le hlt (length_le_columns (List.mem_of_getElem? hrow))

theorem length_entry_le (h : i ≤ rows.length) : (entry rows i j).length ≤ width rows j :=
  Finset.le_sup (f := fun i => (entry rows i j).length) (Finset.mem_range.2 (Nat.lt_succ_of_le h))

/-- A row that is filled up to the length of the longest. -/
theorem cons_rightpad_eq {row : List String} (h : rows[i]? = some row) :
    toString (i + 1) :: row.rightpad (columns rows) "" =
      (List.range (columns rows + 1)).map (entry rows (i + 1)) := by
  have hle := length_le_columns (List.mem_of_getElem? h)
  rw [map_range_succ]
  congr 1
  apply List.ext_getElem
  · simp [List.rightpad]
    omega
  · intro j hj _
    simp only [List.rightpad, List.getElem_append, List.getElem_map, List.getElem_range, entry, h,
      Option.bind_some]
    split
    · rename_i hlt
      rw [List.getElem?_eq_getElem hlt, Option.getD_some]
    · rename_i hlt
      rw [List.getElem?_eq_none (Nat.not_lt.1 hlt), Option.getD_none, List.getElem_replicate]

theorem frame_eq (rows : List (List String)) : frame rows =
    (List.range (rows.length + 1)).map fun i => (List.range (columns rows + 1)).map (entry rows i) := by
  have hheader : "/" :: (List.range (columns rows)).map (fun j => Column.letters (.ofNat j)) =
      (List.range (columns rows + 1)).map (entry rows 0) := (map_range_succ _ (entry rows 0)).symm
  have hrows : (rows.mapIdx fun i row => toString (i + 1) :: row.rightpad (columns rows) "") =
      (List.range rows.length).map fun i =>
        (List.range (columns rows + 1)).map (entry rows (i + 1)) := by
    apply List.ext_getElem
    · simp
    · intro i hi _
      rw [List.getElem_mapIdx, List.getElem_map, List.getElem_range]
      exact cons_rightpad_eq (List.getElem?_eq_getElem _)
  rw [map_range_succ]
  exact congrArg₂ List.cons hheader hrows

/-- The greatest lengths of the columns of some rows. -/
theorem foldl_zipWith_max (n : Nat) (f : Nat → Nat → String) (w : Nat → Nat) (l : List Nat) :
    (l.map fun i => (List.range n).map (f i)).foldl
        (fun ws row => List.zipWith max ws (row.map String.length)) ((List.range n).map w) =
      (List.range n).map fun j => (l.map fun i => (f i j).length).foldl max (w j) := by
  induction l generalizing w with
  | nil => rfl
  | cons i l ih =>
    rw [List.map_cons, List.foldl_cons, List.map_map, List.zipWith_map, List.zipWith_self, ih]
    rfl

theorem widths_frame (rows : List (List String)) :
    widths (frame rows) = (List.range (columns rows + 1)).map (width rows) := by
  rw [frame_eq, map_range_succ rows.length, widths, List.map_map]
  refine (foldl_zipWith_max _ (fun i => entry rows (i + 1)) _ _).trans (List.map_congr_left ?_)
  intro j _
  apply eq_of_forall_ge_iff
  intro m
  rw [foldl_max_le_iff, width, Finset.sup_le_iff]
  simp only [Finset.mem_range, List.forall_mem_map, List.mem_range, Nat.forall_lt_succ_left,
    Function.comp_apply]

/-- The text of a cell between its separator and the next. -/
def slot (rows : List (List String)) (i j : Nat) : List Char :=
  " | ".toList ++ (pad (width rows j) (entry rows i j)).toList

theorem toList_pad (n : Nat) (s : String) :
    (pad n s).toList = s.toList ++ List.replicate (n - s.length) ' ' := by
  rw [pad, String.toList_append, String.toList_ofList]

theorem length_slot (h : i ≤ rows.length) : (slot rows i j).length = width rows j + 3 := by
  have hle : (entry rows i j).length ≤ width rows j := length_entry_le h
  have hbar : " | ".toList.length = 3 := rfl
  rw [slot, toList_pad, List.length_append, List.length_append, List.length_replicate, hbar,
    String.length_toList]
  omega

/-- The line of a row of the table. -/
def line (rows : List (List String)) (i : Nat) : String :=
  rowLine (widths (frame rows)) ((List.range (columns rows + 1)).map (entry rows i))

theorem toList_line (rows : List (List String)) (i : Nat) : (line rows i).toList =
    ((List.range (columns rows + 1)).map (slot rows i)).flatten ++ " |".toList := by
  rw [line, rowLine, widths_frame, List.zipWith_map, List.zipWith_self, String.toList_append,
    String.toList_join, List.flatMap_def, List.map_map]
  congr 2
  apply List.map_congr_left
  intro j _
  rw [Function.comp_apply, String.toList_append]
  rfl

theorem map_length_slot (h : i ≤ rows.length) (n : Nat) :
    ((List.range n).map (slot rows i)).map List.length =
      (List.range n).map fun j => width rows j + 3 := by
  rw [List.map_map]
  exact List.map_congr_left fun j _ => length_slot h

theorem length_line (h : i ≤ rows.length) :
    (line rows i).length = offset rows (columns rows + 1) + 2 := by
  rw [← String.length_toList, toList_line, List.length_append, List.length_flatten,
    map_length_slot h]
  rfl

/-- What follows in a line from a column on. -/
theorem drop_offset_line (h : i ≤ rows.length) (hj : j ≤ columns rows + 1) :
    (line rows i).toList.drop (offset rows j) =
      (((List.range (columns rows + 1)).drop j).map (slot rows i)).flatten ++ " |".toList := by
  have hoffset : offset rows j =
      ((((List.range (columns rows + 1)).map (slot rows i)).map List.length).take j).sum := by
    rw [map_length_slot h, ← List.map_take, List.take_range, Nat.min_eq_left hj]
    rfl
  rw [toList_line, List.drop_append_of_le_length, hoffset, List.drop_sum_flatten, List.map_drop]
  rw [hoffset, List.length_flatten]
  exact (List.take_sublist _ _).sum_le_sum fun _ _ => Nat.zero_le _

theorem drop_offset_line_eq_slot (h : i ≤ rows.length) (hj : j ≤ columns rows) :
    ∃ after, (line rows i).toList.drop (offset rows j) = slot rows i j ++ after := by
  have hlt : j < (List.range (columns rows + 1)).length := by
    rw [List.length_range]
    omega
  rw [drop_offset_line h (by omega), List.drop_eq_getElem_cons hlt, List.getElem_range,
    List.map_cons, List.flatten_cons, List.append_assoc]
  exact ⟨_, rfl⟩

/-- The separator of a column is at its offset, and the text of the cell and the blanks behind it fill
the column. -/
theorem cut_line (h : i ≤ rows.length) (hj : j ≤ columns rows) :
    ((line rows i).toList.drop (offset rows j)).take 3 = " | ".toList ∧
      ((line rows i).toList.drop (offset rows j + 3)).take (width rows j) =
        (entry rows i j).toList ++
          List.replicate (width rows j - (entry rows i j).length) ' ' := by
  obtain ⟨after, hdrop⟩ := drop_offset_line_eq_slot h hj
  have hlength : (pad (width rows j) (entry rows i j)).toList.length = width rows j := by
    have hslot := length_slot (j := j) h
    rw [slot, List.length_append] at hslot
    exact Nat.add_left_cancel (hslot.trans (Nat.add_comm _ 3))
  have hbar : " | ".toList.length = 3 := rfl
  rw [slot, List.append_assoc] at hdrop
  constructor
  · rw [hdrop, List.take_left' hbar]
  · rw [← List.drop_drop, hdrop, List.drop_left' hbar, List.take_left' hlength, toList_pad]

theorem cut_text (h : i ≤ rows.length) (hj : j ≤ columns rows) :
    ((line rows i).toList.drop (offset rows j + 3)).take (entry rows i j).length =
      (entry rows i j).toList := by
  have hle : (entry rows i j).length ≤ width rows j := length_entry_le h
  have hcut := congrArg (List.take (entry rows i j).length) (cut_line h hj).2
  rwa [List.take_take, Nat.min_eq_left hle, List.take_left' String.length_toList] at hcut

/-- The line between rows. -/
def bar (rows : List (List String)) : String := divider (widths (frame rows))

theorem toList_bar (rows : List (List String)) : (bar rows).toList =
    ' ' :: (List.replicate (offset rows (columns rows + 1) + 1) '-' ++ [' ']) := by
  have hoffset : offset rows (columns rows + 1) =
      ((List.range (columns rows + 1)).map (width rows)).sum + 3 * (columns rows + 1) := by
    rw [offset, Finset.sum_add_distrib, Finset.sum_const, Finset.card_range, smul_eq_mul,
      Nat.mul_comm]
    rfl
  rw [bar, divider, widths_frame, ← List.sum_eq_foldl, List.length_map, List.length_range, ← hoffset]
  simp

theorem length_bar (rows : List (List String)) :
    (bar rows).length = offset rows (columns rows + 1) + 3 := by
  rw [← String.length_toList, toList_bar]
  simp

theorem lines_eq (rows : List (List String)) : lines rows =
    bar rows :: (List.range (rows.length + 1)).flatMap fun i => [line rows i, bar rows] := by
  have hframe : ∀ f : List String → List String, (frame rows).flatMap f =
      (List.range (rows.length + 1)).flatMap fun i =>
        f ((List.range (columns rows + 1)).map (entry rows i)) := by
    intro f
    rw [frame_eq, List.flatMap_map]
  exact congrArg (bar rows :: ·) (hframe _)

theorem getElem?_flatMap_pair {α β : Type} {f g : α → β} {l : List α} {a : α} (h : l[i]? = some a) :
    (l.flatMap fun a => [f a, g a])[2 * i]? = some (f a) ∧
      (l.flatMap fun a => [f a, g a])[2 * i + 1]? = some (g a) := by
  induction l generalizing i with
  | nil => cases h
  | cons b l ih =>
    cases i with
    | zero =>
      cases h
      exact ⟨rfl, rfl⟩
    | succ i => exact ih h

theorem getElem?_lines_line (h : i ≤ rows.length) :
    (lines rows)[2 * i + 1]? = some (line rows i) := by
  rw [lines_eq, List.getElem?_cons_succ]
  exact (getElem?_flatMap_pair (List.getElem?_range (Nat.lt_succ_of_le h))).1

theorem getElem?_lines_bar (h : i ≤ rows.length + 1) : (lines rows)[2 * i]? = some (bar rows) := by
  rw [lines_eq]
  cases i with
  | zero => rfl
  | succ i =>
    rw [Nat.mul_succ, List.getElem?_cons_succ]
    exact (getElem?_flatMap_pair (f := line rows) (g := fun _ => bar rows)
      (List.getElem?_range h)).2

theorem length_lines (rows : List (List String)) : (lines rows).length = 2 * rows.length + 3 := by
  rw [lines_eq, List.length_cons, List.length_flatMap]
  simp
  omega

section LineBreaks

theorem lineBreak_not_mem_entry (h : ∀ row ∈ rows, ∀ s ∈ row, '\n' ∉ s.toList) (i j : Nat) :
    '\n' ∉ (entry rows i j).toList := by
  match i, j with
  | 0, 0 =>
    show '\n' ∉ "/".toList
    decide
  | 0, j + 1 =>
    intro hc
    rw [entry, Column.letters, String.toList_ofList] at hc
    exact absurd (Column.isAlpha_of_mem_numberLetters hc) (by decide)
  | i + 1, 0 =>
    intro hc
    have hdigits : (entry rows (i + 1) 0).toList = Nat.toDigits 10 (i + 1) := String.toList_ofList
    rw [hdigits] at hc
    exact absurd (Nat.isDigit_of_mem_toDigits (by decide) (by decide) hc) (by decide)
  | i + 1, j + 1 =>
    rw [entry]
    cases hs : (rows[i]?).bind (·[j]?) with
    | none => exact List.not_mem_nil
    | some s =>
      obtain ⟨row, hrow, hmem⟩ := Option.bind_eq_some_iff.1 hs
      exact h row (List.mem_of_getElem? hrow) s (List.mem_of_getElem? hmem)

theorem lineBreak_not_mem_line (h : ∀ row ∈ rows, ∀ s ∈ row, '\n' ∉ s.toList) (i : Nat) :
    '\n' ∉ (line rows i).toList := by
  have hslot : ∀ j, '\n' ∉ slot rows i j := by
    intro j
    rw [slot, toList_pad, List.mem_append, List.mem_append]
    rintro (hc | hc | hc)
    · exact absurd hc (by decide)
    · exact lineBreak_not_mem_entry h i j hc
    · exact absurd (List.eq_of_mem_replicate hc) (by decide)
  rw [toList_line, List.mem_append, List.mem_flatten]
  rintro (⟨l, hl, hc⟩ | hc)
  · obtain ⟨j, -, rfl⟩ := List.mem_map.1 hl
    exact hslot j hc
  · exact absurd hc (by decide)

theorem lineBreak_not_mem_bar (rows : List (List String)) : '\n' ∉ (bar rows).toList := by
  rw [toList_bar]
  simp

theorem lineBreak_not_mem_of_mem_lines (h : ∀ row ∈ rows, ∀ s ∈ row, '\n' ∉ s.toList) {l : String}
    (hl : l ∈ lines rows) : '\n' ∉ l.toList := by
  rw [lines_eq, List.mem_cons, List.mem_flatMap] at hl
  rcases hl with rfl | ⟨i, -, hl⟩
  · exact lineBreak_not_mem_bar rows
  · rcases List.mem_pair.1 hl with rfl | rfl
    · exact lineBreak_not_mem_line h i
    · exact lineBreak_not_mem_bar rows

/-- Lines that each end with a line break are what the text is split into, with nothing after the last
break. -/
theorem splitOn_flatMap {l : List (List Char)} (h : ∀ cs ∈ l, '\n' ∉ cs) :
    (l.flatMap (· ++ ['\n'])).splitOn '\n' = l ++ [[]] := by
  induction l with
  | nil => rfl
  | cons cs l ih =>
    rw [List.forall_mem_cons] at h
    rw [List.flatMap_cons, List.append_assoc, List.singleton_append, List.splitOn,
      List.splitOnP_append_cons_of_forall_mem _ _ (by decide), List.cons_append]
    · exact congrArg (cs :: ·) (ih h.2)
    · intro c hc
      rw [beq_eq_false_iff_ne]
      rintro rfl
      exact h.1 hc

theorem splitOn_render (h : ∀ row ∈ rows, ∀ s ∈ row, '\n' ∉ s.toList) :
    (render rows).toList.splitOn '\n' = (lines rows).map String.toList ++ [[]] := by
  have hrender : (render rows).toList =
      ((lines rows).map String.toList).flatMap (· ++ ['\n']) := by
    rw [render, String.toList_join, List.flatMap_map, List.flatMap_map]
    exact List.flatMap_congr fun l _ => String.toList_append
  rw [hrender]
  apply splitOn_flatMap
  rw [List.forall_mem_map]
  intro l hl
  exact lineBreak_not_mem_of_mem_lines h hl

end LineBreaks

/-- The lines of the table of a grid without line breaks. Equal bars alternate with the lines of the
rows, of which the first is the one of the frame. In the line of every row the separator of a column
stands at the offset of the column; behind it stand the text of the cell and as many blanks as the
widest entry of the column has more, so that every text can be cut out of the table. -/
theorem lines_of_render (h : ∀ row ∈ rows, ∀ s ∈ row, '\n' ∉ s.toList) :
    ∃ lines : List String, ∃ bar : String, ∃ line : Nat → String,
      (render rows).toList.splitOn '\n' = lines.map String.toList ++ [[]] ∧
      lines.length = 2 * rows.length + 3 ∧
      (∃ n, bar.toList = ' ' :: (List.replicate n '-' ++ [' '])) ∧
      (∀ i ≤ rows.length + 1, lines[2 * i]? = some bar) ∧
      (∀ i ≤ rows.length, lines[2 * i + 1]? = some (line i) ∧
        (line i).length + 1 = bar.length ∧
        (∀ j ≤ columns rows,
          ((line i).toList.drop (offset rows j)).take 3 = " | ".toList ∧
            ((line i).toList.drop (offset rows j + 3)).take (width rows j) =
              (entry rows i j).toList ++
                List.replicate (width rows j - (entry rows i j).length) ' ') ∧
        (line i).toList.drop (offset rows (columns rows + 1)) = " |".toList) ∧
      ∀ i j s, (rows[i]?).bind (·[j]?) = some s →
        ((line (i + 1)).toList.drop (offset rows (j + 1) + 3)).take s.length = s.toList := by
  refine ⟨lines rows, bar rows, line rows, splitOn_render h, length_lines rows, ⟨_, toList_bar rows⟩,
    fun i => getElem?_lines_bar, fun i hi => ?_, fun i j s hs => ?_⟩
  · have hlength : (line rows i).length + 1 = (bar rows).length := by
      rw [length_line hi, length_bar]
    refine ⟨getElem?_lines_line hi, hlength, fun j hj => cut_line hi hj, ?_⟩
    rw [drop_offset_line hi (le_refl _), List.drop_eq_nil_of_le (by simp)]
    rfl
  · have hrow : i < rows.length := by
      obtain ⟨row, hrow, -⟩ := Option.bind_eq_some_iff.1 hs
      exact (List.getElem?_eq_some_iff.1 hrow).1
    have hentry : entry rows (i + 1) (j + 1) = s := by rw [entry, hs, Option.getD_some]
    have hcut := cut_text (Nat.succ_le_of_lt hrow) (Nat.succ_le_of_lt (lt_columns hs))
    rwa [hentry] at hcut

/-- The first row is short, and its text is two bytes of one character. -/
theorem lines_of_render_of_ragged :
    let rows := [["é"], ["10", "#DIV/0!"]]
    (∀ row ∈ rows, ∀ s ∈ row, '\n' ∉ s.toList) ∧ ∃ lines : List String,
      (render rows).toList.splitOn '\n' = lines.map String.toList ++ [[]] ∧ lines.length = 7 ∧
        ∃ line ∈ lines, (line.toList.drop 12).take 7 = "#DIV/0!".toList := by
  intro rows
  have hbreak : ∀ row ∈ rows, ∀ s ∈ row, '\n' ∉ s.toList := by decide
  obtain ⟨lines, bar, line, hsplit, hlength, -, -, hlines, htext⟩ := lines_of_render hbreak
  have hoffset : offset rows 2 = 9 := by cbv
  have hcut := htext 1 1 "#DIV/0!" rfl
  rw [hoffset] at hcut
  have hmem : line 2 ∈ lines := List.mem_of_getElem? (hlines 2 (le_refl 2)).1
  exact ⟨hbreak, lines, hsplit, hlength, line 2, hmem, hcut⟩

end Spreadsheet.Table
