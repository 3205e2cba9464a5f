import Spreadsheet.Proofs.Csv.Texts
import Spreadsheet.Proofs.Sheet.Rows

/-! Where the fields of records are put. A sheet is read exactly if every row and every field that is not
empty has an address, and it is then the sheet of the grid of the fields. -/
namespace Spreadsheet.Csv

variable {s : Sheet} {row col index n : Nat} {field : String} {fields : List String}
  {rows : List (List String)}

theorem toWord_of_lt (fault : String → AddressError) (h : n < 2 ^ 32) :
    toWord fault n = .ok (.ofNat n) := if_pos h

theorem toWord_of_le (fault : String → AddressError) (h : 2 ^ 32 ≤ n) :
    toWord fault n = .error (fault (toString n)) := if_neg (Nat.not_lt.2 h)

section Fields

theorem placeFields_cons_of_le {row : UInt32} (hne : field ≠ "") (h : 2 ^ 32 ≤ col) :
    placeFields s row col (field :: fields) = .error (.columnOutOfRange (toString col)) := by
  rw [placeFields, if_neg (by simpa using hne), toWord_of_le _ h]
  rfl

theorem placeFields_cons_of_ne {row : UInt32} (hne : field ≠ "") (h : col < 2 ^ 32) :
    placeFields s row col (field :: fields) =
      placeFields (s.set ⟨row, .ofNat col⟩ field) row (col + 1) fields := by
  rw [placeFields, if_neg (by simpa using hne), toWord_of_lt _ h]
  rfl

/-- To skip an empty field is to set its cell, if nothing is in the cell. -/
theorem placeFields_cons_of_lt {row : UInt32} (h : col < 2 ^ 32)
    (hempty : s.text? ⟨row, .ofNat col⟩ = none) : placeFields s row col (field :: fields) =
      placeFields (s.set ⟨row, .ofNat col⟩ field) row (col + 1) fields := by
  by_cases hne : field = ""
  · have hset : s.set ⟨row, .ofNat col⟩ "" = s := by
      refine Sheet.ext_text? fun c => ?_
      rw [Sheet.text?_set]
      split
      · rename_i hc
        rw [hc, hempty]
        rfl
      · rfl
    rw [hne, hset]
    rfl
  · exact placeFields_cons_of_ne hne h

/-- Fields are put into empty cells as by setting a row, but what is beyond the last column has to be
empty. -/
theorem placeFields_eq_setRow
    (hempty : ∀ k, col ≤ k → k < 2 ^ 32 → s.text? ⟨.ofNat row, .ofNat k⟩ = none)
    (hfields : ∀ x ∈ fields.zipIdx col, x.1 ≠ "" → x.2 < 2 ^ 32) :
    placeFields s (.ofNat row) col fields = .ok (s.setRow row col (fields.take (2 ^ 32 - col))) := by
  induction fields generalizing s col with
  | nil =>
    rw [List.take_nil]
    rfl
  | cons field fields ih =>
    rw [List.zipIdx_cons, List.forall_mem_cons] at hfields
    rcases Nat.lt_or_ge col (2 ^ 32) with h | h
    · have hsub : 2 ^ 32 - col = 2 ^ 32 - (col + 1) + 1 := by omega
      have hlater : ∀ k, col + 1 ≤ k → k < 2 ^ 32 →
          (s.set ⟨.ofNat row, .ofNat col⟩ field).text? ⟨.ofNat row, .ofNat k⟩ = none := by
        intro k hk hlt
        have hne : (⟨.ofNat row, .ofNat k⟩ : Address) ≠ ⟨.ofNat row, .ofNat col⟩ := fun heq => by
          have hcol := (Address.eq_ofNat_iff h).1 (Address.mk.inj heq).2
          rw [UInt32.toNat_ofNat_of_lt' hlt] at hcol
          omega
        rw [Sheet.text?_set_of_ne hne]
        exact hempty k (by omega) hlt
      rw [placeFields_cons_of_lt h (hempty col (Nat.le_refl col) h), ih hlater hfields.2, hsub,
        List.take_succ_cons]
      rfl
    · have hfield : field = "" := by
        by_contra hne
        exact absurd (hfields.1 hne) (Nat.not_lt.2 h)
      have hnext : placeFields s (.ofNat row) (col + 1) fields =
          .ok (s.setRow row (col + 1) (fields.take (2 ^ 32 - (col + 1)))) :=
        ih (fun k hk hlt => by omega) hfields.2
      rw [Nat.sub_eq_zero_of_le (Nat.le_succ_of_le h), List.take_zero] at hnext
      rw [Nat.sub_eq_zero_of_le h, List.take_zero, hfield]
      exact hnext

/-- A field that is not empty beyond the last column is reported, the first of these at that. -/
theorem placeFields_cases (s : Sheet) (row : UInt32) (col : Nat) (fields : List String) :
    (∀ x ∈ fields.zipIdx col, x.1 ≠ "" → x.2 < 2 ^ 32) ∧
        (∃ s', placeFields s row col fields = .ok s') ∨
      ∃ x ∈ fields.zipIdx col, x.1 ≠ "" ∧ 2 ^ 32 ≤ x.2 ∧
        placeFields s row col fields = .error (.columnOutOfRange (toString x.2)) := by
  induction fields generalizing s col with
  | nil => exact .inl ⟨List.forall_mem_nil _, s, rfl⟩
  | cons field fields ih =>
    rw [List.zipIdx_cons, List.forall_mem_cons]
    by_cases hne : field = ""
    · rw [hne]
      rcases ih s (col + 1) with ⟨h, hok⟩ | ⟨x, hx, h⟩
      · exact .inl ⟨⟨fun hfield => absurd rfl hfield, h⟩, hok⟩
      · exact .inr ⟨x, List.mem_cons_of_mem _ hx, h⟩
    · rcases Nat.lt_or_ge col (2 ^ 32) with hlt | hge
      · rw [placeFields_cons_of_ne hne hlt]
        rcases ih (s.set ⟨row, .ofNat col⟩ field) (col + 1) with ⟨h, hok⟩ | ⟨x, hx, h⟩
        · exact .inl ⟨⟨fun _ => hlt, h⟩, hok⟩
        · exact .inr ⟨x, List.mem_cons_of_mem _ hx, h⟩
      · exact .inr ⟨_, List.mem_cons_self, hne, hge, placeFields_cons_of_le hne hge⟩

end Fields

section Rows

/-- Puts the fields of rows into their cells, from the row number `index` on. -/
def placeRows (s : Sheet) (index : Nat) : List (List String) → Except AddressError Sheet
  | [] => .ok s
  | fields :: rows => do
    let s ← placeRow s index fields
    placeRows s (index + 1) rows

/-- Whether every row and every field that is not empty has an address. -/
def Addressable (rows : List (List String)) : Prop :=
  rows.length ≤ 2 ^ 32 ∧ ∀ row ∈ rows, ∀ x ∈ row.zipIdx, x.1 ≠ "" → x.2 < 2 ^ 32

/-- Rows are put into empty cells as by setting the rows of a grid. -/
theorem placeRows_eq_setRows (hempty : ∀ c : Address, index ≤ c.row.toNat → s.text? c = none)
    (hlength : index + rows.length ≤ 2 ^ 32)
    (hrows : ∀ row ∈ rows, ∀ x ∈ row.zipIdx, x.1 ≠ "" → x.2 < 2 ^ 32) :
    placeRows s index rows = .ok (s.setRows index (rows.map (List.take (2 ^ 32)))) := by
  induction rows generalizing s index with
  | nil => rfl
  | cons fields rows ih =>
    rw [List.length_cons] at hlength
    rw [List.forall_mem_cons] at hrows
    have hindex : index < 2 ^ 32 := by omega
    have htake : 0 + (fields.take (2 ^ 32)).length ≤ 2 ^ 32 := by
      rw [Nat.zero_add]
      exact List.length_take_le _ _
    have hrow : placeRow s index fields = .ok (s.setRow index 0 (fields.take (2 ^ 32))) := by
      rw [placeRow, toWord_of_lt _ hindex]
      refine placeFields_eq_setRow (fun k _ hk => hempty _ ?_) hrows.1
      rw [UInt32.toNat_ofNat_of_lt' hindex]
    have hlater : ∀ c : Address, index + 1 ≤ c.row.toNat →
        (s.setRow index 0 (fields.take (2 ^ 32))).text? c = none := by
      intro c hc
      rw [Sheet.text?_setRow s hindex htake, if_neg (by omega)]
      exact hempty c (by omega)
    rw [placeRows, hrow]
    exact ih hlater (by omega) hrows.2

theorem placeRows_of_addressable (h : Addressable rows) :
    placeRows ∅ 0 rows = .ok (Sheet.ofRows (rows.map (List.take (2 ^ 32)))) :=
  placeRows_eq_setRows (fun _ _ => Std.ExtTreeMap.getElem?_empty)
    ((Nat.zero_add _).le.trans h.1) h.2

/-- The first row beyond the last one is reported, or a field beyond the last column before it. -/
theorem placeRows_cases (s : Sheet) (hindex : index ≤ 2 ^ 32) (rows : List (List String)) :
    index + rows.length ≤ 2 ^ 32 ∧
        (∀ row ∈ rows, ∀ x ∈ row.zipIdx, x.1 ≠ "" → x.2 < 2 ^ 32) ∨
      2 ^ 32 < index + rows.length ∧
        placeRows s index rows = .error (.rowOutOfRange (toString (2 ^ 32))) ∨
      ∃ row ∈ rows, ∃ x ∈ row.zipIdx, x.1 ≠ "" ∧ 2 ^ 32 ≤ x.2 ∧
        placeRows s index rows = .error (.columnOutOfRange (toString x.2)) := by
  induction rows generalizing s index with
  | nil => exact .inl ⟨hindex, List.forall_mem_nil _⟩
  | cons fields rows ih =>
    rw [List.length_cons, List.forall_mem_cons]
    rcases Nat.lt_or_eq_of_le hindex with hlt | rfl
    · have hrow : placeRow s index fields = placeFields s (.ofNat index) 0 fields := by
        rw [placeRow, toWord_of_lt _ hlt]
        rfl
      rw [placeRows, hrow]
      rcases placeFields_cases s (.ofNat index) 0 fields with ⟨h, s', hok⟩ | ⟨x, hx, hne, hge, h⟩
      · have hlength : index + (rows.length + 1) = index + 1 + rows.length := by omega
        rw [hok, hlength]
        rcases ih s' hlt with ⟨hle, h'⟩ | h' | ⟨row, hrow, h'⟩
        · exact .inl ⟨hle, h, h'⟩
        · exact .inr (.inl h')
        · exact .inr (.inr ⟨row, List.mem_cons_of_mem _ hrow, h'⟩)
      · refine .inr (.inr ⟨fields, List.mem_cons_self, x, hx, hne, hge, ?_⟩)
        rw [h]
        rfl
    · refine .inr (.inl ⟨by omega, ?_⟩)
      rw [placeRows, placeRow, toWord_of_le _ (Nat.le_refl _)]
      rfl

end Rows

section Read

variable {trim : Bool} {options : ReadOptions} {bytes : Bytes} {l : List Record}

theorem placeRecords_cons {r : Record} (h : r.texts trim = .ok fields) (s : Sheet) (index : Nat)
    (l : List Record) : placeRecords trim s index (r :: l) =
      (placeRow s index fields).mapError .core >>= fun s => placeRecords trim s (index + 1) l := by
  rw [placeRecords, h]
  rfl

/-- Rows are put into their cells as the records are read, so a row without an address is reported
before a later record that cannot be read. -/
theorem placeRecords_eq (h : l.mapM (Record.texts trim) = .ok rows) (s : Sheet) (index : Nat) :
    placeRecords trim s index l = (placeRows s index rows).mapError .core := by
  induction l generalizing rows s index with
  | nil =>
    cases h
    rfl
  | cons r l ih =>
    obtain ⟨fields, rows', hr, hl, rfl⟩ := mapM_cons_eq_ok_iff.1 h
    rw [placeRecords_cons hr, placeRows]
    cases placeRow s index fields with
    | error fault => rfl
    | ok s' => exact ih hl s' (index + 1)

theorem exists_rows_of_placeRecords {s s' : Sheet} (h : placeRecords trim s index l = .ok s') :
    ∃ rows, l.mapM (Record.texts trim) = .ok rows := by
  induction l generalizing s index with
  | nil => exact ⟨[], rfl⟩
  | cons r l ih =>
    obtain ⟨fields, hr, hrest⟩ := bind_eq_ok_iff.1 h
    obtain ⟨s'', -, hlater⟩ := bind_eq_ok_iff.1 hrest
    obtain ⟨rows, hl⟩ := ih hlater
    exact ⟨fields :: rows, mapM_cons_eq_ok_iff.2 ⟨fields, rows, hr, hl, rfl⟩⟩

theorem exists_readRows_of_read (h : read options bytes = .ok s) :
    ∃ rows, readRows options bytes = .ok rows := exists_rows_of_placeRecords h

/-- A sheet is the sheet of the grid of its fields, but for empty fields beyond the last column. -/
theorem read_of_addressable (h : readRows options bytes = .ok rows) (ha : Addressable rows) :
    read options bytes = .ok (Sheet.ofRows (rows.map (List.take (2 ^ 32)))) := by
  rw [read, placeRecords_eq h, placeRows_of_addressable ha]
  rfl

/-- There is no sheet if a row or a field that is not empty has no address. -/
theorem read_of_not_addressable (h : readRows options bytes = .ok rows) (ha : ¬ Addressable rows) :
    2 ^ 32 < rows.length ∧ read options bytes = .error (.core (.rowOutOfRange (toString (2 ^ 32)))) ∨
      ∃ row ∈ rows, ∃ x ∈ row.zipIdx, x.1 ≠ "" ∧ 2 ^ 32 ≤ x.2 ∧
        read options bytes = .error (.core (.columnOutOfRange (toString x.2))) := by
  have hread : read options bytes = (placeRows ∅ 0 rows).mapError .core := placeRecords_eq h ∅ 0
  rw [hread]
  rcases placeRows_cases ∅ (Nat.zero_le _) rows with h | ⟨hlt, h⟩ | ⟨row, hrow, x, hx, hne, hge, h⟩
  · rw [Nat.zero_add] at h
    exact absurd h ha
  · rw [Nat.zero_add] at hlt
    rw [h]
    exact .inl ⟨hlt, rfl⟩
  · rw [h]
    exact .inr ⟨row, hrow, x, hx, hne, hge, rfl⟩

theorem addressable_of_read (h : readRows options bytes = .ok rows)
    (hs : read options bytes = .ok s) : Addressable rows := by
  by_contra ha
  rcases read_of_not_addressable h ha with ⟨-, herror⟩ | ⟨-, -, x, -, -, -, herror⟩
  · rw [hs] at herror
    cases herror
  · rw [hs] at herror
    cases herror

theorem addressable_of_fits (h : Sheet.Fits rows) : Addressable rows := by
  constructor
  · exact h.1
  · intro row hrow x hx _
    have hlt := List.snd_lt_of_mem_zipIdx hx
    have hle := h.2 row hrow
    omega

/-- Where all fields have an address, the sheet is that of their grid. -/
theorem read_of_fits (h : readRows options bytes = .ok rows) (hf : Sheet.Fits rows) :
    read options bytes = .ok (Sheet.ofRows rows) := by
  have htake : rows.map (List.take (2 ^ 32)) = rows := by
    rw [List.map_congr_left fun row hrow => List.take_of_length_le (hf.2 row hrow), List.map_id']
  rw [read_of_addressable h (addressable_of_fits hf), htake]

/-- A cell has the text of the field in its row and column, unless it is blank. -/
theorem text?_ofRows_take (h : Addressable rows) (c : Address) :
    (Sheet.ofRows (rows.map (List.take (2 ^ 32)))).text? c =
      ((rows[c.row.toNat]?).bind (·[c.col.toNat]?)).bind Text.kept := by
  have hfits : Sheet.Fits (rows.map (List.take (2 ^ 32))) :=
    Sheet.fits_map h.1 fun row _ => List.length_take_le _ _
  rw [Sheet.text?_ofRows hfits, List.getElem?_map]
  cases rows[c.row.toNat]? with
  | none => rfl
  | some row =>
    rw [Option.map_some, Option.bind_some, Option.bind_some, List.getElem?_take,
      if_pos c.col.toNat_lt]

end Read

end Spreadsheet.Csv
