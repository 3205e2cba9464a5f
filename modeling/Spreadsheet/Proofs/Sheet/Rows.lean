import Mathlib
import Spreadsheet.Proofs.Except
import Spreadsheet.Sheet

/-! The texts of a sheet after cells, rows and whole grids are set. -/
namespace Spreadsheet

/-- What a cell holds that is set to a text. -/
def Text.kept (t : String) : Option String := if Text.allBlank t then none else some t

theorem Text.kept_eq_some_iff {t u : String} : kept t = some u ↔ t = u ∧ allBlank u = false := by
  rw [kept]
  split
  · rename_i ht
    have hne : ¬ (t = u ∧ allBlank u = false) := by
      rintro ⟨rfl, hu⟩
      exact absurd (ht.symm.trans hu) (by decide)
    simpa using hne
  · rename_i ht
    rw [Option.some.injEq, iff_self_and]
    rintro rfl
    exact Bool.eq_false_iff.2 ht

/-- A number below the number of words is that of one word. -/
theorem Address.eq_ofNat_iff {x : UInt32} {n : Nat} (h : n < 2 ^ 32) :
    x = .ofNat n ↔ x.toNat = n := by
  constructor
  · rintro rfl
    exact UInt32.toNat_ofNat_of_lt' h
  · rintro rfl
    exact UInt32.ofNat_toNat.symm

theorem Address.eq_mk_ofNat_iff {c : Address} {row col : Nat} (hrow : row < 2 ^ 32)
    (hcol : col < 2 ^ 32) :
    c = ⟨.ofNat row, .ofNat col⟩ ↔ c.row.toNat = row ∧ c.col.toNat = col := by
  obtain ⟨r, k⟩ := c
  rw [mk.injEq, eq_ofNat_iff hrow, eq_ofNat_iff hcol]

namespace Sheet

variable {s s' : Sheet} {c x : Address} {t : String}

theorem ext_text? (h : ∀ c, s.text? c = s'.text? c) : s = s' := by
  cases s
  cases s'
  exact congrArg mk (Std.ExtTreeMap.ext_getElem? h)

theorem text?_set : (s.set x t).text? c = if c = x then Text.kept t else s.text? c := by
  have hx : compare x c = .eq ↔ c = x := Std.compare_eq_iff_eq.trans eq_comm
  rw [set, Text.kept]
  split
  · simp only [text?, Std.ExtTreeMap.getElem?_erase, hx]
  · simp only [text?, Std.ExtTreeMap.getElem?_insert, hx]

theorem text?_clear : (s.clear x).text? c = if c = x then none else s.text? c := by
  have hx : compare x c = .eq ↔ c = x := Std.compare_eq_iff_eq.trans eq_comm
  simp only [clear, text?, Std.ExtTreeMap.getElem?_erase, hx]

/-- A cell that is set to a blank text is cleared. -/
theorem set_eq_clear (h : Text.allBlank t = true) (s : Sheet) (x : Address) : s.set x t = s.clear x :=
  if_pos h

/-- What is set by a name is set at the address that the name is read as. -/
theorem setAt_eq_ok_iff {reference : String} :
    s.setAt reference t = .ok s' ↔ ∃ cell, Address.parse reference = .ok cell ∧ s.set cell t = s' := by
  rw [setAt, bind_eq_ok_iff]
  simp only [pure, Except.pure, Except.ok.injEq]

theorem text?_set_of_ne (h : c ≠ x) (t : String) : (s.set x t).text? c = s.text? c := by
  rw [text?_set, if_neg h]

theorem text?_setRow (s : Sheet) {row col : Nat} {texts : List String} (hrow : row < 2 ^ 32)
    (hfit : col + texts.length ≤ 2 ^ 32) (c : Address) :
    (s.setRow row col texts).text? c =
      if c.row.toNat = row ∧ col ≤ c.col.toNat then
        (texts[c.col.toNat - col]?).elim (s.text? c) Text.kept
      else s.text? c := by
  induction texts generalizing s col with
  | nil => simp [setRow]
  | cons t texts ih =>
    rw [List.length_cons] at hfit
    have hcol : col < 2 ^ 32 := by omega
    rw [setRow, ih _ (by omega), text?_set]
    simp only [Address.eq_mk_ofNat_iff hrow hcol]
    by_cases hr : c.row.toNat = row
    · rcases Nat.lt_trichotomy c.col.toNat col with hk | hk | hk
      · rw [if_neg (by omega), if_neg (by omega), if_neg (by omega)]
      · simp [hr, hk]
      · have hsub : c.col.toNat - col = c.col.toNat - (col + 1) + 1 := by omega
        rw [if_pos ⟨hr, hk⟩, if_neg (by omega), if_pos ⟨hr, by omega⟩, hsub,
          List.getElem?_cons_succ]
    · simp [hr]

/-- Whether every place of a grid is one of a sheet. -/
def Fits (rows : List (List String)) : Prop :=
  rows.length ≤ 2 ^ 32 ∧ ∀ row ∈ rows, row.length ≤ 2 ^ 32

theorem fits_map {rows : List (List String)} {f : List String → List String}
    (hlength : rows.length ≤ 2 ^ 32) (hf : ∀ row ∈ rows, (f row).length ≤ 2 ^ 32) :
    Fits (rows.map f) := by
  constructor
  · rw [List.length_map]
    exact hlength
  · rw [List.forall_mem_map]
    exact hf

theorem text?_setRows (s : Sheet) {row : Nat} {rows : List (List String)}
    (hrows : row + rows.length ≤ 2 ^ 32) (hfit : ∀ row ∈ rows, row.length ≤ 2 ^ 32) (c : Address) :
    (s.setRows row rows).text? c =
      if row ≤ c.row.toNat then
        ((rows[c.row.toNat - row]?).bind (·[c.col.toNat]?)).elim (s.text? c) Text.kept
      else s.text? c := by
  induction rows generalizing s row with
  | nil => simp [setRows]
  | cons texts rows ih =>
    rw [List.length_cons] at hrows
    rw [List.forall_mem_cons] at hfit
    have hlength : 0 + texts.length ≤ 2 ^ 32 := (Nat.zero_add _).le.trans hfit.1
    rw [setRows, ih _ (by omega) hfit.2, text?_setRow s (by omega) hlength]
    rcases Nat.lt_trichotomy c.row.toNat row with hr | hr | hr
    · rw [if_neg (by omega), if_neg (by omega), if_neg (by omega)]
    · simp [hr]
    · have hsub : c.row.toNat - row = c.row.toNat - (row + 1) + 1 := by omega
      have hne : ¬ (c.row.toNat = row ∧ 0 ≤ c.col.toNat) := by omega
      rw [if_pos (Nat.succ_le_of_lt hr), if_neg hne, if_pos (Nat.le_of_lt hr), hsub,
        List.getElem?_cons_succ]

/-- A cell of a grid has the text that stands in its row and column, unless it is blank. -/
theorem text?_ofRows {rows : List (List String)} (h : Fits rows) (c : Address) :
    (ofRows rows).text? c = ((rows[c.row.toNat]?).bind (·[c.col.toNat]?)).bind Text.kept := by
  have hrows : 0 + rows.length ≤ 2 ^ 32 := (Nat.zero_add _).le.trans h.1
  have hempty : (∅ : Sheet).text? c = none := Std.ExtTreeMap.getElem?_empty
  rw [ofRows, text?_setRows ∅ hrows h.2, if_pos (Nat.zero_le _), Nat.sub_zero, hempty]
  cases (rows[c.row.toNat]?).bind (·[c.col.toNat]?) <;> rfl

end Sheet

end Spreadsheet
