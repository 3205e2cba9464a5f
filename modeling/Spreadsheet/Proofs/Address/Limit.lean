import Spreadsheet.Proofs.Address.Form
import Spreadsheet.Proofs.Sheet.Area
import Spreadsheet.Proofs.Sheet.Rows

/-!
Addresses at the limit of what a text may name. Within it, texts and addresses correspond to each
other; beyond it an address is written but not read, so that no cell that is set by its name makes the
used area of a sheet too large for words to count.
-/
namespace Spreadsheet

namespace Sheet

/-- The sheets that are filled by setting cells by their names. A text that names no cell is refused
and changes nothing. -/
inductive FilledByName : Sheet → Prop where
  | empty : FilledByName ∅
  | setAt {s s' : Sheet} {reference text : String} (hs : s.FilledByName)
      (h : s.setAt reference text = .ok s') : s'.FilledByName

variable {s : Sheet}

theorem FilledByName.nameable (h : s.FilledByName) : s.Nameable := by
  induction h with
  | empty =>
    intro c hc
    rw [text?, show (∅ : Sheet).cells[c]? = none from Std.ExtTreeMap.getElem?_empty] at hc
    cases hc
  | setAt _ h ih =>
    intro c hc
    obtain ⟨cell, hcell, rfl⟩ := setAt_eq_ok_iff.1 h
    rw [text?_set] at hc
    split at hc
    · rename_i heq
      rw [heq]
      exact Address.nameable_of_parse hcell
    · exact ih c hc

end Sheet

namespace Address

variable {a : Address}

/-- The first column beyond the limit is written, but not read. -/
theorem parse_text_of_col_eq (h : a.col.toNat = maxNumber) :
    parse a.text = .error (.columnOutOfRange (Column.letters a.col)) := by
  have hlt : ¬ maxNumber + 1 ≤ maxNumber := Nat.not_succ_le_self maxNumber
  have hform := a.form_text
  rw [hform.parse_eq, hform.ofLetters_eq, Column.number_numberLetters, Column.letters, h, if_neg hlt]
  rfl

theorem parse_text_of_row_eq (hcol : a.col.toNat < maxNumber) (h : a.row.toNat = maxNumber) :
    parse a.text = .error (.rowOutOfRange (toString (a.row.toNat + 1))) := by
  have hle : a.col.toNat + 1 ≤ maxNumber := hcol
  have hform := a.form_text
  rw [hform.parse_eq, hform.ofLetters_eq, Column.number_numberLetters, if_pos hle]
  simp only [rowOfDigits, Nat.ofDigitChars_ten_toDigits, h, if_pos (Nat.lt_succ_self maxNumber)]
  rfl

/-- A text names an address if it is letters and digits whose numbers are within the limit, and the
address is written as that text in upper case, without blanks around it and zeros in front of the row
number. Addresses and columns below the limit are read as they are written, and those at the limit are
not read. So the row and the column of a cell in a sheet that is filled by naming cells can be counted
from one in a word, and the used area of the sheet is the least that holds its cells. -/
theorem parse_and_text_within_limit :
    (∀ s, (∃ a, parse s = .ok a) ↔ ∃ letters digits, Form (Text.trim s) letters digits ∧
        Column.number letters ∈ Set.Icc 1 maxNumber ∧
        Nat.ofDigitChars 10 digits 0 ∈ Set.Icc 1 maxNumber) ∧
      (∀ s a, parse s = .ok a → ∀ letters digits, Form (Text.trim s) letters digits →
        a.text = String.ofList (letters.map Char.toUpper ++ digits.dropWhile (· == '0'))) ∧
      (∀ a : Address, a.row.toNat < maxNumber → a.col.toNat < maxNumber → parse a.text = .ok a) ∧
      (∀ a : Address, a.col.toNat = maxNumber →
        parse a.text = .error (.columnOutOfRange (Column.letters a.col))) ∧
      (∀ a : Address, a.col.toNat < maxNumber → a.row.toNat = maxNumber →
        parse a.text = .error (.rowOutOfRange (toString (a.row.toNat + 1)))) ∧
      (∀ col : UInt32, col.toNat < maxNumber → Column.ofLetters (Column.letters col) = .ok col) ∧
      (∀ t col, Column.ofLetters t = .ok col →
        col.toNat < maxNumber ∧ Column.letters col = t.toUpper) ∧
      ∀ s : Sheet, s.FilledByName →
        (∀ c, (s.text? c).isSome → c.row.toNat + 1 ≤ maxNumber ∧ c.col.toNat + 1 ≤ maxNumber) ∧
          (∀ c, (s.text? c).isSome →
            (c.row + 1).toNat = c.row.toNat + 1 ∧ (c.col + 1).toNat = c.col.toNat + 1) ∧
          IsLeast {area : Nat × Nat | ∀ c, (s.text? c).isSome →
              c.row.toNat < area.1 ∧ c.col.toNat < area.2}
            (s.dimensions.1.toNat, s.dimensions.2.toNat) := by
  refine ⟨fun s => exists_parse_eq_ok_iff, ?_, ?_, ?_, ?_, ?_, ?_, ?_⟩
  · intro s a ha letters digits h
    exact h.text_eq ha
  · intro a hrow hcol
    exact parse_text ⟨hrow, hcol⟩
  · intro a h
    exact parse_text_of_col_eq h
  · intro a hcol h
    exact parse_text_of_row_eq hcol h
  · intro col h
    exact Column.ofLetters_letters h
  · intro t col h
    exact Column.letters_of_ofLetters h
  · intro s h
    refine ⟨h.nameable, fun c hc => ?_, h.nameable.isLeast_dimensions⟩
    obtain ⟨hrow, hcol⟩ := h.nameable c hc
    rw [toNat_add_one, toNat_add_one, if_pos hrow, if_pos hcol]
    exact ⟨rfl, rfl⟩

/-- Blanks, lower-case letters and zeros are read but not written, and the limit is written but not
read. -/
theorem parse_and_text_within_limit_of_blanks :
    parse " ab0012 " = .ok ⟨11, 27⟩ ∧ text ⟨11, 27⟩ = "AB12" ∧ parse "AB12" = .ok ⟨11, 27⟩ ∧
      parse (text ⟨0, .ofNat maxNumber⟩) = .error (.columnOutOfRange "MWLQKWV") ∧
      parse (text ⟨.ofNat maxNumber, 0⟩) = .error (.rowOutOfRange "4294967296") ∧
      Column.ofLetters (Column.letters 701) = .ok 701 ∧ Column.letters 701 = "ZZ" ∧
      ∀ c, (((∅ : Sheet).set ⟨11, 27⟩ "1").text? c).isSome → (c.row + 1).toNat = c.row.toNat + 1 := by
  obtain ⟨hparse, htext, hname, hcol, hrow, hletters, hcolumn, hsheet⟩ := parse_and_text_within_limit
  have hform : Form (Text.trim " ab0012 ") ['a', 'b'] ['0', '0', '1', '2'] := by
    constructor
    · cbv
    · exact List.cons_ne_nil _ _
    · exact List.cons_ne_nil _ _
    · exact List.all_eq_true.1 rfl
    · exact List.all_eq_true.1 rfl
  have hread : parse " ab0012 " = .ok ⟨11, 27⟩ := by
    obtain ⟨⟨row, col⟩, ha⟩ := (hparse " ab0012 ").2 ⟨_, _, hform, by decide, by decide⟩
    obtain ⟨hc, hr, -⟩ := hform.parse_eq_ok_iff.1 ha
    cases UInt32.toNat_inj.1 (Nat.succ.inj hc : (27 : UInt32).toNat = col.toNat)
    cases UInt32.toNat_inj.1 (Nat.succ.inj hr : (11 : UInt32).toNat = row.toNat)
    exact ha
  have hwritten : text ⟨11, 27⟩ = "AB12" := htext _ _ hread _ _ hform
  have hagain : parse (text ⟨11, 27⟩) = .ok ⟨11, 27⟩ := hname ⟨11, 27⟩ (by decide) (by decide)
  rw [hwritten] at hagain
  have hlast : Column.letters (.ofNat maxNumber) = "MWLQKWV" := by cbv
  have hbeyond := hcol ⟨0, .ofNat maxNumber⟩ rfl
  rw [hlast] at hbeyond
  have hupper : "zz".toUpper = "ZZ" := by cbv
  refine ⟨hread, hwritten, hagain, hbeyond, hrow ⟨.ofNat maxNumber, 0⟩ (by decide) rfl,
    hletters 701 (by decide), (hcolumn "zz" 701 (by decide)).2.trans hupper, ?_⟩
  intro c hc
  exact ((hsheet _ (.setAt .empty (Sheet.setAt_eq_ok_iff.2 ⟨_, hread, rfl⟩))).2.1 c hc).1

end Address

end Spreadsheet
