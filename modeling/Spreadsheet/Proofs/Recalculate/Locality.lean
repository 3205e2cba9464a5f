import Spreadsheet.Proofs.Recalculate.Readings
import Spreadsheet.Proofs.Sheet.Rows

/-! The outcome of a cell depends on the texts of the cells that it reaches and on nothing else. -/
namespace Spreadsheet.Sheet

open Relation

section Agree

variable {s s' : Sheet} {c d p : Address}

/-- Whether two sheets have the same texts in a cell and in all cells that it reaches. -/
def AgreeFrom (s s' : Sheet) (c : Address) : Prop :=
  ∀ d, ReflTransGen s.Reads c d → s.text? d = s'.text? d

theorem AgreeFrom.alikeFrom (h : AgreeFrom s s' c) : AlikeFrom id s s' c := by
  intro d hd
  rw [getElem?_readings, getElem?_readings, h d hd]

theorem AgreeFrom.get?_recalculate (h : AgreeFrom s s' c) (mode : Mode) :
    (s.recalculate mode).outcomes.get? c = (s'.recalculate mode).outcomes.get? c := by
  have hid : Option.map (Except.mapError id) = (id : Option Outcome → Option Outcome) := by
    funext o
    cases o <;> simp
  have hview := h.alikeFrom.get?_recalculate mode
  rwa [hid] at hview

end Agree

section Set

variable {s : Sheet} {c x : Address}

/-- Setting the text of a cell, or removing it, changes no cell but this one and those that reach
it. -/
theorem get?_recalculate_set (mode : Mode) (t : String) (hne : c ≠ x)
    (h : ¬ TransGen s.Reads c x) :
    ((s.set x t).recalculate mode).outcomes.get? c = (s.recalculate mode).outcomes.get? c := by
  have hagree : AgreeFrom s (s.set x t) c := by
    intro d hd
    have hdx : d ≠ x := by
      rintro rfl
      rcases reflTransGen_iff_eq_or_transGen.1 hd with rfl | hd
      · exact hne rfl
      · exact h hd
    exact (text?_set_of_ne hdx t).symm
  exact (hagree.get?_recalculate mode).symm

/-- `A1` reads `B1`. Closing a cycle at `A1`, or clearing it, leaves `B1` as it is. -/
theorem get?_recalculate_set_of_row :
    let s := ofRows [["=B1", "=C1"]]
    ¬ TransGen s.Reads ⟨0, 1⟩ ⟨0, 0⟩ ∧
      ((s.set ⟨0, 0⟩ "=A1").recalculate .layered).outcomes.get? ⟨0, 1⟩ =
        (s.recalculate .layered).outcomes.get? ⟨0, 1⟩ ∧
      ((s.set ⟨0, 0⟩ " ").recalculate .layered).outcomes.get? ⟨0, 1⟩ =
        (s.recalculate .layered).outcomes.get? ⟨0, 1⟩ := by
  intro s
  have hb : Formula.parse "=C1" = .ok (.reference ⟨0, 2⟩) :=
    Formula.parse_eq_reference (t := ⟨⟨.reference, "C1"⟩, 0⟩) (by cbv) rfl rfl
  have tb : s.text? ⟨0, 1⟩ = some "=C1" := by decide
  have tc : s.text? ⟨0, 2⟩ = none := by decide
  have h : ¬ TransGen s.Reads ⟨0, 1⟩ ⟨0, 0⟩ := by
    intro h
    obtain ⟨p, hbp, hpa⟩ := TransGen.head'_iff.1 h
    obtain rfl : p = ⟨0, 2⟩ := by simpa [reads_iff tb, hb, Expr.leaves] using hbp
    rcases ReflTransGen.cases_head hpa with hca | ⟨q, hcq, -⟩
    · cases hca
    · exact not_reads_of_text?_eq_none tc hcq
  have hne : (⟨0, 1⟩ : Address) ≠ ⟨0, 0⟩ := by decide
  exact ⟨h, get?_recalculate_set .layered "=A1" hne h, get?_recalculate_set .layered " " hne h⟩

end Set

end Spreadsheet.Sheet
