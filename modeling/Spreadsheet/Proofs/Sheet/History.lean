import Spreadsheet.Proofs.Except
import Spreadsheet.Proofs.Graph.Recursion
import Spreadsheet.Proofs.History
import Spreadsheet.Proofs.Recalculate.Pass
import Spreadsheet.Proofs.Sheet.Area

/-! Sheets by the steps that they are filled in. After any steps a cell has the text that was last put
there, and the used area and a pass go by the texts that are left. -/
namespace Spreadsheet.Sheet

/-- A step in which a sheet is filled. -/
inductive Step where
  | set (cell : Address) (text : String)
  /-- Sets a cell by its name. A text that names no cell is refused and changes nothing. -/
  | setAt (reference text : String)
  | clear (cell : Address)
  /-- Puts the sheet of a grid in the place of what there is. -/
  | ofRows (rows : List (List String))

namespace Step

def apply (s : Sheet) : Step → Sheet
  | set cell text => s.set cell text
  | setAt reference text => (s.setAt reference text).toOption.getD s
  | clear cell => s.clear cell
  | ofRows rows => Sheet.ofRows rows

/-- The text that a step writes into a cell, blank ones included. -/
def written? (cell : Address) : Step → Option String
  | set cell' text => if cell' = cell then some text else none
  | setAt reference text => if (Address.parse reference).toOption = some cell then some text else none
  | clear _ => none
  | ofRows rows => (rows[cell.row.toNat]?).bind (·[cell.col.toNat]?)

/-- Whether a step takes away what a cell holds, before it writes. -/
def clears (cell : Address) : Step → Bool
  | clear cell' => cell' = cell
  | ofRows _ => true
  | set _ _ | setAt _ _ => false

/-- Whether every place of a grid that a step puts is one of a sheet. -/
def Fits : Step → Prop
  | ofRows rows => Sheet.Fits rows
  | set _ _ | setAt _ _ | clear _ => True

/-- What a cell holds after a step. -/
theorem text?_apply (s : Sheet) {step : Step} (hfit : step.Fits) (c : Address) :
    (step.apply s).text? c =
      (step.written? c).elim (if step.clears c then none else s.text? c) Text.kept := by
  cases step with
  | set x t =>
    rw [apply, text?_set, written?, clears]
    by_cases hx : x = c
    · simp [hx]
    · simp [hx, Ne.symm hx]
  | setAt reference t =>
    rw [apply, Sheet.setAt, written?, clears]
    cases Address.parse reference with
    | error fault => rfl
    | ok x =>
      show (s.set x t).text? c = _
      rw [text?_set]
      by_cases hx : x = c
      · simp [hx, Except.toOption]
      · simp [hx, Ne.symm hx, Except.toOption]
  | clear x =>
    rw [apply, text?_clear, written?, clears]
    by_cases hx : x = c
    · simp [hx]
    · simp [hx, Ne.symm hx]
  | ofRows rows =>
    rw [apply, text?_ofRows hfit, written?, clears]
    cases (rows[c.row.toNat]?).bind (·[c.col.toNat]?) <;> rfl

end Step

/-- The sheet that steps lead to from nothing. -/
def ofSteps (steps : List Step) : Sheet := steps.foldl Step.apply ∅

/-- Whether a text was written into a cell after which nothing was written into it or taken away. -/
def LastWritten (steps : List Step) (cell : Address) (text : String) : Prop :=
  ∃ before step after, steps = before ++ step :: after ∧
    (∀ s ∈ after, s.written? cell = none ∧ s.clears cell = false) ∧ step.written? cell = some text

variable {steps : List Step} {c x : Address} {t : String}

theorem ofSteps_append (steps : List Step) (step : Step) :
    ofSteps (steps ++ [step]) = step.apply (ofSteps steps) := by
  rw [ofSteps, List.foldl_append]
  rfl

/-- A cell has the text that was last written into it, unless it is blank. -/
theorem text?_ofSteps_eq_some_iff (hfit : ∀ step ∈ steps, step.Fits) :
    (ofSteps steps).text? c = some t ↔ LastWritten steps c t ∧ Text.allBlank t = false := by
  induction steps using List.reverseRecOn with
  | nil =>
    have hempty : (ofSteps []).text? c = none := Std.ExtTreeMap.getElem?_empty
    have hnone : ¬ LastWritten [] c t := not_exists_followed_nil
    simp [hempty, hnone]
  | append_singleton steps step ih =>
    have hlast : LastWritten (steps ++ [step]) c t ↔ step.written? c = some t ∨
        (step.written? c = none ∧ step.clears c = false) ∧ LastWritten steps c t :=
      exists_followed_append_iff
    rw [List.forall_mem_append, List.forall_mem_singleton] at hfit
    rw [ofSteps_append, Step.text?_apply _ hfit.2, hlast]
    cases step.written? c with
    | some u =>
      show Text.kept u = some t ↔ _
      simp [Text.kept_eq_some_iff]
    | none =>
      cases step.clears c with
      | true => simp
      | false => simpa using ih hfit.1

theorem nameable_ofSteps (hfit : ∀ step ∈ steps, step.Fits)
    (hsteps : ∀ step ∈ steps, ∀ c t, step.written? c = some t → c.Nameable) :
    (ofSteps steps).Nameable := by
  intro c hc
  obtain ⟨t, ht⟩ := Option.isSome_iff_exists.1 hc
  obtain ⟨⟨before, step, after, rfl, -, hwritten⟩, -⟩ := (text?_ofSteps_eq_some_iff hfit).1 ht
  exact hsteps step (by simp) c t hwritten

theorem mem_toList_iff {s : Sheet} : (c, t) ∈ s.toList ↔ s.text? c = some t :=
  Std.ExtTreeMap.mem_toList_iff_getElem?_eq_some

theorem pairwise_toList (s : Sheet) : (s.toList.map Prod.fst).Pairwise Address.Before := by
  rw [toList, Std.ExtTreeMap.map_fst_toList_eq_keys]
  exact Std.ExtTreeMap.ordered_keys.imp Address.before_of_compare

/-- A cell that refers to an empty cell and to nothing else has no number. -/
theorem get?_recalculate_of_reference {s : Sheet} (mode : Mode) {p : Address}
    (ht : s.text? c = some t) (he : Formula.parse t = .ok (.reference p)) (hp : s.text? p = none) :
    (s.recalculate mode).outcomes.get? c = some (.error (.undefinedReference p)) := by
  have hreads : ∀ q, s.Reads c q ↔ q = p := fun q => by simp [reads_iff ht, he, Expr.leaves]
  have hc : ¬ s.OnCycle c := fun h =>
    not_onCycle_of_not_reads (fun q => not_reads_of_text?_eq_none hp) (h.of_reads hreads)
  rw [get?_recalculate_of_not_onCycle mode (formula?_eq_some_iff.2 ⟨t, ht, he⟩) hc, Expr.evaluate,
    get?_recalculate_of_text?_eq_none mode hp]

/-- After steps with grids that fit, a cell has the text that was last written into it, unless that is
blank or was taken away; the texts are listed row by row. To write a blank text into a cell is to clear
it. If all cells with a text can be named, as they can if only such cells were written, the used area is
the least that starts at A1 and holds every cell with a text, and rows or columns are lost with a cell
that alone was in the last one. A cell that refers to nothing but an empty cell has no number in a
pass. -/
theorem texts_and_area_ofSteps (steps : List Step) :
    let s := ofSteps steps
    ((∀ step ∈ steps, step.Fits) →
        (∀ c t, s.text? c = some t ↔ LastWritten steps c t ∧ Text.allBlank t = false) ∧
          ((∀ step ∈ steps, ∀ c t, step.written? c = some t → c.Nameable) → s.Nameable)) ∧
      (∀ c t, (c, t) ∈ s.toList ↔ s.text? c = some t) ∧
      (s.toList.map Prod.fst).Pairwise Address.Before ∧
      (∀ x t, Text.allBlank t = true → s.set x t = s.clear x) ∧
      (s.Nameable →
        IsLeast {area : Nat × Nat | ∀ c, (s.text? c).isSome →
            c.row.toNat < area.1 ∧ c.col.toNat < area.2}
          (s.dimensions.1.toNat, s.dimensions.2.toNat) ∧
        ∀ x,
          ((s.clear x).dimensions.1.toNat ≤ s.dimensions.1.toNat ∧
            (s.clear x).dimensions.2.toNat ≤ s.dimensions.2.toNat) ∧
          ((s.clear x).dimensions.1.toNat < s.dimensions.1.toNat ↔ (s.text? x).isSome ∧
            ∀ c, c ≠ x → (s.text? c).isSome → c.row.toNat + 1 < s.dimensions.1.toNat) ∧
          ((s.clear x).dimensions.2.toNat < s.dimensions.2.toNat ↔ (s.text? x).isSome ∧
            ∀ c, c ≠ x → (s.text? c).isSome → c.col.toNat + 1 < s.dimensions.2.toNat)) ∧
      ∀ mode c t p, s.text? c = some t → Formula.parse t = .ok (.reference p) → s.text? p = none →
        (s.recalculate mode).outcomes.get? c = some (.error (.undefinedReference p)) := by
  intro s
  refine ⟨fun hfit => ⟨fun c t => text?_ofSteps_eq_some_iff hfit, nameable_ofSteps hfit⟩,
    fun c t => mem_toList_iff, s.pairwise_toList, fun x t ht => s.set_eq_clear ht x, fun hs => ?_,
    fun mode c t p => get?_recalculate_of_reference mode⟩
  constructor
  · exact hs.isLeast_dimensions
  · intro x
    exact ⟨s.dimensions_clear_le x, hs.rows_clear_lt_iff, hs.cols_clear_lt_iff⟩

/-- `1A` names no cell, the blanks take the text of `C1` away and its column with it, and `B2` refers to
a cell without a text. -/
theorem texts_and_area_ofSteps_of_blanks :
    let steps := [.set ⟨0, 2⟩ "1", .setAt "B2" "=C3", .setAt "1A" "2", .set ⟨0, 2⟩ "  "]
    let s := ofSteps steps
    s.text? ⟨0, 2⟩ = none ∧ s.text? ⟨1, 1⟩ = some "=C3" ∧ s.dimensions = (2, 2) ∧
      (∀ c, (s.text? c).isSome → c.row.toNat < 2 ∧ c.col.toNat < 2) ∧
      (s.recalculate .layered).outcomes.get? ⟨1, 1⟩ = some (.error (.undefinedReference ⟨2, 2⟩)) := by
  intro steps s
  obtain ⟨hfits, -, -, -, harea, hpass⟩ := texts_and_area_ofSteps steps
  have hfit : ∀ step ∈ steps, step.Fits := by simp [steps, Step.Fits]
  obtain ⟨htext, hnameable⟩ := hfits hfit
  have hname : Address.parse "B2" = .ok ⟨1, 1⟩ := by decide
  have hfault : (Address.parse "1A").toOption = none := by decide
  have hblank : s.text? ⟨0, 2⟩ = none := by decide
  have hb : s.text? ⟨1, 1⟩ = some "=C3" := by
    refine (htext _ _).2 ⟨⟨[.set ⟨0, 2⟩ "1"], .setAt "B2" "=C3", _, rfl, ?_, ?_⟩, by decide⟩
    · simp [Step.written?, Step.clears, hfault]
    · simp [Step.written?, Except.toOption, hname]
  have hs : s.Nameable := by
    apply hnameable
    simp only [steps, List.forall_mem_cons, Step.written?, Option.ite_none_right_eq_some]
    refine ⟨?_, ?_, ?_, ?_, List.forall_mem_nil _⟩
    · rintro c t ⟨rfl, -⟩
      exact ⟨by decide, by decide⟩
    · rintro c t ⟨h, -⟩
      exact Address.nameable_of_parse (toOption_eq_some_iff.1 h)
    · rintro c t ⟨h, -⟩
      exact Address.nameable_of_parse (toOption_eq_some_iff.1 h)
    · rintro c t ⟨rfl, -⟩
      exact ⟨by decide, by decide⟩
  have hd : s.dimensions = (2, 2) := by decide
  have hinside := (harea hs).1.1
  rw [hd] at hinside
  have hc : Formula.parse "=C3" = .ok (.reference ⟨2, 2⟩) :=
    Formula.parse_eq_reference (t := ⟨⟨.reference, "C3"⟩, 0⟩) (by cbv) rfl rfl
  exact ⟨hblank, hb, hd, hinside, hpass .layered _ _ _ hb hc (by decide)⟩

end Spreadsheet.Sheet
