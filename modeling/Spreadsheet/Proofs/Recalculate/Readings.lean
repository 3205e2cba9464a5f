import Spreadsheet.Proofs.Except
import Spreadsheet.Proofs.Recalculate.Pass

/-!
A pass sees of the texts of a sheet what they are read as, and nothing else. What is seen of the
reasons why texts cannot be read is up to `view`, which may keep them apart or not.
-/
namespace Spreadsheet

open Relation

variable {ε : Type} {view : FormulaError → ε}

namespace Sheet

/-- What the text of every cell is read as. -/
def readings (view : FormulaError → ε) (s : Sheet) : AddressMap (Except ε Expr) :=
  s.cells.map fun _ text => (Formula.parse text).mapError view

variable {s s' : Sheet} {c d p : Address}

theorem getElem?_readings : (s.readings view)[c]? =
    (s.text? c).map fun text => (Formula.parse text).mapError view := Std.ExtTreeMap.getElem?_map

theorem formula?_eq_bind (view : FormulaError → ε) (s : Sheet) (c : Address) :
    s.formula? c = (s.readings view)[c]?.bind Except.toOption := by
  rw [getElem?_readings, formula?]
  cases s.text? c with
  | none => rfl
  | some t => exact (toOption_mapError view (Formula.parse t)).symm

/-- Going from cells on no cycle to the cells that they read comes to an end. -/
theorem wellFounded_reads (s : Sheet) : WellFounded fun p c => ¬ s.OnCycle c ∧ s.Reads c p := by
  let order := s.plan.schedule.order
  let rank (c : Address) : Nat := if c ∈ order then order.idxOf c + 1 else 0
  refine Subrelation.wf (r := InvImage (· < ·) rank) ?_ (InvImage.wf rank Nat.lt_wfRel.wf)
  intro p c h
  obtain ⟨hc, hcp⟩ := h
  have hco : c ∈ order := by
    obtain ⟨e, he, -⟩ := hcp
    exact mem_order_plan_iff.2 ⟨Option.isSome_iff_exists.2 ⟨e, he⟩, hc⟩
  show rank p < rank c
  by_cases hpo : p ∈ order
  · have hlt := Graph.idxOf_order_lt hco hpo (reads_plan_iff.2 hcp)
    simp only [rank, hco, hpo, if_true]
    exact Nat.succ_lt_succ hlt
  · simp only [rank, hco, hpo, if_true, if_false]
    exact Nat.succ_pos _

section AlikeFrom

/-- Whether the texts of two sheets are read alike in a cell and in all cells that it reaches. -/
def AlikeFrom (view : FormulaError → ε) (s s' : Sheet) (c : Address) : Prop :=
  ∀ d, ReflTransGen s.Reads c d → (s.readings view)[d]? = (s'.readings view)[d]?

theorem reads_congr (h : (s.readings view)[c]? = (s'.readings view)[c]?) :
    s.Reads c p ↔ s'.Reads c p := by
  unfold Reads
  rw [formula?_eq_bind view s, formula?_eq_bind view s', h]

theorem AlikeFrom.of_reads (h : AlikeFrom view s s' c) (hp : s.Reads c p) :
    AlikeFrom view s s' p := fun d hd => h d (.head hp hd)

theorem AlikeFrom.reflTransGen_iff (h : AlikeFrom view s s' c) :
    ReflTransGen s.Reads c d ↔ ReflTransGen s'.Reads c d := by
  constructor
  · intro hd
    induction hd with
    | refl => exact .refl
    | tail hb hbd ih => exact ih.tail ((reads_congr (h _ hb)).1 hbd)
  · intro hd
    induction hd with
    | refl => exact .refl
    | tail _ hbd ih => exact ih.tail ((reads_congr (h _ ih)).2 hbd)

theorem AlikeFrom.onCycle_iff (h : AlikeFrom view s s' c) : s.OnCycle c ↔ s'.OnCycle c := by
  have hstep : ∀ p, s.Reads c p ↔ s'.Reads c p := fun p => reads_congr (h c .refl)
  constructor
  · intro hc
    obtain ⟨p, hcp, hpc⟩ := TransGen.head'_iff.1 hc
    exact .head' ((hstep p).1 hcp) ((h.of_reads hcp).reflTransGen_iff.1 hpc)
  · intro hc
    obtain ⟨p, hcp, hpc⟩ := TransGen.head'_iff.1 hc
    have hcp := (hstep p).2 hcp
    exact .head' hcp ((h.of_reads hcp).reflTransGen_iff.2 hpc)

/-- A cell comes to the same number, or fails alike, in sheets that are read alike from it on. -/
theorem AlikeFrom.get?_recalculate (h : AlikeFrom view s s' c) (mode : Mode) :
    ((s.recalculate mode).outcomes.get? c).map (Except.mapError view) =
      ((s'.recalculate mode).outcomes.get? c).map (Except.mapError view) := by
  -- along the reads of cells on no cycle: what a cell on one reads has no part in its outcome
  induction c using s.wellFounded_reads.induction with
  | _ c ih =>
    have hread := h c .refl
    rw [getElem?_readings, getElem?_readings] at hread
    cases ht : s.text? c with
    | none =>
      rw [ht, Option.map_none, eq_comm, Option.map_eq_none_iff] at hread
      rw [get?_recalculate_of_text?_eq_none mode ht, get?_recalculate_of_text?_eq_none mode hread]
    | some t =>
      rw [ht, Option.map_some, eq_comm, Option.map_eq_some_iff] at hread
      obtain ⟨t', ht', hread⟩ := hread
      cases he : Formula.parse t with
      | error fault =>
        cases he' : Formula.parse t' with
        | error fault' =>
          rw [he, he'] at hread
          rw [get?_recalculate_of_error mode ht he, get?_recalculate_of_error mode ht' he']
          have hfault : view fault' = view fault := Except.error.inj hread
          simp only [Option.map_some, Except.mapError, hfault]
        | ok e' =>
          rw [he, he'] at hread
          cases hread
      | ok e =>
        have he' : Formula.parse t' = .ok e := by
          rw [← toOption_eq_some_iff, ← toOption_mapError view, hread, he]
          rfl
        by_cases hc : s.OnCycle c
        · rw [get?_recalculate_of_onCycle mode hc,
            get?_recalculate_of_onCycle mode (h.onCycle_iff.1 hc)]
        · have hf := formula?_eq_some_iff.2 ⟨t, ht, he⟩
          have hf' := formula?_eq_some_iff.2 ⟨t', ht', he'⟩
          rw [get?_recalculate_of_not_onCycle mode hf hc,
            get?_recalculate_of_not_onCycle mode hf' (mt h.onCycle_iff.2 hc)]
          congr 2
          refine Expr.evaluate_congr_mapError view fun p hp => ?_
          have hcp : s.Reads c p := ⟨e, hf, hp⟩
          exact ih p ⟨hc, hcp⟩ (h.of_reads hcp)

end AlikeFrom

section Alike

theorem toList_readings (view : FormulaError → ε) (s : Sheet) :
    (s.readings view).toList = s.formulas.map fun x => (x.1, x.2.mapError view) := by
  unfold readings formulas toList
  rw [Std.ExtTreeMap.toList_map, List.map_map]
  rfl

theorem readable_formulas (view : FormulaError → ε) (s : Sheet) : readable s.formulas =
    (s.readings view).toList.filterMap fun x => x.2.toOption.map (x.1, ·) := by
  rw [toList_readings, List.filterMap_map]
  unfold readable
  congr 1
  funext ⟨cell, x⟩
  cases x <;> rfl

theorem length_formulas (view : FormulaError → ε) (s : Sheet) :
    s.formulas.length = (s.readings view).toList.length := by
  rw [toList_readings, List.length_map]

theorem countP_formulas (view : FormulaError → ε) (s : Sheet) :
    s.formulas.countP (fun x => !x.2.toOption.any Expr.isLiteral) =
      (s.readings view).toList.countP fun x => !x.2.toOption.any Expr.isLiteral := by
  rw [toList_readings, List.countP_map]
  simp only [Function.comp_def, toOption_mapError]

theorem dimensions_eq (view : FormulaError → ε) (s : Sheet) : s.dimensions =
    (s.readings view).keys.foldl
      (fun (rows, cols) cell => (max rows (cell.row + 1), max cols (cell.col + 1))) (0, 0) := by
  unfold readings
  rw [Std.ExtTreeMap.keys_map]
  rfl

end Alike

end Sheet

namespace Outcomes

theorem length_errors_congr {o o' : Outcomes}
    (h : ∀ c, (o.get? c).map (Except.mapError view) = (o'.get? c).map (Except.mapError view)) :
    o.errors.length = o'.errors.length := by
  have hcount : ∀ o : Outcomes, o.errors.length =
      (o.entries.map fun _ x => x.mapError view).toList.countP fun x => x.2.toOption.isNone := by
    intro o
    unfold errors toList
    rw [Std.ExtTreeMap.toList_map, List.countP_map, List.length_filterMap_eq_countP]
    congr 1
    funext ⟨cell, x⟩
    cases x <;> rfl
  have hentries : (o.entries.map fun _ x => x.mapError view) =
      o'.entries.map fun _ x => x.mapError view := by
    refine Std.ExtTreeMap.ext_getElem? fun {c} => ?_
    rw [Std.ExtTreeMap.getElem?_map, Std.ExtTreeMap.getElem?_map]
    exact h c
  rw [hcount, hcount, hentries]

end Outcomes

namespace Sheet

variable {s s' : Sheet}

theorem get?_recalculate_of_readings_eq (h : s.readings view = s'.readings view) (mode : Mode)
    (c : Address) : ((s.recalculate mode).outcomes.get? c).map (Except.mapError view) =
      ((s'.recalculate mode).outcomes.get? c).map (Except.mapError view) := by
  have halike : AlikeFrom view s s' c := fun d _ => by rw [h]
  exact halike.get?_recalculate mode

theorem plan_graph_of_readings_eq (h : s.readings view = s'.readings view) :
    s.plan.graph = s'.plan.graph := by
  rw [plan_graph, plan_graph, readable_formulas view, readable_formulas view, h]

/-- Sheets that are read alike have the same counts and the same area. -/
theorem tally_recalculate_of_readings_eq (h : s.readings view = s'.readings view) (mode : Mode) :
    (s.recalculate mode).tally = (s'.recalculate mode).tally := by
  have hgraph := plan_graph_of_readings_eq h
  have herrors := Outcomes.length_errors_congr (get?_recalculate_of_readings_eq h mode)
  have hcells : s.plan.cells.length = s'.plan.cells.length := by
    show s.formulas.length = s'.formulas.length
    rw [length_formulas view, length_formulas view, h]
  have hformulas : s.plan.cells.countP (fun x => !x.2.toOption.any Expr.isLiteral) =
      s'.plan.cells.countP fun x => !x.2.toOption.any Expr.isLiteral := by
    show s.formulas.countP _ = s'.formulas.countP _
    rw [countP_formulas view, countP_formulas view, h]
  have hschedule : s.plan.schedule = s'.plan.schedule := by
    rw [plan_schedule, plan_schedule, hgraph]
  have htally : ∀ s : Sheet, (s.recalculate mode).tally =
      { cells := s.plan.cells.length
        formulas := s.plan.cells.countP fun x => !x.2.toOption.any Expr.isLiteral
        evaluated := (mode.batches s.plan.graph s.plan.schedule).flatten.length
        circular := s.plan.schedule.cycles.size
        errors := (s.recalculate mode).outcomes.errors.length } := fun s => rfl
  rw [htally, htally, hgraph, hschedule, hcells, hformulas, herrors]

theorem dimensions_of_readings_eq (h : s.readings view = s'.readings view) :
    s.dimensions = s'.dimensions := by
  rw [dimensions_eq view, dimensions_eq view, h]

end Sheet

end Spreadsheet
