import Spreadsheet.Proofs.Formula.Failure
import Spreadsheet.Proofs.Formula.Faults
import Spreadsheet.Proofs.Formula.RoundTrip
import Spreadsheet.Proofs.Recalculate.Plan

/-! A pass leaves every cell with the outcome that its formula has against the outcomes of the same
pass, and the order of evaluation does not matter. -/
namespace Spreadsheet

namespace Sheet

variable {s : Sheet} {c p : Address}

theorem outcomes_recalculate (s : Sheet) (mode : Mode) : (s.recalculate mode).outcomes =
    s.plan.run (mode.batches s.plan.graph s.plan.schedule) := rfl

theorem get?_recalculate_of_error (mode : Mode) {t : String} {e : FormulaError}
    (ht : s.text? c = some t) (he : Formula.parse t = .error e) :
    (s.recalculate mode).outcomes.get? c = some (.error e) :=
  get?_foldl_of_eq_some (get?_failed_eq_some_iff.2 (.inl ⟨t, e, ht, he, rfl⟩))

theorem get?_recalculate_of_onCycle (mode : Mode) (hc : s.OnCycle c) :
    (s.recalculate mode).outcomes.get? c = some (.error (.circularReference c)) :=
  get?_foldl_of_eq_some (get?_failed_eq_some_iff.2 (.inr ⟨hc, rfl⟩))

theorem get?_recalculate_of_not_onCycle (mode : Mode) {e : Expr} (he : s.formula? c = some e)
    (hc : ¬ s.OnCycle c) : (s.recalculate mode).outcomes.get? c =
      some (e.evaluate (s.recalculate mode).outcomes.get?) := by
  have ho : c ∈ s.plan.schedule.order :=
    mem_order_plan_iff.2 ⟨Option.isSome_iff_exists.2 ⟨e, he⟩, hc⟩
  have hv := get?_foldl_of_mem (s.inOrder_batches mode) ((mem_batches_iff mode).2 ho)
    (get?_failed_of_mem_order ho)
  rw [outcomes_recalculate]
  unfold Plan.run
  rw [hv, outcomeOf, getElem?_plan_formulas, he]

theorem get?_recalculate_of_text?_eq_none (mode : Mode) (h : s.text? c = none) :
    (s.recalculate mode).outcomes.get? c = none := by
  have hf : s.formula? c = none := by rw [formula?, h, Option.bind_none]
  have ho : c ∉ s.plan.schedule.order := fun ho => by
    have hs := (mem_order_plan_iff.1 ho).1
    rw [hf] at hs
    cases hs
  have hb : (s.recalculate mode).outcomes.get? c = s.plan.failed.get? c :=
    get?_foldl_of_not_mem (mt (mem_batches_iff mode).1 ho)
  rw [hb]
  refine Option.eq_none_iff_forall_ne_some.2 fun x hx => ?_
  rcases get?_failed_eq_some_iff.1 hx with ⟨t, e, ht, -⟩ | ⟨hc, -⟩
  · rw [h] at ht
    cases ht
  · have hs := hc.isSome_formula?
    rw [hf] at hs
    cases hs

/-- How a cell comes to its outcome, where `known` has the outcomes of all cells. -/
inductive Settles (s : Sheet) (known : Address → Option Outcome) (c : Address) :
    Option Outcome → Prop where
  | empty (ht : s.text? c = none) : Settles s known c none
  | unreadable {t : String} {fault : FormulaError} (ht : s.text? c = some t)
      (he : Formula.parse t = .error fault) : Settles s known c (some (.error fault))
  | circular (hc : s.OnCycle c) : Settles s known c (some (.error (.circularReference c)))
  | evaluated {e : Expr} {outcome : Outcome} (hf : s.formula? c = some e) (hc : ¬ s.OnCycle c)
      (he : e.evaluate known = outcome) : Settles s known c (some outcome)

/-- A pass leaves every cell with the outcome that follows from the outcomes of the same pass. -/
theorem settles_recalculate (s : Sheet) (mode : Mode) (c : Address) :
    s.Settles (s.recalculate mode).outcomes.get? c ((s.recalculate mode).outcomes.get? c) := by
  cases ht : s.text? c with
  | none =>
    rw [get?_recalculate_of_text?_eq_none mode ht]
    exact .empty ht
  | some t =>
    cases he : Formula.parse t with
    | error fault =>
      rw [get?_recalculate_of_error mode ht he]
      exact .unreadable ht he
    | ok e =>
      by_cases hc : s.OnCycle c
      · rw [get?_recalculate_of_onCycle mode hc]
        exact .circular hc
      · have hf := formula?_eq_some_iff.2 ⟨t, ht, he⟩
        rw [get?_recalculate_of_not_onCycle mode hf hc]
        exact .evaluated hf hc rfl

theorem Settles.isSome_iff {known : Address → Option Outcome} {x : Option Outcome}
    (h : s.Settles known c x) : x.isSome ↔ (s.text? c).isSome := by
  cases h with
  | empty ht => simp [ht]
  | unreadable ht _ => simp [ht]
  | circular hc => simp [isSome_text?_of_formula? hc.isSome_formula?]
  | evaluated hf _ _ => simp [isSome_text?_of_formula? (Option.isSome_of_eq_some hf)]

theorem isSome_get?_recalculate_iff (mode : Mode) :
    ((s.recalculate mode).outcomes.get? c).isSome ↔ (s.text? c).isSome :=
  (s.settles_recalculate mode c).isSome_iff

theorem get?_recalculate_eq_none_iff (mode : Mode) :
    (s.recalculate mode).outcomes.get? c = none ↔ s.text? c = none := by
  rw [← Option.not_isSome_iff_eq_none, isSome_get?_recalculate_iff, Option.not_isSome_iff_eq_none]

theorem contains_recalculate_iff (mode : Mode) :
    (s.recalculate mode).outcomes.contains c ↔ (s.text? c).isSome := by
  have h : (s.recalculate mode).outcomes.contains c =
      ((s.recalculate mode).outcomes.get? c).isSome := Std.ExtTreeMap.contains_eq_isSome_getElem?
  rw [h, isSome_get?_recalculate_iff]

/-- At its turn a cell sees the outcomes of the cells that it refers to as they are in the end. -/
theorem get?_run_eq_get?_recalculate {mode : Mode} {before after : List (List Address)}
    {batch : List Address}
    (hb : mode.batches s.plan.graph s.plan.schedule = before ++ batch :: after) (hc : c ∈ batch)
    (hp : s.Reads c p) :
    (s.plan.run before).get? p = (s.recalculate mode).outcomes.get? p := by
  have hin := s.inOrder_batches mode
  rw [hb] at hin
  rw [outcomes_recalculate, hb]
  unfold Plan.run
  rw [List.foldl_append]
  exact get?_eq_get?_foldl hin.of_append hc (refers_plan_iff.2 hp)

theorem text?_eq_none_of_undefinedReference (mode : Mode)
    (h : (s.recalculate mode).outcomes.get? c = some (.error (.undefinedReference p))) :
    s.text? p = none := by
  have hs := s.settles_recalculate mode c
  rw [h] at hs
  cases hs with
  | unreadable _ he => cases Formula.ofText_of_parse he
  | evaluated _ _ he =>
    cases Expr.fails_of_evaluate he with
    | undefined _ hk => exact (get?_recalculate_eq_none_iff mode).1 hk

/-- What a pass in either mode comes to. -/
theorem recalculate_outcomes (s : Sheet) (mode : Mode) :
    let V := (s.recalculate mode).outcomes
    (∀ c, V.contains c ↔ (s.text? c).isSome) ∧
      (∀ c t e, s.text? c = some t → Formula.parse t = .error e → V.get? c = some (.error e)) ∧
      (∀ c, s.OnCycle c → V.get? c = some (.error (.circularReference c))) ∧
      (∀ c t e, s.text? c = some t → Formula.parse t = .ok e → ¬ s.OnCycle c →
        V.get? c = some (e.evaluate V.get?)) ∧
      (∀ before batch after c p,
        mode.batches s.plan.graph s.plan.schedule = before ++ batch :: after → c ∈ batch →
        s.Reads c p → (s.plan.run before).get? p = V.get? p) ∧
      ∀ c p, V.get? c = some (.error (.undefinedReference p)) → s.text? p = none := by
  intro V
  refine ⟨fun c => contains_recalculate_iff mode, fun c t e => get?_recalculate_of_error mode,
    fun c => get?_recalculate_of_onCycle mode, fun c t e ht he hc => ?_,
    fun before batch after c p => get?_run_eq_get?_recalculate,
    fun c p => text?_eq_none_of_undefinedReference mode⟩
  exact get?_recalculate_of_not_onCycle mode (formula?_eq_some_iff.2 ⟨t, ht, he⟩) hc

/-- `B1` cannot be read, `C1` reads itself, and the other formulas are evaluated against that. -/
theorem recalculate_outcomes_of_row (mode : Mode) :
    let s := ofRows [["=B1", "=(", "=C1", "=E1"]]
    let V := (s.recalculate mode).outcomes
    V.get? ⟨0, 0⟩ = some (.error (.dependencyFailed ⟨0, 1⟩)) ∧
      V.get? ⟨0, 1⟩ = some (.error (.malformed 2 .missingOperand)) ∧
      V.get? ⟨0, 2⟩ = some (.error (.circularReference ⟨0, 2⟩)) ∧
      V.get? ⟨0, 3⟩ = some (.error (.undefinedReference ⟨0, 4⟩)) ∧ s.text? ⟨0, 4⟩ = none ∧
      ∃ before batch after, mode.batches s.plan.graph s.plan.schedule = before ++ batch :: after ∧
        ⟨0, 0⟩ ∈ batch ∧
        (s.plan.run before).get? ⟨0, 1⟩ = some (.error (.malformed 2 .missingOperand)) := by
  intro s V
  obtain ⟨hV, herror, hcycle, hvalue, hturn, hundefined⟩ := recalculate_outcomes s mode
  have ha : Formula.parse "=B1" = .ok (.reference ⟨0, 1⟩) :=
    Formula.parse_eq_reference (t := ⟨⟨.reference, "B1"⟩, 0⟩) (by cbv) rfl rfl
  have hb : Formula.parse "=(" = .error (.malformed 2 .missingOperand) := by cbv
  have hc : Formula.parse "=C1" = .ok (.reference ⟨0, 2⟩) :=
    Formula.parse_eq_reference (t := ⟨⟨.reference, "C1"⟩, 0⟩) (by cbv) rfl rfl
  have hd : Formula.parse "=E1" = .ok (.reference ⟨0, 4⟩) :=
    Formula.parse_eq_reference (t := ⟨⟨.reference, "E1"⟩, 0⟩) (by cbv) rfl rfl
  have ta : s.text? ⟨0, 0⟩ = some "=B1" := by decide
  have tb : s.text? ⟨0, 1⟩ = some "=(" := by decide
  have tc : s.text? ⟨0, 2⟩ = some "=C1" := by decide
  have td : s.text? ⟨0, 3⟩ = some "=E1" := by decide
  have te : s.text? ⟨0, 4⟩ = none := by decide
  have ra : ∀ p, s.Reads ⟨0, 0⟩ p ↔ p = ⟨0, 1⟩ := fun p => by simp [reads_iff ta, ha, Expr.leaves]
  have rb : ∀ p, ¬ s.Reads ⟨0, 1⟩ p := fun p => by simp [reads_iff tb, hb]
  have rc : ∀ p, s.Reads ⟨0, 2⟩ p ↔ p = ⟨0, 2⟩ := fun p => by simp [reads_iff tc, hc, Expr.leaves]
  have rd : ∀ p, s.Reads ⟨0, 3⟩ p ↔ p = ⟨0, 4⟩ := fun p => by simp [reads_iff td, hd, Expr.leaves]
  have ka : ¬ s.OnCycle ⟨0, 0⟩ := fun h => not_onCycle_of_not_reads rb (h.of_reads ra)
  have ke : ¬ s.OnCycle ⟨0, 4⟩ := not_onCycle_of_not_reads fun p => not_reads_of_text?_eq_none te
  have kd : ¬ s.OnCycle ⟨0, 3⟩ := fun h => ke (h.of_reads rd)
  have vb := herror ⟨0, 1⟩ _ _ tb hb
  have ve : V.get? ⟨0, 4⟩ = none := by
    have hn := mt (hV ⟨0, 4⟩).1 (by rw [te]; simp)
    rw [Outcomes.contains, Std.ExtTreeMap.contains_eq_isSome_getElem?] at hn
    exact Option.not_isSome_iff_eq_none.1 hn
  have va := hvalue ⟨0, 0⟩ _ _ ta ha ka
  have vd := hvalue ⟨0, 3⟩ _ _ td hd kd
  rw [Expr.evaluate, vb] at va
  rw [Expr.evaluate, ve] at vd
  refine ⟨va, vb, hcycle _ (.single ((rc _).2 rfl)), vd, hundefined _ _ vd, ?_⟩
  have ho : ⟨0, 0⟩ ∈ (mode.batches s.plan.graph s.plan.schedule).flatten :=
    (mem_batches_iff mode).2 (mem_order_plan_iff.2 ⟨Option.isSome_iff_exists.2
      ⟨_, formula?_eq_some_iff.2 ⟨_, ta, ha⟩⟩, ka⟩)
  obtain ⟨batch, hbatch, hmem⟩ := List.mem_flatten.1 ho
  obtain ⟨before, after, h⟩ := List.append_of_mem hbatch
  have hb := hturn before batch after _ _ h hmem ((ra _).2 rfl)
  exact ⟨before, batch, after, h, hmem, hb.trans vb⟩

theorem run_eq_of_inOrder {batches : List (List Address)}
    (hb : InOrder s.plan.formulas batches)
    (hm : ∀ c, c ∈ batches.flatten ↔ c ∈ s.plan.schedule.order) (mode : Mode) :
    s.plan.run batches = (s.recalculate mode).outcomes := by
  have ho : ∀ c p, c ∈ s.plan.schedule.order → p ∈ s.plan.schedule.order →
      Refers s.plan.formulas c p →
        s.plan.schedule.order.idxOf p < s.plan.schedule.order.idxOf c := by
    intro c p hc hp hcp
    exact Graph.idxOf_order_lt hc hp (reads_plan_iff.2 (refers_plan_iff.1 hcp))
  exact foldl_runBatch_eq ho (fun c => get?_failed_of_mem_order) hb hm (s.inOrder_batches mode)
    fun c => mem_batches_iff mode

theorem length_flatten_batches (s : Sheet) (mode : Mode) :
    (mode.batches s.plan.graph s.plan.schedule).flatten.length = s.plan.schedule.order.length :=
  (s.perm_batches mode).length_eq

/-- Both modes come to the same, and so does evaluation in any order in which no cell stands before
a cell that it reads. -/
theorem recalculate_layered_eq_single (s : Sheet) :
    s.recalculate .layered = s.recalculate .single ∧
      ∀ order : List Address, order.Nodup →
        (∀ c, c ∈ order ↔ (s.formula? c).isSome ∧ ¬ s.OnCycle c) →
        (∀ c p, c ∈ order → p ∈ order → s.Reads c p → order.idxOf p < order.idxOf c) →
        s.plan.run (order.map ([·])) = (s.recalculate .single).outcomes := by
  constructor
  · have ho : (s.recalculate .layered).outcomes = (s.recalculate .single).outcomes :=
      run_eq_of_inOrder (s.inOrder_batches .layered) (fun c => mem_batches_iff .layered) .single
    have he := (s.length_flatten_batches .layered).trans (s.length_flatten_batches .single).symm
    rw [outcomes_recalculate, outcomes_recalculate] at ho
    unfold recalculate
    simp only [ho, he]
  · intro order hd hm hlt
    refine run_eq_of_inOrder (inOrder_singletons hd fun c p hc hp hcp => ?_) (fun c => ?_) .single
    · exact hlt c p hc hp (refers_plan_iff.1 hcp)
    · rw [mem_order_plan_iff, ← hm]
      simp

/-- `B1` before `A1` is an order of the cells that are not on the cycle of `C1`. -/
theorem recalculate_layered_eq_single_of_row :
    let s := ofRows [["=B1", "=D1", "=C1"]]
    s.plan.run ([⟨0, 1⟩, ⟨0, 0⟩].map ([·])) = (s.recalculate .layered).outcomes := by
  intro s
  obtain ⟨hmode, horder⟩ := recalculate_layered_eq_single s
  have ha : Formula.parse "=B1" = .ok (.reference ⟨0, 1⟩) :=
    Formula.parse_eq_reference (t := ⟨⟨.reference, "B1"⟩, 0⟩) (by cbv) rfl rfl
  have hb : Formula.parse "=D1" = .ok (.reference ⟨0, 3⟩) :=
    Formula.parse_eq_reference (t := ⟨⟨.reference, "D1"⟩, 0⟩) (by cbv) rfl rfl
  have hc : Formula.parse "=C1" = .ok (.reference ⟨0, 2⟩) :=
    Formula.parse_eq_reference (t := ⟨⟨.reference, "C1"⟩, 0⟩) (by cbv) rfl rfl
  have ta : s.text? ⟨0, 0⟩ = some "=B1" := by decide
  have tb : s.text? ⟨0, 1⟩ = some "=D1" := by decide
  have tc : s.text? ⟨0, 2⟩ = some "=C1" := by decide
  have td : s.text? ⟨0, 3⟩ = none := by decide
  have ra : ∀ p, s.Reads ⟨0, 0⟩ p ↔ p = ⟨0, 1⟩ := fun p => by simp [reads_iff ta, ha, Expr.leaves]
  have rb : ∀ p, s.Reads ⟨0, 1⟩ p ↔ p = ⟨0, 3⟩ := fun p => by simp [reads_iff tb, hb, Expr.leaves]
  have rc : ∀ p, s.Reads ⟨0, 2⟩ p ↔ p = ⟨0, 2⟩ := fun p => by simp [reads_iff tc, hc, Expr.leaves]
  have kd : ¬ s.OnCycle ⟨0, 3⟩ := not_onCycle_of_not_reads fun p => not_reads_of_text?_eq_none td
  have kb : ¬ s.OnCycle ⟨0, 1⟩ := fun h => kd (h.of_reads rb)
  have ka : ¬ s.OnCycle ⟨0, 0⟩ := fun h => kb (h.of_reads ra)
  have hcells : ∀ c e, s.formula? c = some e → c = ⟨0, 0⟩ ∨ c = ⟨0, 1⟩ ∨ c = ⟨0, 2⟩ := by
    intro c e he
    obtain ⟨t, ht, -⟩ := formula?_eq_some_iff.1 he
    have hl : s.toList = [(⟨0, 0⟩, "=B1"), (⟨0, 1⟩, "=D1"), (⟨0, 2⟩, "=C1")] := by decide
    have hm : (c, t) ∈ s.toList := Std.ExtTreeMap.mem_toList_iff_getElem?_eq_some.2 ht
    rw [hl] at hm
    simp only [List.mem_cons, Prod.mk.injEq, List.not_mem_nil, or_false] at hm
    obtain ⟨rfl, -⟩ | ⟨rfl, -⟩ | ⟨rfl, -⟩ := hm <;> simp
  have fa : (s.formula? ⟨0, 0⟩).isSome := by simp [formula?, ta, ha, Except.toOption]
  have fb : (s.formula? ⟨0, 1⟩).isSome := by simp [formula?, tb, hb, Except.toOption]
  rw [hmode]
  refine horder _ (by decide) (fun c => ?_) fun c p hc hp hcp => ?_
  · simp only [List.mem_cons, List.not_mem_nil, or_false]
    constructor
    · rintro (rfl | rfl)
      · exact ⟨fb, kb⟩
      · exact ⟨fa, ka⟩
    · rintro ⟨hs, hn⟩
      obtain ⟨e, he⟩ := Option.isSome_iff_exists.1 hs
      rcases hcells c e he with rfl | rfl | rfl
      · exact .inr rfl
      · exact .inl rfl
      · exact absurd (.single ((rc _).2 rfl)) hn
  · simp only [List.mem_cons, List.not_mem_nil, or_false] at hc hp
    rcases hc with rfl | rfl
    · rw [(rb p).1 hcp] at hp
      simp at hp
    · rw [(ra p).1 hcp]
      decide

end Sheet

end Spreadsheet
