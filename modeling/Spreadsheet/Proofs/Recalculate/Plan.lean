import Spreadsheet.Proofs.Graph.Layers
import Spreadsheet.Proofs.Recalculate.Batches

/-! What the plan of a sheet says about the texts of its cells. -/
namespace Spreadsheet

open Relation

theorem lookup_eq_some_iff {α : Type} {l : List (Address × α)} {k : Address} {x : α}
    (h : ∀ y z, (k, y) ∈ l → (k, z) ∈ l → y = z) : l.lookup k = some x ↔ (k, x) ∈ l := by
  have hmem : ∀ y, l.lookup k = some y → (k, y) ∈ l := by
    intro y hy
    obtain ⟨l₁, l₂, rfl, -⟩ := List.lookup_eq_some_iff.1 hy
    simp
  refine ⟨hmem x, fun hx => ?_⟩
  cases hl : l.lookup k with
  | none => simpa using List.lookup_eq_none_iff.1 hl _ hx
  | some y => rw [h y x (hmem y hl) hx]

@[simp] theorem mem_readable {l : List (Address × Except FormulaError Expr)} {c : Address}
    {e : Expr} : (c, e) ∈ readable l ↔ (c, .ok e) ∈ l := by
  simp only [readable, List.mem_filterMap]
  constructor
  · rintro ⟨⟨c', x⟩, hx, h⟩
    cases x <;> cases h
    exact hx
  · exact fun h => ⟨_, h, rfl⟩

@[simp] theorem mem_unreadable {l : List (Address × Except FormulaError Expr)} {c : Address}
    {x : Outcome} : (c, x) ∈ unreadable l ↔ ∃ e, (c, .error e) ∈ l ∧ x = .error e := by
  simp only [unreadable, List.mem_filterMap]
  constructor
  · rintro ⟨⟨c', y⟩, hy, h⟩
    cases y <;> cases h
    exact ⟨_, hy, rfl⟩
  · rintro ⟨e, he, rfl⟩
    exact ⟨_, he, rfl⟩

namespace Sheet

/-- The formula of a cell, if its text is one. -/
def formula? (s : Sheet) (cell : Address) : Option Expr :=
  (s.text? cell).bind fun text => (Formula.parse text).toOption

/-- Whether the formula of `cell` refers to `precedent`. -/
def Reads (s : Sheet) (cell precedent : Address) : Prop :=
  ∃ e, s.formula? cell = some e ∧ precedent ∈ e.leaves

/-- Whether a chain of one or more references leads from a cell back to it. -/
def OnCycle (s : Sheet) (cell : Address) : Prop := TransGen s.Reads cell cell

variable {s : Sheet} {c p : Address}

theorem formula?_eq_some_iff {e : Expr} :
    s.formula? c = some e ↔ ∃ t, s.text? c = some t ∧ Formula.parse t = .ok e := by
  unfold formula?
  rw [Option.bind_eq_some_iff]
  refine exists_congr fun t => and_congr_right fun _ => ?_
  cases Formula.parse t <;> simp [Except.toOption]

theorem isSome_text?_of_formula? (h : (s.formula? c).isSome) : (s.text? c).isSome := by
  obtain ⟨e, he⟩ := Option.isSome_iff_exists.1 h
  obtain ⟨t, ht, -⟩ := formula?_eq_some_iff.1 he
  rw [ht, Option.isSome_some]

theorem reads_iff {t : String} (ht : s.text? c = some t) :
    s.Reads c p ↔ ∃ e, Formula.parse t = .ok e ∧ p ∈ e.leaves := by
  simp [Reads, formula?_eq_some_iff, ht]

theorem not_reads_of_text?_eq_none (ht : s.text? c = none) : ¬ s.Reads c p := by
  rintro ⟨e, he, -⟩
  rw [formula?, ht] at he
  cases he

theorem not_onCycle_of_not_reads (h : ∀ p, ¬ s.Reads c p) : ¬ s.OnCycle c := by
  intro hc
  obtain ⟨p, hp, -⟩ := TransGen.head'_iff.1 hc
  exact h p hp

/-- A cycle leads on to the only cell that a cell refers to. -/
theorem OnCycle.of_reads (h : s.OnCycle c) (hp : ∀ q, s.Reads c q ↔ q = p) : s.OnCycle p := by
  obtain ⟨q, hcq, hqc⟩ := TransGen.head'_iff.1 h
  rw [← (hp q).1 hcq]
  exact .tail' hqc hcq

theorem OnCycle.isSome_formula? (h : s.OnCycle c) : (s.formula? c).isSome := by
  obtain ⟨p, ⟨e, he, -⟩, -⟩ := TransGen.head'_iff.1 h
  rw [he, Option.isSome_some]

theorem mem_formulas {x : Except FormulaError Expr} :
    (c, x) ∈ s.formulas ↔ ∃ t, s.text? c = some t ∧ Formula.parse t = x := by
  simp only [formulas, List.mem_map, Prod.mk.injEq, Prod.exists]
  constructor
  · rintro ⟨c', t, ht, rfl, hx⟩
    exact ⟨t, Std.ExtTreeMap.mem_toList_iff_getElem?_eq_some.1 ht, hx⟩
  · rintro ⟨t, ht, hx⟩
    exact ⟨c, t, Std.ExtTreeMap.mem_toList_iff_getElem?_eq_some.2 ht, rfl, hx⟩

theorem mem_readable_formulas {e : Expr} :
    (c, e) ∈ readable s.formulas ↔ s.formula? c = some e := by
  rw [mem_readable, mem_formulas, formula?_eq_some_iff]

theorem pairwise_readable_formulas (s : Sheet) :
    (readable s.formulas).Pairwise fun a b => ¬ compare a.1 b.1 = .eq := by
  refine List.pairwise_filterMap.2 (List.pairwise_map.2 ?_)
  refine (Std.ExtTreeMap.distinct_keys_toList (t := s.cells)).imp fun {a b} hab x hx y hy => ?_
  cases ha : Formula.parse a.2 <;> cases hb : Formula.parse b.2 <;> simp_all
  cases hx
  cases hy
  exact hab

@[simp] theorem getElem?_plan_formulas (s : Sheet) (c : Address) :
    s.plan.formulas[c]? = s.formula? c := by
  cases hc : s.formula? c with
  | some e =>
    exact Std.ExtTreeMap.getElem?_ofList_of_mem (Std.ReflCmp.compare_self)
      s.pairwise_readable_formulas (mem_readable_formulas.2 hc)
  | none =>
    refine Std.ExtTreeMap.getElem?_ofList_of_contains_eq_false ?_
    by_contra h
    rw [Bool.not_eq_false, List.contains_iff_mem] at h
    obtain ⟨⟨c', e⟩, he, rfl⟩ := List.mem_map.1 h
    rw [mem_readable_formulas.1 he] at hc
    cases hc

theorem refers_plan_iff : Refers s.plan.formulas c p ↔ s.Reads c p := by
  simp [Refers, Reads]

theorem plan_graph (s : Sheet) : s.plan.graph = .ofFormulas (readable s.formulas) := rfl

theorem plan_schedule (s : Sheet) : s.plan.schedule = s.plan.graph.schedule := rfl

theorem reads_plan_iff : s.plan.graph.Reads c p ↔ s.Reads c p := by
  rw [plan_graph, Graph.reads_ofFormulas]
  simp only [Reads, mem_readable_formulas, Expr.mem_references]

theorem onCycle_plan_iff : s.plan.graph.OnCycle c ↔ s.OnCycle c := by
  have h : s.plan.graph.Reads = s.Reads := by
    ext c p
    exact reads_plan_iff
  rw [Graph.OnCycle, OnCycle, h]

theorem mem_cycles_plan_iff : c ∈ s.plan.schedule.cycles ↔ s.OnCycle c := by
  rw [plan_schedule, Graph.mem_cycles, onCycle_plan_iff]

theorem mem_order_plan_iff :
    c ∈ s.plan.schedule.order ↔ (s.formula? c).isSome ∧ ¬ s.OnCycle c := by
  rw [plan_schedule, Graph.mem_order, onCycle_plan_iff, plan_graph,
    Graph.mem_cells_ofFormulas, Option.isSome_iff_exists]
  simp only [mem_readable_formulas]

/-- The outcomes that are known before any cell is evaluated. -/
theorem get?_failed_eq_some_iff {x : Outcome} :
    s.plan.failed.get? c = some x ↔
      (∃ t e, s.text? c = some t ∧ Formula.parse t = .error e ∧ x = .error e) ∨
        s.OnCycle c ∧ x = .error (.circularReference c) := by
  have hmem : ∀ y, (c, y) ∈ unreadable s.formulas ++ s.plan.schedule.cycles.toList.map
      (fun cell => (cell, .error (.circularReference cell))) ↔
      (∃ t e, s.text? c = some t ∧ Formula.parse t = .error e ∧ y = .error e) ∨
        s.OnCycle c ∧ y = .error (.circularReference c) := by
    intro y
    rw [List.mem_append, mem_unreadable, List.mem_map]
    refine or_congr ?_ ?_
    · simp only [mem_formulas]
      grind
    · rw [← mem_cycles_plan_iff, ← Std.ExtTreeSet.mem_toList]
      grind
  have hplan : s.plan.failed = (∅ : Outcomes).recordAll (unreadable s.formulas ++
    s.plan.schedule.cycles.toList.map fun cell => (cell, .error (.circularReference cell))) := rfl
  rw [hplan, Outcomes.get?_recordAll, Outcomes.get?_empty, Option.none_or, lookup_eq_some_iff, hmem]
  -- A cell whose text is no formula refers to nothing, so it is on no cycle.
  intro y z hy hz
  rcases (hmem y).1 hy with ⟨t, e, ht, he, rfl⟩ | ⟨hc, rfl⟩ <;>
    rcases (hmem z).1 hz with ⟨t', e', ht', he', rfl⟩ | ⟨hc', rfl⟩
  · grind
  · obtain ⟨e', he'⟩ := Option.isSome_iff_exists.1 hc'.isSome_formula?
    obtain ⟨t', ht', he'⟩ := formula?_eq_some_iff.1 he'
    grind
  · obtain ⟨e', he''⟩ := Option.isSome_iff_exists.1 hc.isSome_formula?
    obtain ⟨t', ht', he'⟩ := formula?_eq_some_iff.1 he''
    grind
  · rfl

theorem get?_failed_of_mem_order (h : c ∈ s.plan.schedule.order) :
    s.plan.failed.get? c = none := by
  obtain ⟨hf, hc⟩ := mem_order_plan_iff.1 h
  refine Option.eq_none_iff_forall_ne_some.2 fun x hx => ?_
  rcases get?_failed_eq_some_iff.1 hx with ⟨t, e, ht, he, -⟩ | ⟨hc', -⟩
  · obtain ⟨e', he'⟩ := Option.isSome_iff_exists.1 hf
    obtain ⟨t', ht', he'⟩ := formula?_eq_some_iff.1 he'
    grind
  · exact hc hc'

/-- The batches of either mode hold the cells of the order. -/
theorem perm_batches (s : Sheet) (mode : Mode) :
    (mode.batches s.plan.graph s.plan.schedule).flatten.Perm s.plan.schedule.order := by
  cases mode with
  | single =>
    rw [Mode.batches, ← List.flatMap_def, List.flatMap_singleton']
  | layered => exact Schedule.flatten_layers_perm _ (Graph.nodup_order _)

theorem mem_batches_iff (mode : Mode) :
    c ∈ (mode.batches s.plan.graph s.plan.schedule).flatten ↔ c ∈ s.plan.schedule.order :=
  (s.perm_batches mode).mem_iff

theorem inOrder_batches (s : Sheet) (mode : Mode) :
    InOrder s.plan.formulas (mode.batches s.plan.graph s.plan.schedule) := by
  cases mode with
  | single =>
    refine inOrder_singletons (Graph.nodup_order _) fun c p hc hp hcp => ?_
    exact Graph.idxOf_order_lt hc hp (reads_plan_iff.2 (refers_plan_iff.1 hcp))
  | layered =>
    have hself : ∀ a ∈ s.plan.schedule.order, ¬ s.plan.graph.Reads a a :=
      fun a ha haa => (Graph.mem_order.1 ha).2 (.single haa)
    have hle : ∀ i j, i ≤ j → ∀ a ∈ (s.plan.schedule.layering s.plan.graph).layer i,
        ∀ b ∈ (s.plan.schedule.layering s.plan.graph).layer j, ¬ Refers s.plan.formulas a b := by
      intro i j hij a ha b hb hab
      exact Schedule.not_reads_of_layer_le (Graph.nodup_order _) (Graph.pairwise_order _) hself
        hij ha hb (reads_plan_iff.2 (refers_plan_iff.1 hab))
    rw [Mode.batches, Schedule.layers_eq_map_layer]
    refine inOrder_of_pairwise (List.pairwise_map.2 ?_) ?_
    · exact List.pairwise_lt_range.imp fun {i j} hij => hle i j (Nat.le_of_lt hij)
    · intro A hA
      obtain ⟨i, -, rfl⟩ := List.mem_map.1 hA
      exact hle i i (Nat.le_refl i)

end Sheet

end Spreadsheet
