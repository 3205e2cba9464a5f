import Spreadsheet.Proofs.Graph.LowLink

/-! A schedule sets apart exactly the cells on cycles and puts every other node after the nodes
that it reads. -/
namespace Spreadsheet.Graph
open Relation Walk

variable {g : Graph}

section Search

theorem looks_search (g : Graph) : Looks g.precedentsOf (start g.nodes) g.cells g.search :=
  looks_foldl_visit (fun _ => Std.ExtTreeSet.not_mem_empty) g.cells

theorem finished_search (g : Graph) :
    g.search.finished.Nodup ∧ ∀ c, c ∈ g.search.finished ↔ c ∈ g.cells := by
  obtain ⟨l, hf, hd, hm⟩ := g.looks_search.finished_eq
  rw [hf, start, List.append_nil]
  refine ⟨hd, fun c => (hm c).trans ⟨fun h => mem_nodes.1 h.1, fun h => ⟨mem_nodes.2 h, ?_⟩⟩⟩
  exact g.looks_search.not_mem_unseen h

theorem sealed_search (g : Graph) : Sealed g.precedentsOf g.search.finished :=
  g.looks_search.sealed (by simp [start]) trivial

end Search

section Links

theorem sound_linkSearch (g : Graph) : LinkWalk.Sound g g.search g.linkSearch [] :=
  (LinkWalk.sound_start g).foldl_visit g.cells

theorem past_linkSearch (g : Graph) (c : Address) : g.linkSearch.Past c := by
  have h := g.sound_linkSearch
  constructor
  · intro hc
    have hcell := (h.consistent.of_mem_unseen c hc).1
    rw [← h.unseen_eq] at hc
    exact g.looks_search.not_mem_unseen hcell hc
  · have hstack : g.linkSearch.stack = [] := h.spans
    rw [hstack]
    exact List.not_mem_nil

end Links

theorem mem_cycles {c : Address} : c ∈ g.schedule.cycles ↔ g.OnCycle c :=
  (g.sound_linkSearch.consistent.mem_cycles c).trans (and_iff_right (past_linkSearch g c))

/-- The order is that in which a plain walk leaves the cells, without those on cycles. -/
theorem order_schedule (g : Graph) :
    g.schedule.order = g.search.finished.reverse.filter (· ∉ g.schedule.cycles) := by
  have h : g.linkSearch.order = g.search.finished.filter (· ∉ g.schedule.cycles) := by
    rw [g.sound_linkSearch.order_eq]
    exact List.filter_congr fun c _ => decide_eq_decide.2 (not_congr mem_cycles.symm)
  show g.linkSearch.order.reverse = _
  rw [h, List.filter_reverse]

theorem nodup_order (g : Graph) : g.schedule.order.Nodup := by
  rw [order_schedule]
  exact List.Pairwise.filter _ (List.nodup_reverse.2 g.finished_search.1)

theorem mem_order {c : Address} : c ∈ g.schedule.order ↔ c ∈ g.cells ∧ ¬ g.OnCycle c := by
  rw [order_schedule, ← mem_cycles]
  simp [g.finished_search.2]

/-- No cell of the order reads a later one. -/
theorem pairwise_order (g : Graph) : g.schedule.order.Pairwise fun a b => ¬ g.Reads a b := by
  have h := g.sealed_search.pairwise
  rw [← List.pairwise_reverse] at h
  have hfilter := List.Pairwise.filter (decide <| · ∉ g.schedule.cycles) h
  rw [← order_schedule] at hfilter
  refine hfilter.imp_of_mem fun {a b} ha _ hba hab => ?_
  have ha := (mem_order.1 ha).2
  exact ha (.head' hab (hba hab))

theorem idxOf_lt_of_pairwise {R : Address → Address → Prop} {l : List Address} {a b : Address}
    (h : l.Pairwise fun a b => ¬ R a b) (ha : a ∈ l) (hb : b ∈ l) (hne : a ≠ b) (hab : R a b) :
    l.idxOf b < l.idxOf a := by
  by_contra hlt
  have hidx : l.idxOf a ≠ l.idxOf b := fun h => hne ((List.idxOf_inj ha).1 h)
  have hn := List.pairwise_iff_getElem.1 h _ _ (List.idxOf_lt_length_of_mem ha)
    (List.idxOf_lt_length_of_mem hb) (by omega)
  rw [List.getElem_idxOf, List.getElem_idxOf] at hn
  exact hn hab

theorem idxOf_order_lt {c p : Address} (hc : c ∈ g.schedule.order)
    (hp : p ∈ g.schedule.order) (hcp : g.Reads c p) :
    g.schedule.order.idxOf p < g.schedule.order.idxOf c := by
  have hne : c ≠ p := fun h => (mem_order.1 hc).2 (.single (h ▸ hcp))
  exact idxOf_lt_of_pairwise g.pairwise_order hc hp hne hcp

/-- The cells that reach themselves are set apart, and every other node is listed once, after the
listed nodes that it reads. -/
theorem schedule_cycles_and_order (g : Graph) :
    (∀ c, c ∈ g.schedule.cycles ↔ g.OnCycle c) ∧
      g.schedule.order.Nodup ∧
      (∀ c, c ∈ g.schedule.order ↔ c ∈ g.cells ∧ c ∉ g.schedule.cycles) ∧
      ∀ c p, c ∈ g.schedule.order → p ∈ g.schedule.order → g.Reads c p →
        g.schedule.order.idxOf p < g.schedule.order.idxOf c := by
  refine ⟨fun c => mem_cycles, g.nodup_order, fun c => ?_, fun c p => idxOf_order_lt⟩
  rw [mem_order, mem_cycles]

/-- A cycle may close through a cell that was left before: `C1` lies on `A1`, `C1`, `B1`. -/
theorem schedule_cycles_and_order_of_knot :
    let g := ofFormulas
      [(⟨0, 0⟩, .binary .add (.reference ⟨0, 1⟩) (.reference ⟨0, 2⟩)),
       (⟨0, 1⟩, .reference ⟨0, 0⟩), (⟨0, 2⟩, .reference ⟨0, 1⟩),
       (⟨0, 3⟩, .binary .add (.reference ⟨0, 2⟩) (.reference ⟨0, 4⟩)), (⟨0, 4⟩, .literal 5)]
    g.Buildable ∧ ⟨0, 2⟩ ∈ g.schedule.cycles ∧ ⟨0, 3⟩ ∉ g.schedule.cycles ∧
      g.schedule.order.idxOf ⟨0, 4⟩ < g.schedule.order.idxOf ⟨0, 3⟩ := by
  intro g
  have hb : g.Buildable := .ofFormulas _
  have hab : g.Reads ⟨0, 0⟩ ⟨0, 2⟩ := by simp [g, reads_ofFormulas, Expr.leaves]
  have hba : g.Reads ⟨0, 1⟩ ⟨0, 0⟩ := by simp [g, reads_ofFormulas, Expr.leaves]
  have hcb : g.Reads ⟨0, 2⟩ ⟨0, 1⟩ := by simp [g, reads_ofFormulas, Expr.leaves]
  have hde : g.Reads ⟨0, 3⟩ ⟨0, 4⟩ := by simp [g, reads_ofFormulas, Expr.leaves]
  have hd : ∀ c, ¬ g.Reads c ⟨0, 3⟩ := by
    intro c h
    obtain ⟨e, he, hl⟩ := reads_ofFormulas.1 h
    simp only [List.mem_cons, Prod.mk.injEq, List.not_mem_nil, or_false] at he
    obtain ⟨-, rfl⟩ | ⟨-, rfl⟩ | ⟨-, rfl⟩ | ⟨-, rfl⟩ | ⟨-, rfl⟩ := he <;>
      simp [Expr.leaves] at hl
  have he : ∀ p, ¬ g.Reads ⟨0, 4⟩ p := by simp [g, reads_ofFormulas, Expr.leaves]
  obtain ⟨hcycles, -, horder, hbefore⟩ := schedule_cycles_and_order g
  have hd' : ⟨0, 3⟩ ∉ g.schedule.cycles := fun h => by
    obtain ⟨c, -, hc⟩ := TransGen.tail'_iff.1 ((hcycles _).1 h)
    exact hd c hc
  have he' : ⟨0, 4⟩ ∉ g.schedule.cycles := fun h => by
    obtain ⟨p, hp, -⟩ := TransGen.head'_iff.1 ((hcycles _).1 h)
    exact he p hp
  refine ⟨hb, (hcycles _).2 (.head hcb (.head hba (.single hab))), hd', hbefore _ _ ?_ ?_ hde⟩
  · exact (horder _).2 ⟨hde.mem_cells, hd'⟩
  · exact (horder _).2 ⟨by simp [g, mem_cells_ofFormulas], he'⟩

end Spreadsheet.Graph
