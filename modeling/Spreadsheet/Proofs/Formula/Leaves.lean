import Spreadsheet.Proofs.Recalculate.Batches

/-! The cells that a formula refers to. The search for them visits every node of the tree once, and
nothing but their outcomes has a part in the outcome of the formula. -/
namespace Spreadsheet.Expr

/-- One round of the search: takes the first pending formula away and puts its operands in its place. -/
def visit : AddressSet × List Expr → AddressSet × List Expr
  | (found, []) => (found, [])
  | (found, literal _ :: pending) => (found, pending)
  | (found, reference cell :: pending) => (found.insert cell, pending)
  | (found, unary _ operand :: pending) => (found, operand :: pending)
  | (found, binary _ left right :: pending) => (found, left :: right :: pending)

/-- The number of nodes that are still to be visited. -/
def nodes (pending : List Expr) : Nat := (pending.map size).sum

theorem size_pos (e : Expr) : 0 < e.size := by
  cases e <;> exact Nat.succ_pos _

theorem nodes_eq_zero_iff {pending : List Expr} : nodes pending = 0 ↔ pending = [] := by
  cases pending with
  | nil => simp [nodes]
  | cons e pending =>
    have he := e.size_pos
    simp [nodes]
    omega

/-- A round visits one node. -/
theorem nodes_visit (s : AddressSet × List Expr) : nodes (visit s).2 = nodes s.2 - 1 := by
  obtain ⟨found, _ | ⟨e, pending⟩⟩ := s
  · rfl
  · cases e with
    | literal x | reference cell | unary op operand | binary op left right =>
      simp only [visit, nodes, List.map_cons, List.sum_cons, size]
      omega

theorem nodes_iterate_visit (s : AddressSet × List Expr) (rounds : Nat) :
    nodes (visit^[rounds] s).2 = nodes s.2 - rounds := by
  induction rounds with
  | zero => rfl
  | succ rounds ih => rw [Function.iterate_succ_apply', nodes_visit, ih, Nat.sub_sub]

/-- A round takes nothing away from what is found in the end. -/
theorem collect_visit (s : AddressSet × List Expr) :
    collect (visit s).1 (visit s).2 = collect s.1 s.2 := by
  obtain ⟨found, _ | ⟨e, pending⟩⟩ := s
  · rfl
  · cases e with
    | literal x | reference cell | unary op operand | binary op left right =>
      simp only [visit, collect]

theorem collect_iterate_visit (s : AddressSet × List Expr) (rounds : Nat) :
    collect (visit^[rounds] s).1 (visit^[rounds] s).2 = collect s.1 s.2 := by
  induction rounds with
  | zero => rfl
  | succ rounds ih => rw [Function.iterate_succ_apply', collect_visit, ih]

/-- The search ends in the round in which the last node is visited. -/
theorem iterate_visit_eq (found : AddressSet) (pending : List Expr) :
    visit^[nodes pending] (found, pending) = (collect found pending, []) := by
  have hnodes := nodes_iterate_visit (found, pending) (nodes pending)
  rw [Nat.sub_self, nodes_eq_zero_iff] at hnodes
  have hfound := collect_iterate_visit (found, pending) (nodes pending)
  rw [hnodes, collect] at hfound
  exact Prod.ext hfound hnodes

/-- The search for the cells of a formula ends after as many rounds as the formula has nodes, and finds
the cells that stand at its leaves. Where these have the same outcomes the formula comes to the same,
and so it does where those cells have them that the graph of the formulas has a cell read. -/
theorem evaluate_eq_of_references (e : Expr) :
    (∀ rounds, (visit^[rounds] (∅, [e])).2 = [] ↔ e.size ≤ rounds) ∧
      visit^[e.size] (∅, [e]) = (e.references, []) ∧
      (∀ cell, cell ∈ e.references ↔ cell ∈ e.leaves) ∧
      (∀ known known' : Address → Option Outcome,
        (∀ cell ∈ e.references, known cell = known' cell) →
          e.evaluate known = e.evaluate known') ∧
      ∀ formulas cell, (cell, e) ∈ formulas → ∀ known known' : Address → Option Outcome,
        (∀ p ∈ (Graph.ofFormulas formulas).precedentsOf cell, known p = known' p) →
          e.evaluate known = e.evaluate known' := by
  have hsize : nodes [e] = e.size := Nat.add_zero e.size
  refine ⟨fun rounds => ?_, ?_, fun cell => mem_references, fun known known' h => ?_,
    fun formulas cell he known known' h => ?_⟩
  · rw [← nodes_eq_zero_iff, nodes_iterate_visit, hsize, Nat.sub_eq_zero_iff_le]
  · rw [← hsize, iterate_visit_eq, references]
  · apply evaluate_congr
    intro cell hcell
    exact h cell (mem_references.2 hcell)
  · apply evaluate_congr
    intro p hp
    have hreads : (Graph.ofFormulas formulas).Reads cell p :=
      Graph.reads_ofFormulas.2 ⟨e, he, mem_references.2 hp⟩
    exact h p hreads

/-- The outcome of a cell that `A1/B1` does not refer to makes no difference. -/
theorem evaluate_eq_of_references_of_quotient :
    let e := binary .divide (reference ⟨0, 0⟩) (reference ⟨0, 1⟩)
    let o := (∅ : Outcomes).record ⟨0, 0⟩ (.error .divisionByZero)
    let o' := o.record ⟨0, 2⟩ (.ok 0)
    o.get? ⟨0, 2⟩ ≠ o'.get? ⟨0, 2⟩ ∧ e.evaluate o.get? = e.evaluate o'.get? := by
  intro e o o'
  obtain ⟨-, -, hreferences, hevaluate, -⟩ := evaluate_eq_of_references e
  constructor
  · rw [Outcomes.get?_record, Outcomes.get?_record]
    simp
  · apply hevaluate
    intro cell hcell
    have hne : cell ≠ ⟨0, 2⟩ := by
      rintro rfl
      exact absurd ((hreferences _).1 hcell) (by decide)
    have hrecord : o'.get? cell = (o.get? cell).or (if cell = ⟨0, 2⟩ then some (.ok 0) else none) :=
      Outcomes.get?_record
    rw [hrecord, if_neg hne, Option.or_none]

end Spreadsheet.Expr
