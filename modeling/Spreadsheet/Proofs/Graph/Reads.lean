import Mathlib
import Spreadsheet.Graph.Schedule

/-! Which cell reads which, and that the two tables of a graph agree on it. -/
namespace Spreadsheet

/-- What is collected is what was found before and what the pending formulas read. -/
theorem Expr.mem_collect {found : AddressSet} {pending : List Expr} {cell : Address} :
    cell ∈ collect found pending ↔ cell ∈ found ∨ ∃ e ∈ pending, cell ∈ e.leaves := by
  fun_induction collect found pending with
  | case1 found => simp
  | case2 found x pending ih => simp [ih, leaves]
  | case3 found precedent pending ih =>
    simp only [ih, Std.ExtTreeSet.mem_insert, Std.compare_eq_iff_eq, List.exists_mem_cons_iff, leaves,
      List.mem_singleton, ← or_assoc]
    rw [eq_comm, or_comm (a := cell = precedent)]
  | case4 found op operand pending ih => simp [ih, leaves]
  | case5 found op left right pending ih =>
    simp only [ih, List.exists_mem_cons_iff, leaves, List.mem_append, or_assoc]

@[simp] theorem Expr.mem_references {e : Expr} {cell : Address} :
    cell ∈ e.references ↔ cell ∈ e.leaves := by
  rw [references, mem_collect]
  simp

namespace Graph

open Relation

/-- Whether `cell` reads `precedent`. -/
def Reads (g : Graph) (cell precedent : Address) : Prop := precedent ∈ g.precedentsOf cell

/-- Whether a chain of one or more reads leads from a cell back to it. -/
def OnCycle (g : Graph) (cell : Address) : Prop := TransGen g.Reads cell cell

/-- The graphs that building and adding lead to. -/
inductive Buildable : Graph → Prop where
  | ofFormulas (l : List (Address × Expr)) : Buildable (ofFormulas l)
  | addCell {g : Graph} (cell : Address) : Buildable g → Buildable (g.addCell cell)
  | addDependency {g : Graph} (precedent dependent : Address) :
      Buildable g → Buildable (g.addDependency precedent dependent)

/-- Whether both tables hold the same pairs of cells. -/
def Mirrored (g : Graph) : Prop :=
  ∀ cell precedent, cell ∈ g.dependentsOf precedent ↔ g.Reads cell precedent

theorem mem_precedentsOf {g : Graph} {cell precedent : Address} :
    precedent ∈ g.precedentsOf cell ↔ precedent ∈ g.precedents.getD cell ∅ :=
  Std.ExtTreeSet.mem_toList

theorem mem_dependentsOf {g : Graph} {cell precedent : Address} :
    cell ∈ g.dependentsOf precedent ↔ cell ∈ g.dependents.getD precedent ∅ :=
  Std.ExtTreeSet.mem_toList

theorem mem_cells {g : Graph} {cell : Address} : cell ∈ g.cells ↔ cell ∈ g.precedents :=
  Std.ExtTreeMap.mem_keys

@[simp] theorem cells_empty : (∅ : Graph).cells = [] := rfl

@[simp] theorem mem_nodes {g : Graph} {cell : Address} : cell ∈ g.nodes ↔ cell ∈ g.cells := by
  simp [nodes, Std.ExtTreeSet.mem_ofList]

/-- A cell that reads another one is a node. -/
theorem Reads.mem_cells {g : Graph} {cell precedent : Address} (h : g.Reads cell precedent) :
    cell ∈ g.cells := by
  rw [Graph.mem_cells]
  by_contra hc
  rw [Reads, mem_precedentsOf, Std.ExtTreeMap.getD_eq_fallback hc] at h
  exact Std.ExtTreeSet.not_mem_empty h

theorem OnCycle.mem_cells {g : Graph} {cell : Address} (h : g.OnCycle cell) : cell ∈ g.cells := by
  obtain ⟨p, hp, -⟩ := TransGen.head'_iff.1 h
  exact hp.mem_cells

@[simp] theorem not_reads_empty (cell precedent : Address) : ¬ (∅ : Graph).Reads cell precedent :=
  Std.ExtTreeSet.not_mem_empty ∘ mem_precedentsOf.1

theorem mem_getD_addTo {m : AddressMap AddressSet} {key cell k c : Address} :
    c ∈ (addTo m key cell).getD k ∅ ↔ key = k ∧ cell = c ∨ c ∈ m.getD k ∅ := by
  rw [addTo, Std.ExtTreeMap.getD_alter]
  split
  · rename_i h
    have h := Std.compare_eq_iff_eq.1 h
    subst h
    simp [Std.ExtTreeSet.mem_insert, Std.ExtTreeMap.getD_eq_getD_getElem?]
  · rename_i h
    have h : key ≠ k := fun hk => h (Std.compare_eq_iff_eq.2 hk)
    simp [h]

@[simp] theorem reads_addCell {g : Graph} {new cell precedent : Address} :
    (g.addCell new).Reads cell precedent ↔ g.Reads cell precedent := by
  simp only [Reads, mem_precedentsOf, addCell, Std.ExtTreeMap.getD_insertIfNew]
  split
  · rename_i h
    have h' : cell ∉ g.precedents := by
      rw [← Std.compare_eq_iff_eq.1 h.1]
      exact h.2
    rw [Std.ExtTreeMap.getD_eq_fallback h']
  · rfl

@[simp] theorem reads_addDependency {g : Graph} {p d cell precedent : Address} :
    (g.addDependency p d).Reads cell precedent ↔
      d = cell ∧ p = precedent ∨ g.Reads cell precedent := by
  simp only [Reads, mem_precedentsOf]
  exact mem_getD_addTo

@[simp] theorem mem_cells_addCell {g : Graph} {new cell : Address} :
    cell ∈ (g.addCell new).cells ↔ new = cell ∨ cell ∈ g.cells := by
  simp [mem_cells, addCell]

@[simp] theorem mem_cells_addDependency {g : Graph} {p d cell : Address} :
    cell ∈ (g.addDependency p d).cells ↔ d = cell ∨ cell ∈ g.cells := by
  simp only [mem_cells, addDependency, addTo, Std.ExtTreeMap.mem_alter, Option.isSome_some]
  split
  · rename_i h
    simp [Std.compare_eq_iff_eq.1 h]
  · rename_i h
    have h : d ≠ cell := fun hd => h (Std.compare_eq_iff_eq.2 hd)
    simp [h]

theorem reads_addFormula {g : Graph} {new cell precedent : Address} {e : Expr} :
    (g.addFormula new e).Reads cell precedent ↔
      new = cell ∧ precedent ∈ e.references ∨ g.Reads cell precedent := by
  rw [← Std.ExtTreeSet.mem_toList, addFormula, ← @reads_addCell g new]
  generalize g.addCell new = g
  induction e.references.toList generalizing g with
  | nil => simp
  | cons p ps ih =>
    rw [List.foldl_cons, ih, reads_addDependency, List.mem_cons]
    grind

theorem mem_cells_addFormula {g : Graph} {new cell : Address} {e : Expr} :
    cell ∈ (g.addFormula new e).cells ↔ new = cell ∨ cell ∈ g.cells := by
  rw [addFormula, ← mem_cells_addCell]
  have hn : new ∈ (g.addCell new).cells := by simp
  generalize g.addCell new = g at hn ⊢
  induction e.references.toList generalizing g with
  | nil => rfl
  | cons p ps ih =>
    have hp : new ∈ (g.addDependency p new).cells := by simp
    refine (ih _ hp).trans ?_
    rw [mem_cells_addDependency]
    grind

/-- A cell reads the references of every formula given for it. -/
theorem reads_ofFormulas {l : List (Address × Expr)} {cell precedent : Address} :
    (ofFormulas l).Reads cell precedent ↔ ∃ e, (cell, e) ∈ l ∧ precedent ∈ e.references := by
  have h : ∀ g : Graph, (l.foldl (fun g x => g.addFormula x.1 x.2) g).Reads cell precedent ↔
      (∃ e, (cell, e) ∈ l ∧ precedent ∈ e.references) ∨ g.Reads cell precedent := by
    induction l with
    | nil => simp
    | cons x l ih =>
      intro g
      rw [List.foldl_cons, ih, reads_addFormula]
      grind
  exact (h ∅).trans (by simp)

/-- The cells with a formula are the nodes. -/
theorem mem_cells_ofFormulas {l : List (Address × Expr)} {cell : Address} :
    cell ∈ (ofFormulas l).cells ↔ ∃ e, (cell, e) ∈ l := by
  have h : ∀ g : Graph, cell ∈ (l.foldl (fun g x => g.addFormula x.1 x.2) g).cells ↔
      (∃ e, (cell, e) ∈ l) ∨ cell ∈ g.cells := by
    induction l with
    | nil => simp
    | cons x l ih =>
      intro g
      rw [List.foldl_cons, ih, mem_cells_addFormula]
      grind
  exact (h ∅).trans (by simp)

theorem mirrored_empty : (∅ : Graph).Mirrored := by
  intro cell precedent
  simp only [not_reads_empty, iff_false, mem_dependentsOf]
  exact Std.ExtTreeSet.not_mem_empty

theorem Mirrored.addCell {g : Graph} (h : g.Mirrored) (new : Address) :
    (g.addCell new).Mirrored := by
  intro cell precedent
  rw [reads_addCell]
  exact h cell precedent

theorem Mirrored.addDependency {g : Graph} (h : g.Mirrored) (p d : Address) :
    (g.addDependency p d).Mirrored := by
  intro cell precedent
  have hd : cell ∈ (g.addDependency p d).dependentsOf precedent ↔
      p = precedent ∧ d = cell ∨ cell ∈ g.dependentsOf precedent := by
    simp only [mem_dependentsOf]
    exact mem_getD_addTo
  rw [hd, reads_addDependency, h cell precedent, and_comm]

theorem Mirrored.addFormula {g : Graph} (h : g.Mirrored) (cell : Address) (e : Expr) :
    (g.addFormula cell e).Mirrored :=
  List.foldlRecOn _ _ (h.addCell cell) fun _ hg p _ => hg.addDependency p cell

theorem mirrored_ofFormulas (l : List (Address × Expr)) : (ofFormulas l).Mirrored :=
  List.foldlRecOn _ _ mirrored_empty fun _ hg x _ => hg.addFormula x.1 x.2

theorem Buildable.mirrored {g : Graph} (h : g.Buildable) : g.Mirrored := by
  induction h with
  | ofFormulas l => exact mirrored_ofFormulas l
  | addCell cell _ ih => exact ih.addCell cell
  | addDependency precedent dependent _ ih => exact ih.addDependency precedent dependent

/-- Whether two cells reach each other. -/
def Mutual (g : Graph) (a b : Address) : Prop :=
  ReflTransGen g.Reads a b ∧ ReflTransGen g.Reads b a

section Mutual

variable {g : Graph} {a b c : Address}

theorem Mutual.symm (h : g.Mutual a b) : g.Mutual b a := ⟨h.2, h.1⟩

theorem Mutual.trans (h : g.Mutual a b) (h' : g.Mutual b c) : g.Mutual a c :=
  ⟨h.1.trans h'.1, h'.2.trans h.2⟩

/-- A cell is on a cycle if it reads itself or another cell leads back to it. -/
theorem onCycle_iff : g.OnCycle a ↔ g.Reads a a ∨ ∃ b, b ≠ a ∧ g.Mutual a b := by
  constructor
  · intro h
    obtain ⟨b, hab, hba⟩ := TransGen.head'_iff.1 h
    by_cases hb : b = a
    · exact .inl (hb ▸ hab)
    · exact .inr ⟨b, hb, .single hab, hba⟩
  · rintro (h | ⟨b, hb, hab, hba⟩)
    · exact .single h
    · rcases ReflTransGen.cases_head hab with rfl | ⟨c, hac, hcb⟩
      · exact absurd rfl hb
      · exact .head' hac (hcb.trans hba)

theorem Mutual.onCycle_iff (h : g.Mutual a b) : g.OnCycle a ↔ g.OnCycle b := by
  have himp : ∀ {a b}, g.Mutual a b → g.OnCycle a → g.OnCycle b := fun h hc =>
    (TransGen.trans_right h.2 hc).trans_left h.1
  exact ⟨himp h, himp h.symm⟩

end Mutual

end Graph

end Spreadsheet
