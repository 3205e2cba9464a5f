import Spreadsheet.Proofs.Graph.Reads
import Spreadsheet.Proofs.History

/-! Graphs by the steps that they are made in. The two tables of a graph mirror each other after every
step, and hold what the steps since the last build have put there. -/
namespace Spreadsheet.Graph

/-- A step in which a graph is made. -/
inductive Step where
  /-- Puts the graph of formulas in the place of what there is. -/
  | build (formulas : List (Address × Expr))
  | addCell (cell : Address)
  | addDependency (precedent dependent : Address)

namespace Step

def apply (g : Graph) : Step → Graph
  | build formulas => ofFormulas formulas
  | addCell cell => g.addCell cell
  | addDependency precedent dependent => g.addDependency precedent dependent

def isBuild : Step → Bool
  | build _ => true
  | _ => false

/-- Whether the step is about a cell as a node: as one with a formula, as itself, or as a dependent. -/
inductive Adds : Step → Address → Prop where
  | formula {l : List (Address × Expr)} {cell : Address} {e : Expr} (h : (cell, e) ∈ l) :
      Adds (build l) cell
  | cell (cell : Address) : Adds (addCell cell) cell
  | dependent (precedent dependent : Address) : Adds (addDependency precedent dependent) dependent

/-- Whether the step lets one cell read another. -/
inductive Links : Step → Address → Address → Prop where
  | formula {l : List (Address × Expr)} {cell precedent : Address} {e : Expr} (h : (cell, e) ∈ l)
      (hp : precedent ∈ e.leaves) : Links (build l) cell precedent
  | dependency (precedent dependent : Address) :
      Links (addDependency precedent dependent) dependent precedent

variable {g : Graph} {cell precedent : Address}

theorem adds_build_iff {l : List (Address × Expr)} :
    (build l).Adds cell ↔ ∃ e, (cell, e) ∈ l := by
  constructor
  · rintro ⟨h⟩
    exact ⟨_, h⟩
  · rintro ⟨e, h⟩
    exact .formula h

theorem links_build_iff {l : List (Address × Expr)} :
    (build l).Links cell precedent ↔ ∃ e, (cell, e) ∈ l ∧ precedent ∈ e.leaves := by
  constructor
  · rintro ⟨h, hp⟩
    exact ⟨_, h, hp⟩
  · rintro ⟨e, h, hp⟩
    exact .formula h hp

/-- The nodes after a step. -/
theorem mem_cells_apply (g : Graph) (step : Step) :
    cell ∈ (step.apply g).cells ↔ step.Adds cell ∨ step.isBuild = false ∧ cell ∈ g.cells := by
  cases step with
  | build l => simp [apply, isBuild, adds_build_iff, mem_cells_ofFormulas]
  | addCell new =>
    have hadds : (addCell new).Adds cell ↔ new = cell :=
      ⟨fun h => by cases h; rfl, fun h => h ▸ .cell new⟩
    simp [apply, isBuild, hadds]
  | addDependency p d =>
    have hadds : (addDependency p d).Adds cell ↔ d = cell :=
      ⟨fun h => by cases h; rfl, fun h => h ▸ .dependent p d⟩
    simp [apply, isBuild, hadds]

/-- Which cell reads which after a step. -/
theorem reads_apply (g : Graph) (step : Step) : (step.apply g).Reads cell precedent ↔
    step.Links cell precedent ∨ step.isBuild = false ∧ g.Reads cell precedent := by
  cases step with
  | build l => simp [apply, isBuild, links_build_iff, reads_ofFormulas]
  | addCell new =>
    have hlinks : ¬ (addCell new).Links cell precedent := nofun
    simp [apply, isBuild, hlinks]
  | addDependency p d =>
    have hlinks : (addDependency p d).Links cell precedent ↔ d = cell ∧ p = precedent :=
      ⟨fun h => by cases h; exact ⟨rfl, rfl⟩, fun h => h.1 ▸ h.2 ▸ .dependency p d⟩
    simp [apply, isBuild, hlinks]

theorem buildable_apply (h : g.Buildable) (step : Step) : (step.apply g).Buildable := by
  cases step with
  | build l => exact .ofFormulas l
  | addCell cell => exact .addCell cell h
  | addDependency p d => exact .addDependency p d h

end Step

/-- The graph that steps lead to from nothing. -/
def ofSteps (steps : List Step) : Graph := steps.foldl Step.apply ∅

/-- Whether one of the steps that no build comes after has a property. -/
def Lasts (steps : List Step) (P : Step → Prop) : Prop :=
  ∃ before step after, steps = before ++ step :: after ∧ (∀ s ∈ after, s.isBuild = false) ∧ P step

variable {steps : List Step} {P : Step → Prop} {cell precedent : Address}

theorem ofSteps_append (steps : List Step) (step : Step) :
    ofSteps (steps ++ [step]) = step.apply (ofSteps steps) := by
  rw [ofSteps, List.foldl_append]
  rfl

theorem not_lasts_nil : ¬ Lasts [] P := not_exists_followed_nil

/-- The last step lasts, and so do those before it unless it is a build. -/
theorem lasts_append_iff {step : Step} :
    Lasts (steps ++ [step]) P ↔ P step ∨ step.isBuild = false ∧ Lasts steps P :=
  exists_followed_append_iff

theorem mem_cells_ofSteps : cell ∈ (ofSteps steps).cells ↔ Lasts steps (·.Adds cell) := by
  induction steps using List.reverseRecOn with
  | nil => simp [ofSteps, not_lasts_nil]
  | append_singleton steps step ih =>
    rw [ofSteps_append, Step.mem_cells_apply, lasts_append_iff, ih]

theorem reads_ofSteps :
    (ofSteps steps).Reads cell precedent ↔ Lasts steps (·.Links cell precedent) := by
  induction steps using List.reverseRecOn with
  | nil => simp [ofSteps, not_lasts_nil]
  | append_singleton steps step ih =>
    rw [ofSteps_append, Step.reads_apply, lasts_append_iff, ih]

theorem buildable_ofSteps (steps : List Step) : (ofSteps steps).Buildable :=
  List.foldlRecOn _ _ (.ofFormulas []) fun _ hg step _ => Step.buildable_apply hg step

/-- After any steps the two tables mirror each other. The nodes are the cells that the steps add, and
the reads those that the steps link, both since the last build; a cell that is only read is no node,
and its dependents are listed all the same. Right after a build a cell reads what its formulas refer to
and nothing else. -/
theorem mirrored_ofSteps (steps : List Step) :
    let g := ofSteps steps
    (∀ cell precedent, precedent ∈ g.precedentsOf cell ↔ cell ∈ g.dependentsOf precedent) ∧
      (∀ cell, g.contains cell ↔ Lasts steps (·.Adds cell)) ∧
      (∀ cell precedent, precedent ∈ g.precedentsOf cell ↔ Lasts steps (·.Links cell precedent)) ∧
      (∀ precedent, ¬ Lasts steps (·.Adds precedent) → g.contains precedent = false ∧
        ∀ cell, cell ∈ g.dependentsOf precedent ↔ Lasts steps (·.Links cell precedent)) ∧
      ∀ l cell precedent, precedent ∈ (ofSteps (steps ++ [.build l])).precedentsOf cell ↔
        ∃ e, (cell, e) ∈ l ∧ precedent ∈ e.leaves := by
  intro g
  have hmirrored : g.Mirrored := (buildable_ofSteps steps).mirrored
  have hnodes : ∀ cell, g.contains cell ↔ Lasts steps (·.Adds cell) := fun cell => by
    rw [← mem_cells_ofSteps, mem_cells]
    exact Std.ExtTreeMap.contains_iff_mem
  refine ⟨fun cell precedent => (hmirrored cell precedent).symm, hnodes,
    fun cell precedent => reads_ofSteps, fun precedent hnone => ?_, fun l cell precedent => ?_⟩
  · constructor
    · exact Bool.eq_false_iff.2 (mt (hnodes precedent).1 hnone)
    · intro cell
      exact (hmirrored cell precedent).trans reads_ofSteps
  · rw [ofSteps_append]
    show (ofFormulas l).Reads cell precedent ↔ _
    simp only [reads_ofFormulas, Expr.mem_references]

end Spreadsheet.Graph
