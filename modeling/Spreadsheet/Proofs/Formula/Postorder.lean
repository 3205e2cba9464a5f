import Spreadsheet.Proofs.Except
import Spreadsheet.Proofs.Formula.Failure
import Spreadsheet.Proofs.Number.Sign

/-! The first node that fails, with operands before their operator and left before right. A formula
fails as this node does, and comes to a number if there is none. -/
namespace Spreadsheet.Expr

/-- The nodes of a formula, each behind the nodes of its operands. -/
def postorder : Expr → List Expr
  | literal x => [literal x]
  | reference cell => [reference cell]
  | unary op operand => operand.postorder ++ [unary op operand]
  | binary op left right => left.postorder ++ right.postorder ++ [binary op left right]

/-- How a node fails, if not one of its operands does. -/
def failure? (known : Address → Option Outcome) : Expr → Option FormulaError
  | reference cell =>
    match known cell with
    | none => some (.undefinedReference cell)
    | some (.error _) => some (.dependencyFailed cell)
    | some (.ok _) => none
  | binary .divide _ right =>
    match right.evaluate known with
    | .error _ => none
    | .ok y => if Number.magnitude y = 0 then some .divisionByZero else none
  | _ => none

variable {known : Address → Option Outcome} {e left right : Expr} {cell : Address}

theorem failure?_reference_eq_none_iff :
    (reference cell).failure? known = none ↔ ∃ x, known cell = some (.ok x) := by
  rw [failure?]
  split <;> simp_all

theorem failure?_divide_eq_none_iff : (binary .divide left right).failure? known = none ↔
    ∀ y, right.evaluate known = .ok y → Number.magnitude y ≠ 0 := by
  rw [failure?]
  split <;> simp_all

theorem reference_mem_postorder : reference cell ∈ e.postorder ↔ cell ∈ e.leaves := by
  induction e with
  | literal x => simp [postorder, leaves]
  | reference p => simp [postorder, leaves]
  | unary op operand ih => simp [postorder, leaves, ih]
  | binary op left right ihl ihr => simp [postorder, leaves, ihl, ihr]

/-- How the first node fails that does. -/
def firstFailure? (known : Address → Option Outcome) (e : Expr) : Option FormulaError :=
  e.postorder.findSome? (failure? known)

theorem firstFailure?_unary (op : UnaryOp) :
    (unary op e).firstFailure? known = e.firstFailure? known := by
  have hnode : (unary op e).failure? known = none := rfl
  rw [firstFailure?, postorder, List.findSome?_append, List.findSome?_singleton, hnode, Option.or_none]
  rfl

theorem firstFailure?_binary (op : BinaryOp) : (binary op left right).firstFailure? known =
    ((left.firstFailure? known).or (right.firstFailure? known)).or
      ((binary op left right).failure? known) := by
  rw [firstFailure?, postorder, List.findSome?_append, List.findSome?_append, List.findSome?_singleton]
  rfl

/-- An operator whose right operand comes to a number fails as its application to it does. -/
theorem failure?_binary (op : BinaryOp) {y : Float} (hy : right.evaluate known = .ok y) (x : Float) :
    (binary op left right).failure? known = error? (op.apply x y) := by
  cases op with
  | add | subtract | multiply => rfl
  | divide =>
    rw [failure?, hy, BinaryOp.apply]
    simp only [← Number.beq_zero_iff]
    split <;> rfl

/-- A formula fails as the first node that does. -/
theorem error?_evaluate (known : Address → Option Outcome) (e : Expr) :
    error? (e.evaluate known) = e.firstFailure? known := by
  induction e with
  | literal x => rfl
  | reference cell =>
    rw [firstFailure?, postorder, List.findSome?_singleton, failure?, evaluate]
    cases known cell with
    | none => rfl
    | some outcome => cases outcome <;> rfl
  | unary op operand ih =>
    rw [firstFailure?_unary, ← ih, evaluate]
    cases operand.evaluate known <;> rfl
  | binary op left right ihl ihr =>
    rw [firstFailure?_binary, ← ihl, ← ihr, evaluate]
    cases left.evaluate known with
    | error fault => rfl
    | ok x =>
      cases hy : right.evaluate known with
      | error fault => rfl
      | ok y => exact (failure?_binary op hy x).symm

theorem firstFailure?_eq_none_iff : e.firstFailure? known = none ↔
    (∀ cell ∈ e.leaves, ∃ x, known cell = some (.ok x)) ∧
      ∀ left right, binary .divide left right ∈ e.postorder →
        ∀ y, right.evaluate known = .ok y → Number.magnitude y ≠ 0 := by
  rw [firstFailure?, List.findSome?_eq_none_iff]
  constructor
  · intro h
    constructor
    · intro cell hcell
      exact failure?_reference_eq_none_iff.1 (h _ (reference_mem_postorder.2 hcell))
    · intro left right hnode
      exact failure?_divide_eq_none_iff.1 (h _ hnode)
  · intro h node hnode
    cases node with
    | literal x => rfl
    | reference cell =>
      exact failure?_reference_eq_none_iff.2 (h.1 cell (reference_mem_postorder.1 hnode))
    | unary op operand => rfl
    | binary op left right =>
      cases op with
      | add | subtract | multiply => rfl
      | divide => exact failure?_divide_eq_none_iff.2 (h.2 left right hnode)

/-- A formula comes to a number if all the cells that it refers to have one and it divides by no zero
of either sign. Else it fails as the first node that does, so that no failure of a cell is lost. -/
theorem evaluate_eq_first_failure (known : Address → Option Outcome) (e : Expr) :
    ((∃ x, e.evaluate known = .ok x) ↔
        (∀ cell ∈ e.leaves, ∃ x, known cell = some (.ok x)) ∧
          ∀ left right, binary .divide left right ∈ e.postorder →
            ∀ y, right.evaluate known = .ok y → Number.magnitude y ≠ 0) ∧
      (∀ fault, e.evaluate known = .error fault ↔
        ∃ before node after, e.postorder = before ++ node :: after ∧
          node.failure? known = some fault ∧ ∀ n ∈ before, n.failure? known = none) ∧
      ∀ cell ∈ e.leaves, (∀ x, known cell ≠ some (.ok x)) →
        ∃ fault, e.evaluate known = .error fault := by
  have hok : (∃ x, e.evaluate known = .ok x) ↔ e.firstFailure? known = none := by
    rw [← error?_evaluate, error?_eq_none_iff]
  refine ⟨hok.trans firstFailure?_eq_none_iff, fun fault => ?_, fun cell hcell hno => ?_⟩
  · rw [← error?_eq_some_iff, error?_evaluate, firstFailure?, List.findSome?_eq_some_iff]
  · cases he : e.evaluate known with
    | error fault => exact ⟨fault, rfl⟩
    | ok x =>
      have hleaves := (firstFailure?_eq_none_iff.1 (hok.1 ⟨x, he⟩)).1
      obtain ⟨y, hy⟩ := hleaves cell hcell
      exact absurd hy (hno y)

end Spreadsheet.Expr
