import Mathlib
import Spreadsheet.Formula.Evaluate

/-! Why a formula fails against the outcomes of the cells that it refers to. -/
namespace Spreadsheet.Expr

/-- What the formula `e` can fail of. A reference names the cell that it fails of. -/
inductive Fails (known : Address → Option Outcome) (e : Expr) : FormulaError → Prop where
  | undefined {p : Address} (hp : p ∈ e.leaves) (hk : known p = none) :
      Fails known e (.undefinedReference p)
  | dependency {p : Address} {fault : FormulaError} (hp : p ∈ e.leaves)
      (hk : known p = some (.error fault)) : Fails known e (.dependencyFailed p)
  | division : Fails known e .divisionByZero

variable {known : Address → Option Outcome} {e e' : Expr} {fault : FormulaError}

theorem Fails.mono (h : e.Fails known fault) (hl : ∀ p ∈ e.leaves, p ∈ e'.leaves) :
    e'.Fails known fault := by
  cases h with
  | undefined hp hk => exact .undefined (hl _ hp) hk
  | dependency hp hk => exact .dependency (hl _ hp) hk
  | division => exact .division

theorem eq_divisionByZero_of_apply {op : BinaryOp} {x y : Float} (h : op.apply x y = .error fault) :
    fault = .divisionByZero := by
  cases op with
  | add | subtract | multiply => cases h
  | divide =>
    rw [BinaryOp.apply] at h
    split at h
    · cases h
      rfl
    · cases h

theorem fails_of_evaluate (h : e.evaluate known = .error fault) : e.Fails known fault := by
  induction e with
  | literal x => cases h
  | reference cell =>
    rw [evaluate] at h
    split at h
    · rename_i hk
      cases h
      exact .undefined List.mem_cons_self hk
    · rename_i hk
      cases h
      exact .dependency List.mem_cons_self hk
    · cases h
  | unary op operand ih =>
    rw [evaluate] at h
    split at h
    · rename_i he
      cases h
      exact (ih he).mono fun p hp => hp
    · cases h
  | binary op left right ihl ihr =>
    rw [evaluate] at h
    split at h
    · rename_i he
      cases h
      exact (ihl he).mono fun p hp => List.mem_append_left _ hp
    · split at h
      · rename_i he
        cases h
        exact (ihr he).mono fun p hp => List.mem_append_right _ hp
      · rw [eq_divisionByZero_of_apply h]
        exact .division

end Spreadsheet.Expr
