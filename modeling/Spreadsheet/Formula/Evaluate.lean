import Spreadsheet.Formula.Expr

/-! The outcome of a formula, from the outcomes of the cells it reads. -/
namespace Spreadsheet

/-- Applies an operator. Only division can fail, for a divisor that is zero of either sign. -/
def BinaryOp.apply (op : BinaryOp) (x y : Float) : Outcome :=
  match op with
  | add => .ok (x + y)
  | subtract => .ok (x - y)
  | multiply => .ok (x * y)
  | divide => if y == 0 then .error .divisionByZero else .ok (x / y)

def UnaryOp.apply (op : UnaryOp) (x : Float) : Float :=
  match op with
  | negate => -x
  | plus => x

/-- The outcome of a formula, where `known` has the outcomes of other cells. The failure furthest
to the left is reported, and a failed cell is reported without its own reason. -/
def Expr.evaluate (known : Address → Option Outcome) : Expr → Outcome
  | literal x => .ok x
  | reference cell =>
    match known cell with
    | none => .error (.undefinedReference cell)
    | some (.error _) => .error (.dependencyFailed cell)
    | some (.ok x) => .ok x
  | unary op operand =>
    match operand.evaluate known with
    | .error e => .error e
    | .ok x => .ok (op.apply x)
  | binary op left right =>
    match left.evaluate known with
    | .error e => .error e
    | .ok x =>
      match right.evaluate known with
      | .error e => .error e
      | .ok y => op.apply x y

end Spreadsheet
