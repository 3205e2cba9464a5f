import Spreadsheet.Formula.Token
import Spreadsheet.Number.Text

/-! Formula trees, the cells they read, and the text they are written as. -/
namespace Spreadsheet

inductive BinaryOp where
  | add
  | subtract
  | multiply
  | divide
deriving DecidableEq, Repr

inductive UnaryOp where
  | negate
  | plus
deriving DecidableEq, Repr

/-- A formula. Two formulas are `==` when their literals are, so zeros of either sign agree and
NaN agrees with nothing. -/
inductive Expr where
  | literal (x : Float)
  | reference (cell : Address)
  | unary (op : UnaryOp) (operand : Expr)
  | binary (op : BinaryOp) (left right : Expr)
deriving BEq

def BinaryOp.lexeme : BinaryOp → Lexeme
  | add => ⟨.plus, "+"⟩
  | subtract => ⟨.minus, "-"⟩
  | multiply => ⟨.star, "*"⟩
  | divide => ⟨.slash, "/"⟩

/-- How tight the operator binds. -/
def BinaryOp.level : BinaryOp → Nat
  | add | subtract => 1
  | multiply | divide => 2

def UnaryOp.lexeme : UnaryOp → Lexeme
  | negate => ⟨.minus, "-"⟩
  | plus => ⟨.plus, "+"⟩

namespace Expr

/-- How tight the outermost operator binds. -/
def level : Expr → Nat
  | binary op _ _ => op.level
  | unary _ _ => 3
  | literal _ | reference _ => 4

def leaves : Expr → List Address
  | literal _ => []
  | reference cell => [cell]
  | unary _ operand => operand.leaves
  | binary _ left right => left.leaves ++ right.leaves

/-- The number of operators and operands. -/
def size : Expr → Nat
  | literal _ | reference _ => 1
  | unary _ operand => operand.size + 1
  | binary _ left right => left.size + right.size + 1

-- Left open to evaluation, so that the graphs of given formulas can be computed.
/-- Adds the cells that the pending formulas read to those that are found. -/
@[semireducible] def collect (found : AddressSet) : List Expr → AddressSet
  | [] => found
  | literal _ :: pending => collect found pending
  | reference cell :: pending => collect (found.insert cell) pending
  | unary _ operand :: pending => collect found (operand :: pending)
  | binary _ left right :: pending => collect found (left :: right :: pending)
termination_by pending => pending.foldr (fun e n => e.size + n) 0
decreasing_by all_goals simp only [List.foldr_cons, size]; omega

/-- The distinct cells that the formula reads. -/
def references (e : Expr) : AddressSet := collect ∅ [e]

/-- The greatest number of operators on a path from the root to a leaf. -/
def height : Expr → Nat
  | literal _ | reference _ => 0
  | unary _ operand => operand.height + 1
  | binary _ left right => max left.height right.height + 1

/-- Puts parentheses around lexemes where they are needed. -/
def enclose (needed : Bool) (l : List Lexeme) : List Lexeme :=
  if needed then ⟨.leftParen, "("⟩ :: l ++ [⟨.rightParen, ")"⟩] else l

/-- The written form, with parentheses only where the tree would otherwise read back otherwise:
around an operand that binds less tight, and around a right operand that binds as tight. -/
def lexemes : Expr → List Lexeme
  | literal x => [⟨.number, Number.text x⟩]
  | reference cell => [⟨.reference, cell.text⟩]
  | unary op operand => op.lexeme :: enclose (operand.level < 3) operand.lexemes
  | binary op left right =>
    enclose (left.level < op.level) left.lexemes ++
      op.lexeme :: enclose (right.level ≤ op.level) right.lexemes

def text (e : Expr) : String := String.join (e.lexemes.map (·.text))

end Expr

end Spreadsheet
