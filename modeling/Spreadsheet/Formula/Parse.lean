import Spreadsheet.Formula.Expr

/-!
Reading formulas.

```
sum     = product (("+" | "-") product)*
product = factor (("*" | "/") factor)*
factor  = ("-" | "+") factor | number | reference | "(" sum ")"
```

Chains associate to the left. `room` is the number of operators and parentheses that may still be
opened around a place. An operator of a chain uses up one for the rest of its chain, so `room` bounds
the recursion and the length of a chain. A chain gives it back, and a tree may be higher.
-/
namespace Spreadsheet

namespace Lexeme.Kind

def additive? : Kind → Option BinaryOp
  | plus => some .add
  | minus => some .subtract
  | _ => none

def multiplicative? : Kind → Option BinaryOp
  | star => some .multiply
  | slash => some .divide
  | _ => none

def sign? : Kind → Option UnaryOp
  | minus => some .negate
  | plus => some .plus
  | _ => none

end Lexeme.Kind

namespace Formula

/-- An expression and the tokens after it. -/
abbrev Parsed := Except FormulaError (Expr × List Token)

def addressOf (t : Token) : Except FormulaError Address :=
  match Address.parse t.text with
  | .error reason => .error (.malformed t.position (.badReference reason))
  | .ok cell => .ok cell

/-- Nesting is refused where the tokens after the operator or parenthesis start. -/
def tooDeep (stop : Nat) : List Token → FormulaError
  | [] => .malformed stop .tooDeep
  | t :: _ => .malformed t.position .tooDeep

mutual

/-- Reads a sum. `stop` is where the formula ends. -/
def sum (stop room : Nat) (ts : List Token) : Parsed :=
  match product stop room ts with
  | .error e => .error e
  | .ok (left, rest) => sumChain stop room left rest
termination_by (room, 4)

/-- Reads on after the terms in `left`. -/
def sumChain (stop room : Nat) (left : Expr) (ts : List Token) : Parsed :=
  match ts with
  | [] => .ok (left, [])
  | t :: rest =>
    match t.kind.additive? with
    | none => .ok (left, t :: rest)
    | some op =>
      match room with
      | 0 => .error (tooDeep stop rest)
      | room + 1 =>
        match product stop room rest with
        | .error e => .error e
        | .ok (right, rest) => sumChain stop room (.binary op left right) rest
termination_by (room, 0)

def product (stop room : Nat) (ts : List Token) : Parsed :=
  match factor stop room ts with
  | .error e => .error e
  | .ok (left, rest) => productChain stop room left rest
termination_by (room, 3)

/-- Reads on after the factors in `left`. -/
def productChain (stop room : Nat) (left : Expr) (ts : List Token) : Parsed :=
  match ts with
  | [] => .ok (left, [])
  | t :: rest =>
    match t.kind.multiplicative? with
    | none => .ok (left, t :: rest)
    | some op =>
      match room with
      | 0 => .error (tooDeep stop rest)
      | room + 1 =>
        match factor stop room rest with
        | .error e => .error e
        | .ok (right, rest) => productChain stop room (.binary op left right) rest
termination_by (room, 0)

/-- Reads signs and an operand. -/
def factor (stop room : Nat) (ts : List Token) : Parsed :=
  match ts with
  | [] => .error (.malformed stop .missingOperand)
  | t :: rest =>
    match t.kind.sign? with
    | none => operand stop room t rest
    | some op =>
      match room with
      | 0 => .error (tooDeep stop rest)
      | room + 1 =>
        match factor stop room rest with
        | .error e => .error e
        | .ok (e, rest) => .ok (.unary op e, rest)
termination_by (room, 2)

/-- Reads the operand that starts with the token `t`. -/
def operand (stop room : Nat) (t : Token) (rest : List Token) : Parsed :=
  match t.kind with
  | .number =>
    match Number.read? t.text with
    | none => .error (.badNumber t.text)
    | some x => .ok (.literal x, rest)
  | .reference =>
    match addressOf t with
    | .error e => .error e
    | .ok cell => .ok (.reference cell, rest)
  | .leftParen =>
    match room with
    | 0 => .error (tooDeep stop rest)
    | room + 1 =>
      match sum stop room rest with
      | .error e => .error e
      | .ok (_, []) => .error (.malformed stop (.unclosed t.position))
      | .ok (e, u :: rest) =>
        if u.kind = .rightParen then .ok (e, rest)
        else .error (.malformed u.position (.expectedClose u.text))
  | _ => .error (.malformed t.position (.expectedOperand t.text))
termination_by (room, 1)

end

/-- Where a list of tokens ends. -/
def stopOf (ts : List Token) : Nat := (ts.getLast?.map Token.stop).getD 0

/-- Reads a formula from its tokens, all of which have to belong to it. -/
def ofTokens (ts : List Token) : Except FormulaError Expr :=
  if ts.isEmpty then .error (.malformed 0 .emptyFormula)
  else
    match sum (stopOf ts) maxNesting ts with
    | .error e => .error e
    | .ok (e, []) => .ok e
    | .ok (_, t :: _) => .error (.malformed t.position (.afterExpression t.text))

/-- The characters of a formula after the leading blanks and one optional equals sign. -/
def body (cs : List Char) : List Char :=
  match cs.dropWhile Text.isBlank with
  | '=' :: rest => rest
  | rest => rest

/-- Reads a formula, with or without an equals sign in front. -/
def parse (s : String) : Except FormulaError Expr :=
  let cs := body s.toList
  let offset := s.utf8ByteSize - (String.ofList cs).utf8ByteSize
  match Token.scan 0 cs >>= ofTokens with
  | .error e => .error (e.shift offset)
  | .ok e => .ok e

def parseReference (s : String) : Except FormulaError Address := do
  match ← tokenize s with
  | [] => .error (.malformed 0 .emptyReference)
  | t :: rest =>
    if t.kind = .reference ∧ rest.isEmpty then addressOf t
    else .error (.malformed t.position (.notReference (Text.trim s)))

end Formula

end Spreadsheet
