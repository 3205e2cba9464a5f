import Mathlib
import Spreadsheet.Formula.Parse

/-! The parser as a machine. It makes one step after another, keeps the calls that wait for one another
on a stack and counts the tokens that are read and the operators and parentheses that are open. It
comes to what the recursive parser comes to. -/
namespace Spreadsheet.Formula.Machine

inductive Reader where
  | expression
  | sum
  | product
  | factor
  | operand
deriving DecidableEq, Repr

namespace Reader

/-- The reader that a reader calls for the first thing that it reads. -/
def next : Reader → Reader
  | expression => sum
  | sum => product
  | product => factor
  | factor => operand
  | operand => expression

/-- The operators that a reader chains. -/
def operator? : Reader → Lexeme.Kind → Option BinaryOp
  | sum => Lexeme.Kind.additive?
  | product => Lexeme.Kind.multiplicative?
  | expression | factor | operand => fun _ => none

end Reader

structure Counters where
  /-- The number of tokens that are read. -/
  pos : Nat
  /-- The number of operators and parentheses that are open. -/
  depth : Nat
deriving DecidableEq, Repr

/-- A call of a reader, with the counters when it was made. -/
structure Call where
  reader : Reader
  entry : Counters
deriving DecidableEq, Repr

/-- What the innermost call does next. -/
inductive Task where
  | begin
  /-- Reads on after the operators that it has folded into `left`. -/
  | chain (folded : Nat) (left : Expr)

/-- What a call waits for. -/
inductive Wait where
  /-- The first thing that it reads. -/
  | first
  /-- The right operand of `op`, which counts as folded. -/
  | right (folded : Nat) (op : BinaryOp) (left : Expr)
  /-- The operand of a sign. -/
  | sign (op : UnaryOp)
  /-- The expression in the parentheses that a token opens. -/
  | parens (opening : Token)

structure Waiting extends Call where
  wait : Wait

inductive State where
  | running (c : Counters) (call : Call) (task : Task) (callers : List Waiting)
  /-- The innermost call returns an expression. -/
  | answering (c : Counters) (call : Call) (e : Expr) (callers : List Waiting)
  | done (c : Counters) (result : Except FormulaError Expr)
  /-- More was to be closed than is open. -/
  | underflow (c : Counters)

namespace Counters

def advance (c : Counters) : Counters := ⟨c.pos + 1, c.depth⟩

def deeper (c : Counters) : Counters := ⟨c.pos, c.depth + 1⟩

def shallower (c : Counters) (levels : Nat) : Counters := ⟨c.pos, c.depth - levels⟩

variable (c : Counters) (levels : Nat)

@[simp] theorem advance_pos : c.advance.pos = c.pos + 1 := rfl
@[simp] theorem advance_depth : c.advance.depth = c.depth := rfl
@[simp] theorem deeper_pos : c.deeper.pos = c.pos := rfl
@[simp] theorem deeper_depth : c.deeper.depth = c.depth + 1 := rfl
@[simp] theorem shallower_pos : (c.shallower levels).pos = c.pos := rfl
@[simp] theorem shallower_depth : (c.shallower levels).depth = c.depth - levels := rfl

end Counters

def refuse (c : Counters) (e : FormulaError) : State := .done c (.error e)

def invoke (c : Counters) (reader : Reader) (callers : List Waiting) : State :=
  .running c ⟨reader, c⟩ .begin callers

/-- Opens an operator or a parenthesis. -/
def enter (ts : List Token) (c : Counters) (next : Counters → State) : State :=
  if maxNesting < c.deeper.depth then refuse c.deeper (tooDeep (stopOf ts) (ts.drop c.pos))
  else next c.deeper

/-- Closes as many operators and parentheses as given. -/
def leave (levels : Nat) (c : Counters) (next : Counters → State) : State :=
  if levels ≤ c.depth then next (c.shallower levels) else .underflow c

/-- Reads a number or a reference, or opens a parenthesis. -/
def beginOperand (ts : List Token) (c : Counters) (call : Call) (callers : List Waiting) : State :=
  match ts[c.pos]? with
  | none => refuse c (.malformed (stopOf ts) .missingOperand)
  | some t =>
    match t.kind with
    | .number =>
      match Number.read? t.text with
      | none => refuse c.advance (.badNumber t.text)
      | some x => .answering c.advance call (.literal x) callers
    | .reference =>
      match addressOf t with
      | .error e => refuse c.advance e
      | .ok cell => .answering c.advance call (.reference cell) callers
    | .leftParen => enter ts c.advance fun c => invoke c .expression (⟨call, .parens t⟩ :: callers)
    | _ => refuse c.advance (.malformed t.position (.expectedOperand t.text))

def begin (ts : List Token) (c : Counters) (call : Call) (callers : List Waiting) : State :=
  match call.reader with
  | .expression | .sum | .product => invoke c call.reader.next (⟨call, .first⟩ :: callers)
  | .factor =>
    match (ts[c.pos]?).bind fun t => t.kind.sign? with
    | none => invoke c .operand (⟨call, .first⟩ :: callers)
    | some op => enter ts c.advance fun c => invoke c .factor (⟨call, .sign op⟩ :: callers)
  | .operand => beginOperand ts c call callers

/-- Reads the next operator of a chain and its right operand, or closes all operators of the chain. -/
def chain (ts : List Token) (c : Counters) (call : Call) (callers : List Waiting) (folded : Nat)
    (left : Expr) : State :=
  match (ts[c.pos]?).bind fun t => call.reader.operator? t.kind with
  | none => leave folded c fun c => .answering c call left callers
  | some op =>
    enter ts c.advance fun c =>
      invoke c call.reader.next (⟨call, .right (folded + 1) op left⟩ :: callers)

/-- Reads the parenthesis that closes an expression. -/
def close (ts : List Token) (c : Counters) (call : Call) (callers : List Waiting) (opening : Token)
    (e : Expr) : State :=
  match ts[c.pos]? with
  | none => refuse c (.malformed (stopOf ts) (.unclosed opening.position))
  | some u =>
    if u.kind = .rightParen then .answering c.advance call e callers
    else refuse c.advance (.malformed u.position (.expectedClose u.text))

/-- Goes on with a call that gets the expression it waits for. -/
def resume (ts : List Token) (c : Counters) (w : Waiting) (callers : List Waiting) (e : Expr) :
    State :=
  match w.wait with
  | .first =>
    match w.reader with
    | .sum | .product => .running c w.toCall (.chain 0 e) callers
    | .expression | .factor | .operand => .answering c w.toCall e callers
  | .right folded op left => .running c w.toCall (.chain folded (.binary op left e)) callers
  | .sign op => leave 1 c fun c => .answering c w.toCall (.unary op e) callers
  | .parens opening => leave 1 c fun c => close ts c w.toCall callers opening e

/-- Ends the run when no call waits. All tokens have to be read. -/
def finish (ts : List Token) (c : Counters) (e : Expr) : State :=
  match ts[c.pos]? with
  | none => .done c (.ok e)
  | some t => refuse c (.malformed t.position (.afterExpression t.text))

def step (ts : List Token) : State → Option State
  | .running c call .begin callers => some (begin ts c call callers)
  | .running c call (.chain folded left) callers => some (chain ts c call callers folded left)
  | .answering c _ e (w :: callers) => some (resume ts c w callers e)
  | .answering c _ e [] => some (finish ts c e)
  | .done _ _ | .underflow _ => none

def start (ts : List Token) : State :=
  if ts.isEmpty then refuse ⟨0, 0⟩ (.malformed 0 .emptyFormula) else invoke ⟨0, 0⟩ .expression []

/-- The state after a number of steps, or the last one if there are fewer. -/
def run (ts : List Token) : Nat → State → State
  | 0, s => s
  | n + 1, s =>
    match step ts s with
    | none => s
    | some s => run ts n s

abbrev Steps (ts : List Token) : State → State → Prop :=
  Relation.ReflTransGen fun s s' => step ts s = some s'

section Agreement

variable {ts rest : List Token} {t : Token} {c : Counters} {s s' : State} {call callee : Call}
  {callers callers' : List Waiting} {w : Waiting} {room : Nat}

theorem getElem?_of_drop_eq_cons (h : ts.drop c.pos = t :: rest) :
    ts[c.pos]? = some t ∧ ts.drop c.advance.pos = rest := by
  have hget := congrArg (·[0]?) h
  have hdrop := congrArg (List.drop 1) h
  rw [List.drop_drop] at hdrop
  simp only [List.getElem?_drop, Nat.add_zero, List.getElem?_cons_zero] at hget
  exact ⟨hget, hdrop⟩

theorem getElem?_of_drop_eq_nil (h : ts.drop c.pos = []) : ts[c.pos]? = none :=
  List.getElem?_eq_none (List.drop_eq_nil_iff.1 h)

theorem operator?_of_drop_eq_nil {reader : Reader} (h : ts.drop c.pos = []) :
    ((ts[c.pos]?).bind fun t => reader.operator? t.kind) = none := by
  rw [getElem?_of_drop_eq_nil h, Option.bind_none]

theorem operator?_of_drop_eq_cons {reader : Reader} (hreader : call.reader = reader)
    (h : ts.drop c.pos = t :: rest) :
    ((ts[c.pos]?).bind fun t => call.reader.operator? t.kind) = reader.operator? t.kind := by
  rw [(getElem?_of_drop_eq_cons h).1, Option.bind_some, hreader]

/-- One more operator or parenthesis is opened where there is room for it. -/
theorem enter_of_room (next : Counters → State) (h : c.depth + (room + 1) = maxNesting) :
    enter ts c next = next c.deeper := by
  rw [enter, Counters.deeper_depth, if_neg]
  omega

theorem depth_deeper_add (h : c.depth + (room + 1) = maxNesting) :
    c.deeper.depth + room = maxNesting := by
  rw [Counters.deeper_depth]
  omega

theorem enter_of_no_room (next : Counters → State) (h : c.depth = maxNesting) :
    enter ts c next = refuse c.deeper (tooDeep (stopOf ts) (ts.drop c.pos)) := by
  rw [enter, Counters.deeper_depth, if_pos]
  omega

/-- Whether the machine goes from a state on to what is parsed, of which `call` has to return what is
read to its callers. -/
def Answers (ts : List Token) (s : State) (call : Call) (callers : List Waiting) (room : Nat) :
    Parsed → Prop
  | .error e => ∃ c, Steps ts s (.done c (.error e))
  | .ok (e, rest) => ∃ c, Steps ts s (.answering c call e callers) ∧ ts.drop c.pos = rest ∧
      c.depth + room = maxNesting

theorem Answers.of_steps {r : Parsed} (hs : Steps ts s s') (h : Answers ts s' call callers room r) :
    Answers ts s call callers room r := by
  cases r with
  | error e =>
    obtain ⟨c, hc⟩ := h
    exact ⟨c, hs.trans hc⟩
  | ok read =>
    obtain ⟨c, hc, hrest, hroom⟩ := h
    exact ⟨c, hs.trans hc, hrest, hroom⟩

theorem Answers.of_step {r : Parsed} (hs : step ts s = some s')
    (h : Answers ts s' call callers room r) : Answers ts s call callers room r :=
  h.of_steps (.single hs)

theorem answers_refuse (e : FormulaError) : Answers ts (refuse c e) call callers room (.error e) :=
  ⟨c, .refl⟩

/-- What a call returns is handed to the one that waits for it. -/
theorem Answers.resume {inner : Nat} {r r' : Parsed}
    (h : Answers ts s callee (w :: callers) inner r) (herror : ∀ e, r = .error e → r' = .error e)
    (hok : ∀ c e, c.depth + inner = maxNesting → r = .ok (e, ts.drop c.pos) →
      Answers ts (Machine.resume ts c w callers e) call callers' room r') :
    Answers ts s call callers' room r' := by
  cases r with
  | error e =>
    rw [herror e rfl]
    exact h
  | ok read =>
    obtain ⟨e, rest⟩ := read
    obtain ⟨c, hc, rfl, hroom⟩ := h
    exact (hok c e hroom rfl).of_steps (hc.tail rfl)

/-- A chain without a further operator closes those that it has folded. -/
theorem answers_chain_end {folded : Nat} (left : Expr)
    (hop : ((ts[c.pos]?).bind fun t => call.reader.operator? t.kind) = none)
    (hfolded : folded ≤ c.depth) (hroom : c.depth + room = maxNesting) :
    Answers ts (.running c call (.chain folded left) callers) call callers (room + folded)
      (.ok (left, ts.drop c.pos)) := by
  refine ⟨c.shallower folded, .single ?_, rfl, ?_⟩
  · rw [step, chain, hop]
    exact congrArg some (if_pos hfolded)
  · rw [Counters.shallower_depth]
    omega

theorem answers_chain_refused {folded : Nat} {op : BinaryOp} (left : Expr)
    (hop : ((ts[c.pos]?).bind fun t => call.reader.operator? t.kind) = some op)
    (hroom : c.depth = maxNesting) :
    Answers ts (.running c call (.chain folded left) callers) call callers room
      (.error (tooDeep (stopOf ts) (ts.drop c.advance.pos))) := by
  refine .of_step rfl ?_
  rw [chain, hop]
  dsimp only
  rw [enter_of_no_room (c := c.advance) _ hroom]
  exact answers_refuse _

/-- A chain reads the right operand of its next operator and goes on. -/
theorem answers_chain_next {folded : Nat} {op : BinaryOp} {left : Expr} {r r' : Parsed}
    (hop : ((ts[c.pos]?).bind fun t => call.reader.operator? t.kind) = some op)
    (hroom : c.depth + (room + 1) = maxNesting)
    (hright : ∀ c callers, ts.drop c.pos = rest → c.depth + room = maxNesting →
      Answers ts (invoke c call.reader.next callers) ⟨call.reader.next, c⟩ callers room r)
    (hrest : ts.drop c.advance.pos = rest) (herror : ∀ e, r = .error e → r' = .error e)
    (hok : ∀ c' right, c'.depth + room = maxNesting → r = .ok (right, ts.drop c'.pos) →
      Answers ts (.running c' call (.chain (folded + 1) (.binary op left right)) callers) call callers
        (room + (folded + 1)) r') :
    Answers ts (.running c call (.chain folded left) callers) call callers (room + 1 + folded) r' := by
  refine .of_step rfl ?_
  rw [chain, hop]
  dsimp only
  rw [enter_of_room (c := c.advance) _ hroom]
  have hroom' := depth_deeper_add (c := c.advance) hroom
  have hsum : room + 1 + folded = room + (folded + 1) := by omega
  rw [hsum]
  exact (hright c.advance.deeper _ hrest hroom').resume herror hok

/-- Chains are read alike, whatever the operators and the reader of the operands are. -/
theorem answers_chain {reader : Reader} {p : Nat → List Token → Parsed}
    {q : Nat → Expr → List Token → Parsed} {folded : Nat} {left : Expr}
    (hchain : ∀ room left ts', q room left ts' =
      match ts' with
      | [] => .ok (left, [])
      | t :: rest =>
        match reader.operator? t.kind with
        | none => .ok (left, t :: rest)
        | some op =>
          match room with
          | 0 => .error (tooDeep (stopOf ts) rest)
          | room + 1 =>
            match p room rest with
            | .error e => .error e
            | .ok (right, rest) => q room (.binary op left right) rest)
    (hoperand : ∀ n < room, ∀ c callers, c.depth + n = maxNesting →
      Answers ts (invoke c reader.next callers) ⟨reader.next, c⟩ callers n (p n (ts.drop c.pos)))
    (hreader : call.reader = reader) (hroom : c.depth + room = maxNesting)
    (hfolded : folded ≤ c.depth) :
    Answers ts (.running c call (.chain folded left) callers) call callers (room + folded)
      (q room left (ts.drop c.pos)) := by
  induction room using Nat.strong_induction_on generalizing c folded left with
  | _ room ih =>
    rw [hchain]
    cases hts : ts.drop c.pos with
    | nil =>
      dsimp only
      rw [← hts]
      exact answers_chain_end left (operator?_of_drop_eq_nil hts) hfolded hroom
    | cons t rest =>
      have hrest := (getElem?_of_drop_eq_cons hts).2
      have hop := operator?_of_drop_eq_cons hreader hts
      dsimp only
      cases hkind : reader.operator? t.kind with
      | none =>
        rw [← hts]
        exact answers_chain_end left (hop.trans hkind) hfolded hroom
      | some op =>
        cases room with
        | zero =>
          rw [← hrest]
          exact answers_chain_refused left (hop.trans hkind) hroom
        | succ room =>
          have hlt := Nat.lt_succ_self room
          dsimp only
          refine answers_chain_next (r := p room rest) (hop.trans hkind) hroom ?_ hrest
            (fun e he => by rw [he]) fun c' right hroom' he => ?_
          · intro c callers hpos hroom
            rw [hreader, ← hpos]
            exact hoperand room hlt c callers hroom
          · rw [he]
            exact ih room hlt (fun n hn => hoperand n (hn.trans hlt)) hroom' (by omega)

/-- An expression is a sum. -/
theorem answers_expression {r : Parsed}
    (h : ∀ callers, Answers ts (invoke c .sum callers) ⟨.sum, c⟩ callers room r) :
    Answers ts (invoke c .expression callers) ⟨.expression, c⟩ callers room r := by
  refine .of_step rfl ?_
  refine (h (⟨⟨.expression, c⟩, .first⟩ :: callers)).resume (fun e he => he) fun c' e hroom he => ?_
  rw [he]
  exact ⟨c', .refl, rfl, hroom⟩

/-- What is opened around a call is closed after it. -/
theorem leave_of_room (next : Counters → State) (h : c.depth + room = maxNesting)
    (hopen : room + 1 ≤ maxNesting) : leave 1 c next = next (c.shallower 1) ∧
      (c.shallower 1).depth + (room + 1) = maxNesting := by
  have hdepth : 1 ≤ c.depth := by omega
  have hclosed : c.depth - 1 + (room + 1) = maxNesting := by omega
  exact ⟨if_pos hdepth, hclosed⟩

theorem answers_sign (op : UnaryOp) (e : Expr) (hroom : c.depth + room = maxNesting)
    (hopen : room + 1 ≤ maxNesting) :
    Answers ts (resume ts c ⟨call, .sign op⟩ callers e) call callers (room + 1)
      (.ok (.unary op e, ts.drop c.pos)) := by
  obtain ⟨hleave, hclosed⟩ := leave_of_room
    (fun c => .answering c call (.unary op e) callers) hroom hopen
  rw [resume]
  dsimp only
  rw [hleave]
  exact ⟨c.shallower 1, .refl, rfl, hclosed⟩

/-- A parenthesis has to follow the expression that another one opens. -/
theorem answers_close (opening : Token) (e : Expr) (hroom : c.depth + room = maxNesting)
    (hopen : room + 1 ≤ maxNesting) :
    Answers ts (resume ts c ⟨call, .parens opening⟩ callers e) call callers (room + 1)
      (match (.ok (e, ts.drop c.pos) : Parsed) with
        | .error e => .error e
        | .ok (_, []) => .error (.malformed (stopOf ts) (.unclosed opening.position))
        | .ok (e, u :: rest) =>
          if u.kind = .rightParen then .ok (e, rest)
          else .error (.malformed u.position (.expectedClose u.text))) := by
  obtain ⟨hleave, hclosed⟩ := leave_of_room
    (fun c => close ts c call callers opening e) hroom hopen
  rw [resume]
  dsimp only
  rw [hleave, close, Counters.shallower_pos]
  cases hts : ts.drop c.pos with
  | nil =>
    rw [getElem?_of_drop_eq_nil hts]
    exact answers_refuse _
  | cons u rest =>
    obtain ⟨hget, hrest⟩ := getElem?_of_drop_eq_cons hts
    rw [hget]
    dsimp only
    split
    · exact ⟨(c.shallower 1).advance, .refl, hrest, hclosed⟩
    · exact answers_refuse _

end Agreement

section Readers

variable {ts : List Token}

/-! What the machine does with a call of each reader. The recursion is that of the parser, and the
callers are arbitrary. -/

mutual

theorem answers_sum {c : Counters} {room : Nat} (hroom : c.depth + room = maxNesting)
    (callers : List Waiting) : Answers ts (invoke c .sum callers) ⟨.sum, c⟩ callers room
      (sum (stopOf ts) room (ts.drop c.pos)) := by
  rw [sum]
  refine .of_step rfl ?_
  refine (answers_product hroom _).resume (fun e he => by rw [he]) fun c' e hroom' he => ?_
  rw [he]
  exact answers_sumChain rfl hroom' (Nat.zero_le _) callers
termination_by (room, 4)

theorem answers_sumChain {c : Counters} {room folded : Nat} {call : Call} {left : Expr}
    (hreader : call.reader = .sum) (hroom : c.depth + room = maxNesting) (hfolded : folded ≤ c.depth)
    (callers : List Waiting) :
    Answers ts (.running c call (.chain folded left) callers) call callers (room + folded)
      (sumChain (stopOf ts) room left (ts.drop c.pos)) := by
  refine answers_chain (p := product (stopOf ts)) ?_ ?_ hreader hroom hfolded
  · intro room left ts'
    exact sumChain.eq_def (stopOf ts) room left ts'
  · intro room' _ c callers hroom
    exact answers_product hroom callers
termination_by (room, 0)

theorem answers_product {c : Counters} {room : Nat} (hroom : c.depth + room = maxNesting)
    (callers : List Waiting) : Answers ts (invoke c .product callers) ⟨.product, c⟩ callers room
      (product (stopOf ts) room (ts.drop c.pos)) := by
  rw [product]
  refine .of_step rfl ?_
  refine (answers_factor hroom _).resume (fun e he => by rw [he]) fun c' e hroom' he => ?_
  rw [he]
  exact answers_productChain rfl hroom' (Nat.zero_le _) callers
termination_by (room, 3)

theorem answers_productChain {c : Counters} {room folded : Nat} {call : Call} {left : Expr}
    (hreader : call.reader = .product) (hroom : c.depth + room = maxNesting)
    (hfolded : folded ≤ c.depth) (callers : List Waiting) :
    Answers ts (.running c call (.chain folded left) callers) call callers (room + folded)
      (productChain (stopOf ts) room left (ts.drop c.pos)) := by
  refine answers_chain (p := factor (stopOf ts)) ?_ ?_ hreader hroom hfolded
  · intro room left ts'
    exact productChain.eq_def (stopOf ts) room left ts'
  · intro room' _ c callers hroom
    exact answers_factor hroom callers
termination_by (room, 0)

theorem answers_factor {c : Counters} {room : Nat} (hroom : c.depth + room = maxNesting)
    (callers : List Waiting) : Answers ts (invoke c .factor callers) ⟨.factor, c⟩ callers room
      (factor (stopOf ts) room (ts.drop c.pos)) := by
  rw [factor.eq_def]
  refine .of_step rfl ?_
  rw [begin]
  cases hts : ts.drop c.pos with
  | nil =>
    have hget := getElem?_of_drop_eq_nil hts
    rw [hget]
    refine .of_step rfl ?_
    rw [begin, beginOperand, hget]
    exact answers_refuse _
  | cons t rest =>
    obtain ⟨hget, hrest⟩ := getElem?_of_drop_eq_cons hts
    rw [hget, Option.bind_some]
    dsimp only
    cases t.kind.sign? with
    | none =>
      refine (answers_operand hts hroom _).resume (fun e he => he) fun c' e hroom' he => ?_
      dsimp only
      rw [he]
      exact ⟨c', .refl, rfl, hroom'⟩
    | some op =>
      dsimp only
      cases room with
      | zero =>
        rw [enter_of_no_room (c := c.advance) _ hroom, hrest]
        exact answers_refuse _
      | succ room =>
        dsimp only
        rw [enter_of_room (c := c.advance) _ hroom, ← hrest]
        have hdeeper := depth_deeper_add (c := c.advance) hroom
        refine (answers_factor hdeeper _).resume (fun e he => by rw [← Counters.deeper_pos, he])
          fun c' e hroom' he => ?_
        rw [← Counters.deeper_pos, he]
        exact answers_sign op e hroom' (Nat.le_add_left _ _ |>.trans_eq hroom)
termination_by (room, 2)

theorem answers_operand {c : Counters} {room : Nat} {t : Token} {rest : List Token}
    (hts : ts.drop c.pos = t :: rest) (hroom : c.depth + room = maxNesting)
    (callers : List Waiting) :
    Answers ts (invoke c .operand callers) ⟨.operand, c⟩ callers room
      (operand (stopOf ts) room t rest) := by
  obtain ⟨hget, hrest⟩ := getElem?_of_drop_eq_cons hts
  refine .of_step rfl ?_
  rw [begin, beginOperand, hget, operand.eq_def]
  dsimp only
  cases t.kind
  case number =>
    dsimp only
    cases Number.read? t.text with
    | none => exact answers_refuse _
    | some x => exact ⟨c.advance, .refl, hrest, hroom⟩
  case reference =>
    dsimp only
    cases addressOf t with
    | error e => exact answers_refuse _
    | ok cell => exact ⟨c.advance, .refl, hrest, hroom⟩
  case leftParen =>
    dsimp only
    cases room with
    | zero =>
      rw [enter_of_no_room (c := c.advance) _ hroom, hrest]
      exact answers_refuse _
    | succ room =>
      rw [enter_of_room (c := c.advance) _ hroom, ← hrest]
      have hdeeper := depth_deeper_add (c := c.advance) hroom
      dsimp only
      refine (answers_expression (answers_sum hdeeper)).resume
        (fun e he => by rw [← Counters.deeper_pos, he]) fun c' e hroom' he => ?_
      rw [← Counters.deeper_pos, he]
      exact answers_close t e hroom' (Nat.le_add_left _ _ |>.trans_eq hroom)
  all_goals exact answers_refuse _
termination_by (room, 1)

end

end Readers

section Runs

variable {ts : List Token} {s s' : State}

/-- The machine comes to what is parsed. -/
theorem steps_start (ts : List Token) : ∃ c, Steps ts (start ts) (.done c (ofTokens ts)) := by
  rw [start, ofTokens]
  split
  · exact ⟨_, .refl⟩
  · have hanswers : Answers ts (invoke ⟨0, 0⟩ .expression []) ⟨.expression, ⟨0, 0⟩⟩ [] maxNesting
        (sum (stopOf ts) maxNesting ts) :=
      answers_expression (answers_sum (c := ⟨0, 0⟩) (Nat.zero_add _))
    cases hsum : sum (stopOf ts) maxNesting ts with
    | error e =>
      rw [hsum] at hanswers
      exact hanswers
    | ok read =>
      obtain ⟨e, rest⟩ := read
      rw [hsum] at hanswers
      obtain ⟨c, hsteps, hrest, -⟩ := hanswers
      refine ⟨c, hsteps.tail (congrArg some ?_)⟩
      cases rest with
      | nil => rw [finish, getElem?_of_drop_eq_nil hrest]
      | cons t rest =>
        rw [finish, (getElem?_of_drop_eq_cons hrest).1]
        rfl

theorem run_of_final (n : Nat) (h : step ts s = none) : run ts n s = s := by
  cases n with
  | zero => rfl
  | succ n => rw [run, h]

theorem run_succ_of_step (n : Nat) (h : step ts s = some s') : run ts (n + 1) s = run ts n s' := by
  rw [run, h]

/-- No two runs end differently. -/
theorem run_eq_of_steps {n : Nat} (h : Steps ts s s') (hfinal : step ts s' = none)
    (hrun : step ts (run ts n s) = none) : run ts n s = s' := by
  induction h using Relation.ReflTransGen.head_induction_on generalizing n with
  | refl => exact run_of_final n hfinal
  | head hstep _ ih =>
    cases n with
    | zero => exact absurd (hstep.symm.trans hrun) nofun
    | succ n =>
      rw [run_succ_of_step n hstep] at hrun ⊢
      exact ih hrun

end Runs

end Spreadsheet.Formula.Machine
