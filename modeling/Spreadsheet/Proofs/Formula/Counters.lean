import Spreadsheet.Proofs.Formula.Machine

/-! The counters and the calls of the parser in each state that it comes to. What a call opens it has
closed when it returns, and it comes round to the same reader only with more open than before. -/
namespace Spreadsheet.Formula.Machine

variable {ts : List Token} {t : Token} {c : Counters} {s s' : State} {call callee : Call}
  {callers : List Waiting} {w : Waiting}

section Calls

/-- The calls of a state, the innermost first. -/
def State.calls : State → List Call
  | .running _ call _ callers | .answering _ call _ callers => call :: callers.map Waiting.toCall
  | .done _ _ | .underflow _ => []

/-- Whether a call comes round to the factor after a sign or to the expression in parentheses. -/
def Call.Reenters (callee caller : Call) : Prop :=
  caller.reader = .factor ∧ callee.reader = .factor ∨
    caller.reader = .operand ∧ callee.reader = .expression

instance : Decidable (callee.Reenters call) := inferInstanceAs (Decidable (_ ∨ _))

def reentries : List Call → Nat
  | callee :: caller :: outer =>
    (if callee.Reenters caller then 1 else 0) + reentries (caller :: outer)
  | _ => 0

/-- The number of operators and parentheses that a call has opened itself. -/
def Wait.held : Wait → Nat
  | .first => 0
  | .right folded _ _ => folded
  | .sign _ | .parens _ => 1

/-- The readers in the order in which they call one another. -/
def Reader.rank : Reader → Nat
  | expression => 0
  | sum => 1
  | product => 2
  | factor => 3
  | operand => 4

/-- Whether a call waits for a reader. -/
def Waiting.Awaits (w : Waiting) (reader : Reader) : Prop :=
  match w.wait with
  | .first | .right _ _ _ => w.reader ≠ .operand ∧ reader = w.reader.next
  | .sign _ => w.reader = .factor ∧ reader = .factor
  | .parens _ => w.reader = .operand ∧ reader = .expression

/-- Whether a call is made by a list of callers, with what they have opened and after what they have
read. The outermost call is that of the formula. -/
def Nested (callee : Call) : List Waiting → Prop
  | [] => callee = ⟨.expression, ⟨0, 0⟩⟩
  | w :: callers =>
    w.Awaits callee.reader ∧ callee.entry.depth = w.entry.depth + w.wait.held ∧
      w.entry.pos ≤ callee.entry.pos ∧ Nested w.toCall callers

theorem Reader.rank_next {reader : Reader} (h : reader ≠ .operand) :
    reader.next.rank = reader.rank + 1 := by
  cases reader with
  | operand => exact absurd rfl h
  | _ => rfl

theorem Reader.rank_le (reader : Reader) : reader.rank ≤ 4 := by
  cases reader <;> decide

/-- Only sums and products are chains. -/
theorem Reader.eq_of_operator? {reader : Reader} {kind : Lexeme.Kind} {op : BinaryOp}
    (h : reader.operator? kind = some op) : reader = .sum ∨ reader = .product := by
  cases reader with
  | sum => exact .inl rfl
  | product => exact .inr rfl
  | expression | factor | operand => simp [operator?] at h

/-- A call that waits for a reader waits for the next one, unless it comes round. -/
theorem Waiting.Awaits.cases (h : w.Awaits callee.reader) :
    callee.reader.rank = w.reader.rank + 1 ∨ callee.Reenters w.toCall ∧ w.wait.held = 1 := by
  obtain ⟨caller, wait⟩ := w
  cases wait with
  | first =>
    obtain ⟨hreader, hcallee⟩ := h
    exact .inl (hcallee ▸ Reader.rank_next hreader)
  | right folded op left =>
    obtain ⟨hreader, hcallee⟩ := h
    exact .inl (hcallee ▸ Reader.rank_next hreader)
  | sign op => exact .inr ⟨.inl h, rfl⟩
  | parens opening => exact .inr ⟨.inr h, rfl⟩

theorem Call.Reenters.rank_le (h : callee.Reenters call) : callee.reader.rank ≤ call.reader.rank := by
  obtain ⟨hcall, hcallee⟩ | ⟨hcall, hcallee⟩ := h
  · rw [hcall, hcallee]
  · rw [hcallee]
    exact Nat.zero_le _

/-- A call that comes round has more open than its caller had. -/
theorem Nested.depth_lt (h : Nested callee (w :: callers)) (hround : callee.Reenters w.toCall) :
    w.entry.depth < callee.entry.depth := by
  obtain ⟨hawaits, hdepth, -, -⟩ := h
  have hrank := hround.rank_le
  obtain hnext | ⟨-, hheld⟩ := hawaits.cases <;> omega

theorem Nested.isChain (h : Nested callee callers) :
    (callee :: callers.map Waiting.toCall).IsChain fun callee caller =>
      callee.Reenters caller → caller.entry.depth < callee.entry.depth := by
  induction callers generalizing callee with
  | nil => exact .singleton _
  | cons w callers ih => exact .cons_cons h.depth_lt (ih h.2.2.2)

theorem Nested.reentries_le (h : Nested callee callers) :
    reentries (callee :: callers.map Waiting.toCall) ≤ callee.entry.depth := by
  induction callers generalizing callee with
  | nil => exact Nat.zero_le _
  | cons w callers ih =>
    have hcallers := ih h.2.2.2
    have hdepth := h.2.1
    rw [List.map_cons, reentries]
    split
    · have := h.depth_lt ‹_›
      omega
    · omega

/-- There are at most five calls from one that comes round to the next. -/
theorem Nested.length_le (h : Nested callee callers) :
    callers.length ≤ 5 * reentries (callee :: callers.map Waiting.toCall) + callee.reader.rank := by
  induction callers generalizing callee with
  | nil => exact Nat.zero_le _
  | cons w callers ih =>
    have hcallers := ih h.2.2.2
    have hrank := w.reader.rank_le
    rw [List.map_cons, reentries, List.length_cons]
    obtain hnext | ⟨hround, -⟩ := h.1.cases
    · omega
    · rw [if_pos hround]
      omega

end Calls

/-- What may come of the beginning of an operand. -/
theorem beginOperand_cases (ts : List Token) (c : Counters) (call : Call) (callers : List Waiting) :
    (∃ e, beginOperand ts c call callers = refuse c e) ∨
    ∃ t, ts[c.pos]? = some t ∧
      ((∃ e, beginOperand ts c call callers = refuse c.advance e) ∨
        (∃ e, beginOperand ts c call callers = .answering c.advance call e callers) ∨
        beginOperand ts c call callers = enter ts c.advance fun c =>
          invoke c .expression (⟨call, .parens t⟩ :: callers)) := by
  rw [beginOperand]
  cases ts[c.pos]? with
  | none => exact .inl ⟨_, rfl⟩
  | some t =>
    refine .inr ⟨t, rfl, ?_⟩
    dsimp only
    cases t.kind
    case number =>
      dsimp only
      cases Number.read? t.text with
      | none => exact .inl ⟨_, rfl⟩
      | some x => exact .inr (.inl ⟨_, rfl⟩)
    case reference =>
      dsimp only
      cases addressOf t with
      | error e => exact .inl ⟨_, rfl⟩
      | ok cell => exact .inr (.inl ⟨_, rfl⟩)
    case leftParen => exact .inr (.inr rfl)
    all_goals exact .inl ⟨_, rfl⟩

theorem close_cases (ts : List Token) (c : Counters) (call : Call) (callers : List Waiting)
    (opening : Token) (e : Expr) :
    (∃ e', close ts c call callers opening e = refuse c e') ∨
    ∃ u, ts[c.pos]? = some u ∧
      ((∃ e', close ts c call callers opening e = refuse c.advance e') ∨
        close ts c call callers opening e = .answering c.advance call e callers) := by
  rw [close]
  cases ts[c.pos]? with
  | none => exact .inl ⟨_, rfl⟩
  | some u =>
    refine .inr ⟨u, rfl, ?_⟩
    dsimp only
    split
    · exact .inr rfl
    · exact .inl ⟨_, rfl⟩

section Steps

structure Counters.Within (ts : List Token) (c : Counters) : Prop where
  pos_le : c.pos ≤ ts.length
  depth_le : c.depth ≤ maxNesting

/-- Where the counters are when a call does a task. -/
def Task.At (c : Counters) (call : Call) : Task → Prop
  | .begin => c = call.entry
  | .chain folded _ => c.depth = call.entry.depth + folded ∧ call.entry.pos < c.pos

/-- What every step preserves. The depth goes above the bound only where the parser gives up. -/
inductive Sound (ts : List Token) : State → Prop
  | running {c : Counters} {call : Call} {task : Task} {callers : List Waiting}
      (hcalls : Nested call callers) (hc : c.Within ts) (htask : task.At c call) :
    Sound ts (.running c call task callers)
  | answering {c : Counters} {call : Call} {e : Expr} {callers : List Waiting}
      (hcalls : Nested call callers) (hc : c.Within ts) (hdepth : c.depth = call.entry.depth)
      (hpos : call.entry.pos < c.pos) :
    Sound ts (.answering c call e callers)
  | done {c : Counters} {result : Except FormulaError Expr} (hpos : c.pos ≤ ts.length)
      (hdepth : c.depth ≤ maxNesting + 1) :
    Sound ts (.done c result)

theorem Counters.Within.advance (hc : c.Within ts) (hget : ts[c.pos]? = some t) :
    c.advance.Within ts :=
  ⟨(List.getElem?_eq_some_iff.1 hget).1, hc.depth_le⟩

theorem Counters.Within.shallower (hc : c.Within ts) (levels : Nat) :
    (c.shallower levels).Within ts :=
  ⟨hc.pos_le, (Nat.sub_le _ _).trans hc.depth_le⟩

theorem sound_refuse (hc : c.Within ts) (e : FormulaError) : Sound ts (refuse c e) :=
  .done hc.pos_le (Nat.le_succ_of_le hc.depth_le)

theorem sound_enter {next : Counters → State} (hc : c.Within ts)
    (hnext : c.deeper.Within ts → Sound ts (next c.deeper)) : Sound ts (enter ts c next) := by
  rw [enter]
  split
  · exact .done hc.pos_le (Nat.succ_le_succ hc.depth_le)
  · exact hnext ⟨hc.pos_le, Nat.le_of_not_lt ‹_›⟩

theorem sound_leave {levels : Nat} {next : Counters → State} (hlevels : levels ≤ c.depth)
    (hnext : Sound ts (next (c.shallower levels))) : Sound ts (leave levels c next) := by
  rw [leave, if_pos hlevels]
  exact hnext

/-- A call that is made as it is awaited. -/
theorem sound_invoke {reader : Reader} {wait : Wait} (hcalls : Nested call callers)
    (hc : c.Within ts) (hawaits : Waiting.Awaits ⟨call, wait⟩ reader)
    (hdepth : c.depth = call.entry.depth + wait.held) (hpos : call.entry.pos ≤ c.pos) :
    Sound ts (invoke c reader (⟨call, wait⟩ :: callers)) :=
  .running ⟨hawaits, hdepth, hpos, hcalls⟩ hc rfl

theorem sound_beginOperand (hcalls : Nested call callers) (hc : call.entry.Within ts)
    (hreader : call.reader = .operand) : Sound ts (beginOperand ts call.entry call callers) := by
  obtain ⟨e, h⟩ | ⟨t, hget, hread⟩ := beginOperand_cases ts call.entry call callers
  · rw [h]
    exact sound_refuse hc e
  · have hadvance := hc.advance hget
    have hpos := Nat.lt_succ_self call.entry.pos
    obtain ⟨e, h⟩ | ⟨e, h⟩ | h := hread <;> rw [h]
    · exact sound_refuse hadvance e
    · exact .answering hcalls hadvance rfl hpos
    · exact sound_enter hadvance fun hdeeper =>
        sound_invoke hcalls hdeeper ⟨hreader, rfl⟩ rfl hpos.le

theorem sound_begin (hcalls : Nested call callers) (hc : call.entry.Within ts) :
    Sound ts (begin ts call.entry call callers) := by
  have hfirst (h : call.reader ≠ .operand) :
      Sound ts (invoke call.entry call.reader.next (⟨call, .first⟩ :: callers)) :=
    sound_invoke hcalls hc ⟨h, rfl⟩ rfl le_rfl
  rw [begin]
  cases hreader : call.reader with
  | operand => exact sound_beginOperand hcalls hc hreader
  | factor =>
    dsimp only
    rw [hreader] at hfirst
    split
    · exact hfirst (by simp)
    · obtain ⟨t, hget, -⟩ := Option.bind_eq_some_iff.1 ‹_›
      have hpos := Nat.le_succ call.entry.pos
      exact sound_enter (hc.advance hget) fun hdeeper =>
        sound_invoke hcalls hdeeper ⟨hreader, rfl⟩ rfl hpos
  | expression | sum | product =>
    rw [hreader] at hfirst
    exact hfirst (by simp)

theorem sound_chain {folded : Nat} (hcalls : Nested call callers) (hc : c.Within ts)
    (hdepth : c.depth = call.entry.depth + folded) (hpos : call.entry.pos < c.pos) (left : Expr) :
    Sound ts (chain ts c call callers folded left) := by
  rw [chain]
  split
  · have hclosed : c.depth - folded = call.entry.depth := by omega
    have hlevels : folded ≤ c.depth := by omega
    exact sound_leave hlevels (.answering hcalls (hc.shallower folded) hclosed hpos)
  · obtain ⟨t, hget, hop⟩ := Option.bind_eq_some_iff.1 ‹_›
    have hreader : call.reader ≠ .operand := by
      obtain hreader | hreader := Reader.eq_of_operator? hop <;> simp [hreader]
    have hdepth' : c.depth + 1 = call.entry.depth + (folded + 1) := by omega
    exact sound_enter (hc.advance hget) fun hdeeper =>
      sound_invoke hcalls hdeeper ⟨hreader, rfl⟩ hdepth' (hpos.le.trans (Nat.le_succ _))

theorem sound_close (hcalls : Nested call callers) (hc : c.Within ts)
    (hdepth : c.depth = call.entry.depth) (hpos : call.entry.pos < c.pos) (opening : Token)
    (e : Expr) : Sound ts (close ts c call callers opening e) := by
  obtain ⟨e', h⟩ | ⟨u, hget, ⟨e', h⟩ | h⟩ := close_cases ts c call callers opening e <;> rw [h]
  · exact sound_refuse hc e'
  · exact sound_refuse (hc.advance hget) e'
  · exact .answering hcalls (hc.advance hget) hdepth (hpos.trans (Nat.lt_succ_self _))

/-- The counters of a caller when the call that it waits for returns. -/
theorem sound_resume (hcalls : Nested w.toCall callers) (hc : c.Within ts)
    (hdepth : c.depth = w.entry.depth + w.wait.held) (hpos : w.entry.pos < c.pos) (e : Expr) :
    Sound ts (resume ts c w callers e) := by
  obtain ⟨caller, wait⟩ := w
  have hclosed (h : wait.held = 1) : 1 ≤ c.depth ∧ c.depth - 1 = caller.entry.depth := by
    dsimp only at hdepth
    omega
  cases wait with
  | first =>
    rw [resume]
    dsimp only
    split
    · exact .running hcalls hc ⟨hdepth, hpos⟩
    · exact .running hcalls hc ⟨hdepth, hpos⟩
    all_goals exact .answering hcalls hc hdepth hpos
  | right folded op left => exact .running hcalls hc ⟨hdepth, hpos⟩
  | sign op =>
    obtain ⟨hopen, hdepth⟩ := hclosed rfl
    rw [resume]
    exact sound_leave hopen (.answering hcalls (hc.shallower 1) hdepth hpos)
  | parens opening =>
    obtain ⟨hopen, hdepth⟩ := hclosed rfl
    rw [resume]
    exact sound_leave hopen (sound_close hcalls (hc.shallower 1) hdepth hpos opening e)

theorem sound_finish (hc : c.Within ts) (e : Expr) : Sound ts (finish ts c e) := by
  rw [finish]
  split
  · exact .done hc.pos_le (Nat.le_succ_of_le hc.depth_le)
  · exact sound_refuse hc _

theorem Sound.step (h : Sound ts s) (hstep : step ts s = some s') : Sound ts s' := by
  cases h with
  | @running c call task callers hcalls hc htask =>
    cases task with
    | begin =>
      cases hstep
      cases htask
      exact sound_begin hcalls hc
    | chain folded left =>
      cases hstep
      exact sound_chain hcalls hc htask.1 htask.2 left
  | @answering c call e callers hcalls hc hdepth hpos =>
    cases callers with
    | nil =>
      cases hstep
      exact sound_finish hc e
    | cons w callers =>
      cases hstep
      obtain ⟨-, hentry, hread, hcallers⟩ := hcalls
      exact sound_resume hcallers hc (hdepth.trans hentry) (hread.trans_lt hpos) e
  | done => exact absurd hstep nofun

theorem Sound.run (h : Sound ts s) (n : Nat) : Sound ts (run ts n s) := by
  induction n generalizing s with
  | zero => exact h
  | succ n ih =>
    cases hstep : Machine.step ts s with
    | none => rwa [run_of_final _ hstep]
    | some s' =>
      rw [run_succ_of_step n hstep]
      exact ih (h.step hstep)

theorem sound_start (ts : List Token) : Sound ts (start ts) := by
  rw [start]
  split
  · exact .done (Nat.zero_le _) (Nat.zero_le _)
  · exact .running rfl ⟨Nat.zero_le _, Nat.zero_le _⟩ rfl

end Steps

section Ends

def Counters.left (ts : List Token) (c : Counters) : Nat := ts.length - c.pos

/-- The weight of what a reader does before it reads a token, at most. -/
def Reader.weight : Reader → Nat
  | expression => 11
  | sum => 9
  | product => 6
  | factor => 3
  | operand => 1

def Task.weight (reader : Reader) : Task → Nat
  | .begin => reader.weight
  | .chain _ _ => 2

def Waiting.weight (w : Waiting) : Nat :=
  match w.wait with
  | .first =>
    match w.reader with
    | .sum | .product => 2
    | .expression | .factor | .operand => 1
  | .right _ _ _ => 2
  | .sign _ | .parens _ => 1

/-- Every step lowers the weight of a state. A token outweighs all that is done when it is read. -/
def State.weight (ts : List Token) : State → Nat
  | .running c call task callers =>
    12 * c.left ts + task.weight call.reader + (callers.map Waiting.weight).sum
  | .answering c _ _ callers => 12 * c.left ts + 1 + (callers.map Waiting.weight).sum
  | .done _ _ | .underflow _ => 0

theorem left_advance (hget : ts[c.pos]? = some t) : c.advance.left ts + 1 = c.left ts := by
  have hlt := (List.getElem?_eq_some_iff.1 hget).1
  rw [Counters.left, Counters.left, Counters.advance_pos]
  omega

@[simp] theorem left_deeper : c.deeper.left ts = c.left ts := rfl
@[simp] theorem left_shallower (levels : Nat) : (c.shallower levels).left ts = c.left ts := rfl

theorem weight_invoke (reader : Reader) (w : Waiting) (callers : List Waiting) :
    (invoke c reader (w :: callers)).weight ts =
      12 * c.left ts + reader.weight + (w.weight + (callers.map Waiting.weight).sum) := by
  rw [← List.sum_cons, ← List.map_cons]
  rfl

theorem weight_enter_lt {next : Counters → State} {n : Nat}
    (h : (next c.deeper).weight ts < n) : (enter ts c next).weight ts < n := by
  rw [enter]
  split
  · exact (Nat.zero_le _).trans_lt h
  · exact h

theorem weight_leave_lt {next : Counters → State} {levels n : Nat}
    (h : (next (c.shallower levels)).weight ts < n) : (leave levels c next).weight ts < n := by
  rw [leave]
  split
  · exact h
  · exact (Nat.zero_le _).trans_lt h

theorem weight_refuse_lt {n : Nat} (e : FormulaError) (h : 0 < n) :
    (refuse c e).weight ts < n :=
  h

theorem weight_beginOperand_lt : (beginOperand ts c call callers).weight ts <
    12 * c.left ts + 1 + (callers.map Waiting.weight).sum := by
  obtain ⟨e, h⟩ | ⟨t, hget, hread⟩ := beginOperand_cases ts c call callers
  · rw [h]
    exact weight_refuse_lt e (by omega)
  · have hleft := left_advance hget
    obtain ⟨e, h⟩ | ⟨e, h⟩ | h := hread <;> rw [h]
    · exact weight_refuse_lt e (by omega)
    · rw [State.weight]
      omega
    · apply weight_enter_lt
      simp only [weight_invoke, left_deeper, Reader.weight, Waiting.weight]
      omega

theorem weight_begin_lt : (begin ts c call callers).weight ts <
    12 * c.left ts + call.reader.weight + (callers.map Waiting.weight).sum := by
  rw [begin]
  cases hreader : call.reader with
  | operand => exact weight_beginOperand_lt
  | factor =>
    dsimp only
    split
    · simp only [weight_invoke, Reader.weight, Waiting.weight, hreader]
      omega
    · obtain ⟨t, hget, -⟩ := Option.bind_eq_some_iff.1 ‹_›
      have hleft := left_advance hget
      apply weight_enter_lt
      simp only [weight_invoke, left_deeper, Reader.weight, Waiting.weight]
      omega
  | expression | sum | product =>
    simp only [Reader.next, weight_invoke, Reader.weight, Waiting.weight, hreader]
    omega

theorem weight_chain_lt {folded : Nat} (left : Expr) : (chain ts c call callers folded left).weight ts <
    12 * c.left ts + 2 + (callers.map Waiting.weight).sum := by
  rw [chain]
  split
  · apply weight_leave_lt
    rw [State.weight, left_shallower]
    omega
  · obtain ⟨t, hget, hop⟩ := Option.bind_eq_some_iff.1 ‹_›
    have hleft := left_advance hget
    have hnext : call.reader.next.weight ≤ 6 := by
      obtain hreader | hreader := Reader.eq_of_operator? hop
      all_goals simp [hreader, Reader.next, Reader.weight]
    apply weight_enter_lt
    simp only [weight_invoke, left_deeper, Waiting.weight]
    omega

theorem weight_close_lt (opening : Token) (e : Expr) :
    (close ts c call callers opening e).weight ts <
      12 * c.left ts + 1 + (callers.map Waiting.weight).sum := by
  obtain ⟨e', h⟩ | ⟨u, hget, ⟨e', h⟩ | h⟩ := close_cases ts c call callers opening e <;> rw [h]
  · exact weight_refuse_lt e' (by omega)
  · exact weight_refuse_lt e' (by omega)
  · have hleft := left_advance hget
    rw [State.weight]
    omega

theorem weight_resume_lt (e : Expr) : (resume ts c w callers e).weight ts <
    12 * c.left ts + 1 + (w.weight + (callers.map Waiting.weight).sum) := by
  obtain ⟨caller, wait⟩ := w
  cases wait with
  | first =>
    simp only [resume, Waiting.weight]
    cases caller.reader <;> simp only [State.weight, Task.weight] <;> omega
  | right folded op left =>
    simp only [resume, State.weight, Task.weight, Waiting.weight]
    omega
  | sign op =>
    rw [resume]
    apply weight_leave_lt
    simp only [State.weight, left_shallower, Waiting.weight]
    omega
  | parens opening =>
    rw [resume]
    apply weight_leave_lt
    apply (weight_close_lt opening e).trans
    simp only [left_shallower, Waiting.weight]
    omega

theorem weight_finish (e : Expr) : (finish ts c e).weight ts = 0 := by
  rw [finish]
  split <;> rfl

theorem weight_step_lt (hstep : step ts s = some s') : s'.weight ts < s.weight ts := by
  cases s with
  | running c call task callers =>
    cases task with
    | begin =>
      cases hstep
      exact weight_begin_lt
    | chain folded left =>
      cases hstep
      exact weight_chain_lt left
  | answering c call e callers =>
    cases callers with
    | nil =>
      cases hstep
      rw [weight_finish]
      exact Nat.succ_pos _
    | cons w callers =>
      cases hstep
      exact weight_resume_lt e
  | done | underflow => exact absurd hstep nofun

/-- A run ends after as many steps as its first state weighs. -/
theorem step_run_eq_none {n : Nat} (h : s.weight ts ≤ n) : step ts (run ts n s) = none := by
  induction n generalizing s with
  | zero =>
    cases hstep : step ts s with
    | none => exact hstep
    | some s' =>
      have := weight_step_lt hstep
      omega
  | succ n ih =>
    cases hstep : step ts s with
    | none => rwa [run_of_final _ hstep]
    | some s' =>
      have hlt := weight_step_lt hstep
      rw [run_succ_of_step n hstep]
      exact ih (by omega)

theorem weight_start_le (ts : List Token) : (start ts).weight ts ≤ 12 * ts.length + 11 := by
  rw [start]
  split
  · exact Nat.zero_le _
  · exact le_rfl

end Ends

section Bounds

def State.counters : State → Counters
  | .running c _ _ _ | .answering c _ _ _ | .done c _ | .underflow c => c

theorem Sound.pos_le (h : Sound ts s) : s.counters.pos ≤ ts.length := by
  cases h with
  | running _ hc _ => exact hc.pos_le
  | answering _ hc _ _ => exact hc.pos_le
  | done hpos _ => exact hpos

theorem Sound.depth_le (h : Sound ts s) : s.counters.depth ≤ maxNesting + 1 := by
  cases h with
  | running _ hc _ => exact Nat.le_succ_of_le hc.depth_le
  | answering _ hc _ _ => exact Nat.le_succ_of_le hc.depth_le
  | done _ hdepth => exact hdepth

theorem Task.At.depth_le {task : Task} (h : task.At c call) : call.entry.depth ≤ c.depth := by
  cases task with
  | begin => rw [show c = call.entry from h]
  | chain folded left => exact h.1 ▸ Nat.le_add_right _ _

/-- The calls of a state are nested, and the innermost was not made deeper than the bound. -/
theorem Sound.calls (h : Sound ts s) : s.calls = [] ∨ ∃ call callers, Nested call callers ∧
    call.entry.depth ≤ maxNesting ∧ s.calls = call :: callers.map Waiting.toCall := by
  cases h with
  | running hcalls hc htask =>
    exact .inr ⟨_, _, hcalls, htask.depth_le.trans hc.depth_le, rfl⟩
  | answering hcalls hc hdepth _ =>
    exact .inr ⟨_, _, hcalls, hdepth.symm.trans_le hc.depth_le, rfl⟩
  | done => exact .inl rfl

theorem Sound.isChain_calls (h : Sound ts s) : s.calls.IsChain fun callee caller =>
    callee.Reenters caller → caller.entry.depth < callee.entry.depth := by
  obtain hnone | ⟨call, callers, hcalls, -, hs⟩ := h.calls
  · rw [hnone]
    exact .nil
  · rw [hs]
    exact hcalls.isChain

theorem Sound.reentries_le (h : Sound ts s) : reentries s.calls ≤ maxNesting := by
  obtain hnone | ⟨call, callers, hcalls, hdepth, hs⟩ := h.calls
  · rw [hnone]
    exact Nat.zero_le _
  · rw [hs]
    exact hcalls.reentries_le.trans hdepth

theorem Sound.length_calls_le (h : Sound ts s) : s.calls.length ≤ 5 * (maxNesting + 1) := by
  obtain hnone | ⟨call, callers, hcalls, hdepth, hs⟩ := h.calls
  · rw [hnone]
    exact Nat.zero_le _
  · have hlength := hcalls.length_le
    have hround := hcalls.reentries_le
    have hrank := call.reader.rank_le
    rw [hs, List.length_cons, List.length_map]
    omega

theorem exists_run_start_eq_done (ts : List Token) :
    ∃ c, run ts (12 * ts.length + 11) (start ts) = .done c (ofTokens ts) := by
  obtain ⟨c, hc⟩ := steps_start ts
  exact ⟨c, run_eq_of_steps hc rfl (step_run_eq_none (weight_start_le ts))⟩

/-- The parser ends, after a number of steps that is linear in the number of tokens. In each state before,
a call that returns an expression has closed what it has opened and has read a token, and no more calls
wait for one another than the bound on nesting allows. -/
theorem bounded_run (ts : List Token) :
    (∃ c, run ts (12 * ts.length + 11) (start ts) = .done c (ofTokens ts)) ∧
    ∀ n s, run ts n (start ts) = s →
      (∀ c, s ≠ .underflow c) ∧ s.counters.pos ≤ ts.length ∧ s.counters.depth ≤ maxNesting + 1 ∧
      (∀ c call e callers, s = .answering c call e callers →
        c.depth = call.entry.depth ∧ call.entry.pos < c.pos) ∧
      (s.calls.IsChain fun callee caller =>
        callee.Reenters caller → caller.entry.depth < callee.entry.depth) ∧
      reentries s.calls ≤ maxNesting ∧ s.calls.length ≤ 5 * (maxNesting + 1) := by
  refine ⟨exists_run_start_eq_done ts, fun n s hs => ?_⟩
  have hsound : Sound ts s := hs ▸ (sound_start ts).run n
  refine ⟨?_, hsound.pos_le, hsound.depth_le, ?_, hsound.isChain_calls, hsound.reentries_le,
    hsound.length_calls_le⟩
  · rintro c rfl
    cases hsound
  · rintro c call e callers rfl
    cases hsound with
    | answering _ _ hdepth hpos => exact ⟨hdepth, hpos⟩

/-- A factor is read again after a sign, one level deeper, and returns at that level. -/
theorem bounded_run_of_sign :
    let ts : List Token := [⟨⟨.minus, "-"⟩, 0⟩, ⟨⟨.reference, "A1"⟩, 1⟩]
    let signed : Call := ⟨.factor, ⟨0, 0⟩⟩
    let callee : Call := ⟨.factor, ⟨1, 1⟩⟩
    let callers : List Waiting := [⟨signed, .sign .negate⟩, ⟨⟨.product, ⟨0, 0⟩⟩, .first⟩,
      ⟨⟨.sum, ⟨0, 0⟩⟩, .first⟩, ⟨⟨.expression, ⟨0, 0⟩⟩, .first⟩]
    run ts 7 (start ts) = .answering ⟨2, 1⟩ callee (.reference ⟨0, 0⟩) callers ∧
      (1 = callee.entry.depth ∧ callee.entry.pos < 2) ∧
      (callee.Reenters signed ∧ signed.entry.depth < callee.entry.depth) ∧
      ∃ c, run ts (12 * 2 + 11) (start ts) = .done c (ofTokens ts) := by
  intro ts signed callee callers
  have hrun : run ts 7 (start ts) = .answering ⟨2, 1⟩ callee (.reference ⟨0, 0⟩) callers := rfl
  have hround : callee.Reenters signed := by decide
  obtain ⟨hend, hstates⟩ := bounded_run ts
  obtain ⟨-, -, -, hreturns, hchain, -, -⟩ := hstates 7 _ hrun
  exact ⟨hrun, hreturns _ _ _ _ rfl, ⟨hround, (List.isChain_cons_cons.1 hchain).1 hround⟩, hend⟩

end Bounds

end Spreadsheet.Formula.Machine
