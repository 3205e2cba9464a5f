import Spreadsheet.Formula.Parse
import Spreadsheet.Proofs.Address.Form
import Spreadsheet.Proofs.Number.RoundTrip

/-! How deep the written form of a tree nests, and what the parser makes of it. -/
namespace Spreadsheet

namespace Expr

/-- Whether all numbers are finite and without a sign, and a text may name all addresses. -/
def Writable : Expr → Prop
  | literal x => Number.Unsigned x
  | reference cell => cell.Nameable
  | unary _ operand => operand.Writable
  | binary _ left right => left.Writable ∧ right.Writable

/-- The length of the chain of operators of one level that ends with the outermost operator. -/
def spine (level : Nat) : Expr → Nat
  | binary op left _ => if op.level = level then left.spine level + 1 else 0
  | _ => 0

/-- The greatest number of operators and parentheses that are open around a place of the written
form. An operator of a chain stays open for the rest of its chain. -/
def load : Expr → Nat
  | literal _ | reference _ => 0
  | unary _ operand => operand.load + (if operand.level < 3 then 1 else 0) + 1
  | binary op left right =>
    max (left.load + if left.level < op.level then 1 else 0)
      (left.spine op.level + 1 + (right.load + if right.level ≤ op.level then 1 else 0))

/-- No operator binds less tight than that of a sum. -/
theorem one_le_level (e : Expr) : 1 ≤ e.level := by
  cases e with
  | binary op left right => cases op <;> exact Nat.le_add_left 1 _
  | literal x => exact Nat.le_add_left 1 3
  | reference cell => exact Nat.le_add_left 1 3
  | unary op operand => exact Nat.le_add_left 1 2

theorem lexemes_ne_nil (e : Expr) : e.lexemes ≠ [] := by
  cases e <;> simp [lexemes]

theorem spine_eq_zero {e : Expr} {level : Nat} (h : e.level ≠ level) : e.spine level = 0 := by
  cases e with
  | binary op left right => exact if_neg h
  | literal x => rfl
  | reference cell => rfl
  | unary op operand => rfl

end Expr

namespace Formula

/-! One step of each reader. -/

section Steps

variable {stop room : Nat} {left e : Expr} {ts rest : List Token} {t u : Token}

theorem factor_of_sign?_eq_none (ht : t.kind.sign? = none) (stop room : Nat) (rest : List Token) :
    factor stop room (t :: rest) = operand stop room t rest := by
  rw [factor, ht]

theorem factor_sign_of_error {op : UnaryOp} {e : FormulaError} (ht : t.kind.sign? = some op)
    (h : factor stop room ts = .error e) : factor stop (room + 1) (t :: ts) = .error e := by
  rw [factor, ht]
  simp only [h]

theorem factor_sign_of_ok {op : UnaryOp} (ht : t.kind.sign? = some op)
    (h : factor stop room ts = .ok (e, rest)) :
    factor stop (room + 1) (t :: ts) = .ok (.unary op e, rest) := by
  rw [factor, ht]
  simp only [h]

theorem factor_leftParen (ht : t.kind = .leftParen) (stop room : Nat) (rest : List Token) :
    factor stop room (t :: rest) = operand stop room t rest := by
  have hsign : t.kind.sign? = none := by
    rw [ht]
    rfl
  exact factor_of_sign?_eq_none hsign stop room rest

theorem factor_leftParen_of_error {e : FormulaError} (ht : t.kind = .leftParen)
    (h : sum stop room ts = .error e) : factor stop (room + 1) (t :: ts) = .error e := by
  rw [factor_leftParen ht, operand.eq_def, ht]
  simp only [h]

theorem factor_leftParen_of_ok (ht : t.kind = .leftParen) (hu : u.kind = .rightParen)
    (h : sum stop room ts = .ok (e, u :: rest)) :
    factor stop (room + 1) (t :: ts) = .ok (e, rest) := by
  rw [factor_leftParen ht, operand.eq_def, ht]
  simp only [h, if_pos hu]

/-- Another token stands in the place of the closing parenthesis. -/
theorem factor_leftParen_of_kind_ne (ht : t.kind = .leftParen)
    (hu : u.kind ≠ .rightParen) (h : sum stop room ts = .ok (e, u :: rest)) :
    factor stop (room + 1) (t :: ts) = .error (.malformed u.position (.expectedClose u.text)) := by
  rw [factor_leftParen ht, operand.eq_def, ht]
  simp only [h, if_neg hu]

/-- The tokens end in the place of the closing parenthesis. -/
theorem factor_leftParen_of_nil (ht : t.kind = .leftParen) (h : sum stop room ts = .ok (e, [])) :
    factor stop (room + 1) (t :: ts) = .error (.malformed stop (.unclosed t.position)) := by
  rw [factor_leftParen ht, operand.eq_def, ht]
  simp only [h]

theorem productChain_cons_of_error {op : BinaryOp} {e : FormulaError}
    (ht : t.kind.multiplicative? = some op) (h : factor stop room ts = .error e) :
    productChain stop (room + 1) left (t :: ts) = .error e := by
  rw [productChain, ht]
  simp only [h]

theorem productChain_cons_of_ok {op : BinaryOp} {right : Expr}
    (ht : t.kind.multiplicative? = some op) (h : factor stop room ts = .ok (right, rest)) :
    productChain stop (room + 1) left (t :: ts) =
      productChain stop room (.binary op left right) rest := by
  rw [productChain, ht]
  simp only [h]

theorem sumChain_cons_of_error {op : BinaryOp} {e : FormulaError}
    (ht : t.kind.additive? = some op) (h : product stop room ts = .error e) :
    sumChain stop (room + 1) left (t :: ts) = .error e := by
  rw [sumChain, ht]
  simp only [h]

theorem sumChain_cons_of_ok {op : BinaryOp} {right : Expr} (ht : t.kind.additive? = some op)
    (h : product stop room ts = .ok (right, rest)) :
    sumChain stop (room + 1) left (t :: ts) =
      sumChain stop room (.binary op left right) rest := by
  rw [sumChain, ht]
  simp only [h]

end Steps

/-- Whether the parser comes to `next` where there is room for `load`, and refuses the nesting
elsewhere. -/
def Takes (load room : Nat) (parsed next : Parsed) : Prop :=
  (load ≤ room → parsed = next) ∧
    (room < load → ∃ position, parsed = .error (.malformed position .tooDeep))

theorem tooDeep_eq (stop : Nat) (ts : List Token) :
    ∃ position, tooDeep stop ts = .malformed position .tooDeep := by
  cases ts with
  | nil => exact ⟨stop, rfl⟩
  | cons t ts => exact ⟨t.position, rfl⟩

section Takes

variable {n m c room stop : Nat} {r k k' : Parsed} {e left right : Expr} {ts rest : List Token}
  {t u : Token}

theorem Takes.trans (h : Takes n room r k) (h' : Takes m room k k') :
    Takes (max n m) room r k' := by
  constructor
  · intro hle
    rw [h.1 (by omega)]
    exact h'.1 (by omega)
  · intro hlt
    by_cases hn : n ≤ room
    · rw [h.1 hn]
      exact h'.2 (by omega)
    · exact h.2 (by omega)

/-- The next step goes on from what was read and hands a refusal on. -/
theorem Takes.next {r' : Parsed} (h : Takes n room r k) (hok : r = k → r' = k')
    (herror : ∀ fault, r = .error fault → r' = .error fault) : Takes n room r' k' := by
  constructor
  · intro hle
    exact hok (h.1 hle)
  · intro hlt
    obtain ⟨position, hp⟩ := h.2 hlt
    exact ⟨position, herror _ hp⟩

theorem Takes.succ (h : Takes n room r k) : Takes (n + 1) (room + 1) r k :=
  ⟨fun hle => h.1 (by omega), fun hlt => h.2 (by omega)⟩

theorem Takes.le_of_eq_ok {read : Expr × List Token} (h : Takes n room r k)
    (hr : r = .ok read) : n ≤ room := by
  by_contra hlt
  obtain ⟨position, hp⟩ := h.2 (Nat.not_le.1 hlt)
  rw [hr] at hp
  cases hp

theorem takes_tooDeep : Takes (n + 1) 0 (.error (tooDeep stop ts)) k := by
  obtain ⟨position, hp⟩ := tooDeep_eq stop ts
  exact ⟨fun hle => by omega, fun _ => ⟨position, by rw [hp]⟩⟩

/-- The operators that are open already count as well. -/
theorem Takes.add_left (h : Takes (n + 1) (room - c) r k) : Takes (c + 1 + n) room r k :=
  ⟨fun hle => h.1 (by omega), fun hlt => h.2 (by omega)⟩

theorem takes_product (h : Takes n room (factor stop room ts) (.ok (e, rest))) :
    Takes n room (product stop room ts) (productChain stop room e rest) := by
  rw [product]
  exact h.next (fun hr => by rw [hr]) fun _ hr => by rw [hr]

theorem takes_sum (h : Takes n room (product stop room ts) (.ok (e, rest))) :
    Takes n room (sum stop room ts) (sumChain stop room e rest) := by
  rw [sum]
  exact h.next (fun hr => by rw [hr]) fun _ hr => by rw [hr]

theorem takes_sign {op : UnaryOp} (hop : t.kind.sign? = some op)
    (h : ∀ room, Takes n room (factor stop room ts) (.ok (e, rest))) :
    Takes (n + 1) room (factor stop room (t :: ts)) (.ok (.unary op e, rest)) := by
  cases room with
  | zero =>
    rw [factor, hop]
    exact takes_tooDeep
  | succ room =>
    apply Takes.succ
    exact (h room).next (factor_sign_of_ok hop) fun _ => factor_sign_of_error hop

theorem takes_parens (ht : t.kind = .leftParen) (hu : u.kind = .rightParen)
    (h : ∀ room, Takes n room (sum stop room ts) (.ok (e, u :: rest))) :
    Takes (n + 1) room (factor stop room (t :: ts)) (.ok (e, rest)) := by
  cases room with
  | zero =>
    rw [factor_leftParen ht, operand.eq_def, ht]
    exact takes_tooDeep
  | succ room =>
    apply Takes.succ
    exact (h room).next (factor_leftParen_of_ok ht hu) fun _ => factor_leftParen_of_error ht

theorem takes_productChain {op : BinaryOp} (hop : t.kind.multiplicative? = some op)
    (h : ∀ room, Takes n room (factor stop room ts) (.ok (right, rest))) (room : Nat) :
    Takes (n + 1) room (productChain stop room left (t :: ts))
      (productChain stop (room - 1) (.binary op left right) rest) := by
  cases room with
  | zero =>
    rw [productChain, hop]
    exact takes_tooDeep
  | succ room =>
    apply Takes.succ
    exact (h room).next (productChain_cons_of_ok hop) fun _ => productChain_cons_of_error hop

theorem takes_sumChain {op : BinaryOp} (hop : t.kind.additive? = some op)
    (h : ∀ room, Takes n room (product stop room ts) (.ok (right, rest))) (room : Nat) :
    Takes (n + 1) room (sumChain stop room left (t :: ts))
      (sumChain stop (room - 1) (.binary op left right) rest) := by
  cases room with
  | zero =>
    rw [sumChain, hop]
    exact takes_tooDeep
  | succ room =>
    apply Takes.succ
    exact (h room).next (sumChain_cons_of_ok hop) fun _ => sumChain_cons_of_error hop

/-- Whether no operator of a product comes next. -/
def EndsProduct (ts : List Token) : Prop := ∀ t ∈ ts.head?, t.kind.multiplicative? = none

theorem endsProduct_nil : EndsProduct [] := by
  intro t ht
  cases ht

theorem endsProduct_cons (h : t.kind.multiplicative? = none) (ts : List Token) :
    EndsProduct (t :: ts) := by
  intro u hu
  cases hu
  exact h

theorem productChain_of_endsProduct (h : EndsProduct rest) :
    productChain stop room e rest = .ok (e, rest) := by
  cases rest with
  | nil => rw [productChain]
  | cons t rest => rw [productChain, h t rfl]

end Takes

/-- Whether the lexemes `xs` are read as the factor `e` wherever there is room for `load`. -/
def ReadsFactor (e : Expr) (xs : List Lexeme) (load : Nat) : Prop :=
  ∀ ts : List Token, ts.map Token.toLexeme = xs → ∀ stop room rest,
    Takes load room (factor stop room (ts ++ rest)) (.ok (e, rest))

/-- Whether the lexemes `xs` are read as the product `e`, in a chain of `length` operators. -/
def ReadsProduct (e : Expr) (xs : List Lexeme) (load length : Nat) : Prop :=
  ∀ ts : List Token, ts.map Token.toLexeme = xs → ∀ stop room rest,
    Takes load room (product stop room (ts ++ rest)) (productChain stop (room - length) e rest)

/-- Whether the lexemes `xs` are read as the sum `e`, in a chain of `length` operators. -/
def ReadsSum (e : Expr) (xs : List Lexeme) (load length : Nat) : Prop :=
  ∀ ts : List Token, ts.map Token.toLexeme = xs → ∀ stop room rest, EndsProduct rest →
    Takes load room (sum stop room (ts ++ rest)) (sumChain stop (room - length) e rest)

variable {e left right : Expr} {x l r : Lexeme} {xs ys : List Lexeme} {n m c d : Nat}

theorem ReadsFactor.product (h : ReadsFactor e xs n) : ReadsProduct e xs n 0 :=
  fun ts hts stop room rest => takes_product (h ts hts stop room rest)

/-- A product that no operator of a product follows is whole. -/
theorem ReadsProduct.whole (h : ReadsProduct e xs n c) {ts rest : List Token}
    (hts : ts.map Token.toLexeme = xs) (hrest : EndsProduct rest) (stop room : Nat) :
    Takes n room (Formula.product stop room (ts ++ rest)) (.ok (e, rest)) := by
  have hp := h ts hts stop room rest
  rwa [productChain_of_endsProduct hrest] at hp

theorem ReadsProduct.sum (h : ReadsProduct e xs n c) : ReadsSum e xs n 0 :=
  fun _ hts stop room _ hrest => takes_sum (h.whole hts hrest stop room)

theorem ReadsFactor.sign {op : UnaryOp} (hop : x.kind.sign? = some op) (h : ReadsFactor e xs n) :
    ReadsFactor (.unary op e) (x :: xs) (n + 1) := by
  intro ts hts stop room rest
  obtain ⟨t, us, rfl, rfl, hus⟩ := List.map_eq_cons_iff.1 hts
  exact takes_sign hop fun room => h us hus stop room rest

theorem ReadsFactor.unary (op : UnaryOp) (h : ReadsFactor e xs n) :
    ReadsFactor (.unary op e) (op.lexeme :: xs) (n + 1) := by
  refine h.sign ?_
  cases op <;> rfl

/-- Between parentheses there is room for a sum. -/
theorem ReadsSum.between (hl : l.kind = .leftParen) (hr : r.kind = .rightParen)
    (h : ReadsSum e xs n c) : ReadsFactor e (l :: xs ++ [r]) (n + 1) := by
  intro tokens htokens stop room rest
  obtain ⟨ts₁, ts₂, rfl, hts₁, hts₂⟩ := List.map_eq_append_iff.1 htokens
  obtain ⟨t, ts, rfl, rfl, hts⟩ := List.map_eq_cons_iff.1 hts₁
  obtain ⟨u, us, rfl, rfl, hus⟩ := List.map_eq_cons_iff.1 hts₂
  obtain rfl := List.map_eq_nil_iff.1 hus
  have hnone : u.kind.multiplicative? = none := by
    rw [hr]
    rfl
  rw [List.cons_append, List.cons_append, List.append_assoc, List.singleton_append]
  refine takes_parens hl hr fun room => ?_
  have hs := h ts hts stop room (u :: rest) (endsProduct_cons hnone rest)
  rw [sumChain, hr] at hs
  exact hs

theorem ReadsSum.parens (h : ReadsSum e xs n c) :
    ReadsFactor e (⟨.leftParen, "("⟩ :: xs ++ [⟨.rightParen, ")"⟩]) (n + 1) :=
  h.between rfl rfl

theorem ReadsProduct.chain {op : BinaryOp} (hop : x.kind.multiplicative? = some op)
    (hl : ReadsProduct left xs n c) (hr : ReadsFactor right ys m) :
    ReadsProduct (.binary op left right) (xs ++ x :: ys) (max n (c + 1 + m)) (c + 1) := by
  intro ts hts stop room rest
  obtain ⟨ts₁, ts₂, rfl, hts₁, hts₂⟩ := List.map_eq_append_iff.1 hts
  obtain ⟨t, us, rfl, rfl, hus⟩ := List.map_eq_cons_iff.1 hts₂
  rw [List.append_assoc, List.cons_append]
  refine (hl ts₁ hts₁ stop room _).trans (Takes.add_left ?_)
  exact takes_productChain hop (fun room => hr us hus stop room rest) (room - c)

theorem ReadsProduct.binary {op : BinaryOp} (hop : op.level = 2) (hl : ReadsProduct left xs n c)
    (hr : ReadsFactor right ys m) :
    ReadsProduct (.binary op left right) (xs ++ op.lexeme :: ys) (max n (c + 1 + m)) (c + 1) := by
  refine hl.chain ?_ hr
  cases op <;> first | rfl | cases hop

/-- No token is an operator of a sum and of a product. -/
theorem multiplicative?_eq_none {kind : Lexeme.Kind} {op : BinaryOp}
    (hop : kind.additive? = some op) : kind.multiplicative? = none := by
  cases kind <;> first | rfl | cases hop

theorem ReadsSum.chain {op : BinaryOp} (hop : x.kind.additive? = some op)
    (hl : ReadsSum left xs n c) (hr : ReadsProduct right ys m d) :
    ReadsSum (.binary op left right) (xs ++ x :: ys) (max n (c + 1 + m)) (c + 1) := by
  intro ts hts stop room rest hrest
  obtain ⟨ts₁, ts₂, rfl, hts₁, hts₂⟩ := List.map_eq_append_iff.1 hts
  obtain ⟨t, us, rfl, rfl, hus⟩ := List.map_eq_cons_iff.1 hts₂
  have hnext := endsProduct_cons (multiplicative?_eq_none hop) (us ++ rest)
  rw [List.append_assoc, List.cons_append]
  refine (hl ts₁ hts₁ stop room _ hnext).trans (Takes.add_left ?_)
  exact takes_sumChain hop (hr.whole hus hrest stop) (room - c)

theorem ReadsSum.binary {op : BinaryOp} (hop : op.level = 1) (hl : ReadsSum left xs n c)
    (hr : ReadsProduct right ys m d) :
    ReadsSum (.binary op left right) (xs ++ op.lexeme :: ys) (max n (c + 1 + m)) (c + 1) := by
  refine hl.chain ?_ hr
  cases op <;> first | rfl | cases hop

theorem readsFactor_number {value : Float} (hk : x.kind = .number)
    (hvalue : Number.read? x.text = some value) : ReadsFactor (.literal value) [x] 0 := by
  intro ts hts stop room rest
  obtain ⟨t, us, rfl, rfl, hus⟩ := List.map_eq_cons_iff.1 hts
  obtain rfl := List.map_eq_nil_iff.1 hus
  refine ⟨fun _ => ?_, fun hlt => by omega⟩
  rw [List.singleton_append, factor, hk]
  simp only [Lexeme.Kind.sign?]
  rw [operand.eq_def, hk]
  simp only [hvalue]

theorem readsFactor_name {cell : Address} (hk : x.kind = .reference)
    (hcell : Address.parse x.text = .ok cell) : ReadsFactor (.reference cell) [x] 0 := by
  intro ts hts stop room rest
  obtain ⟨t, us, rfl, rfl, hus⟩ := List.map_eq_cons_iff.1 hts
  obtain rfl := List.map_eq_nil_iff.1 hus
  refine ⟨fun _ => ?_, fun hlt => by omega⟩
  rw [List.singleton_append, factor, hk]
  simp only [Lexeme.Kind.sign?]
  rw [operand.eq_def, hk]
  simp only [addressOf, hcell]

theorem readsFactor_literal {x : Float} (h : Number.Unsigned x) :
    ReadsFactor (.literal x) (Expr.literal x).lexemes 0 :=
  readsFactor_number rfl (Number.read?_text h)

theorem readsFactor_reference {cell : Address} (h : cell.Nameable) :
    ReadsFactor (.reference cell) (Expr.reference cell).lexemes 0 :=
  readsFactor_name rfl (Address.parse_text h)

/-- Whether a tree is read back from its written form at every place where the form may stand,
provided that there is room for its load. -/
structure ReadsBack (e : Expr) : Prop where
  factor : 3 ≤ e.level → ReadsFactor e e.lexemes e.load
  product : 2 ≤ e.level → ReadsProduct e e.lexemes e.load (e.spine 2)
  sum : ReadsSum e e.lexemes e.load (e.spine 1)

theorem ReadsBack.of_factor (h3 : 3 ≤ e.level) (h : ReadsFactor e e.lexemes e.load) :
    ReadsBack e := by
  have h2 : e.spine 2 = 0 := Expr.spine_eq_zero (by omega)
  have h1 : e.spine 1 = 0 := Expr.spine_eq_zero (by omega)
  refine ⟨fun _ => h, fun _ => ?_, ?_⟩
  · rw [h2]
    exact h.product
  · rw [h1]
    exact h.product.sum

/-- Parentheses cost one level where they are written. -/
theorem ReadsBack.enclose (h : ReadsBack e) {level : Nat} (hlevel : 3 ≤ level) :
    ReadsFactor e (Expr.enclose (e.level < level) e.lexemes)
      (e.load + if e.level < level then 1 else 0) := by
  by_cases hlt : e.level < level
  · simp only [hlt, decide_true, Expr.enclose, if_true]
    exact h.sum.parens
  · simp only [hlt, decide_false, Expr.enclose, if_false]
    exact h.factor (by omega)

/-- The first operand of a product. -/
theorem ReadsBack.enclose_left (h : ReadsBack e) :
    ReadsProduct e (Expr.enclose (e.level < 2) e.lexemes) (e.load + if e.level < 2 then 1 else 0)
      (e.spine 2) := by
  by_cases hlt : e.level < 2
  · rw [Expr.spine_eq_zero (by omega)]
    simp only [hlt, decide_true, Expr.enclose, if_true]
    exact h.sum.parens.product
  · simp only [hlt, decide_false, Expr.enclose, if_false]
    exact h.product (by omega)

/-- The second operand of a sum. -/
theorem ReadsBack.enclose_right (h : ReadsBack e) :
    ∃ length, ReadsProduct e (Expr.enclose (e.level ≤ 1) e.lexemes)
      (e.load + if e.level ≤ 1 then 1 else 0) length := by
  by_cases hle : e.level ≤ 1
  · simp only [hle, decide_true, Expr.enclose, if_true]
    exact ⟨0, h.sum.parens.product⟩
  · simp only [hle, decide_false, Expr.enclose, if_false]
    exact ⟨_, h.product (by omega)⟩

theorem ReadsBack.unary (op : UnaryOp) (h : ReadsBack e) : ReadsBack (.unary op e) :=
  .of_factor (Nat.le_refl 3) ((h.enclose (Nat.le_refl 3)).unary op)

theorem ReadsBack.binary_product {op : BinaryOp} (hop : op.level = 2) (hl : ReadsBack left)
    (hr : ReadsBack right) : ReadsBack (.binary op left right) := by
  have hlevel : (Expr.binary op left right).level = 2 := hop
  have h2 : (Expr.binary op left right).spine 2 = left.spine 2 + 1 := if_pos hop
  have h1 : (Expr.binary op left right).spine 1 = 0 := Expr.spine_eq_zero (by omega)
  have hright := hr.enclose (Nat.le_refl 3)
  simp only [Nat.lt_succ_iff] at hright
  have hp := hl.enclose_left.binary hop hright
  refine ⟨fun h => by omega, fun _ => ?_, ?_⟩
  · rw [h2, Expr.lexemes, Expr.load, hop]
    exact hp
  · rw [h1, Expr.lexemes, Expr.load, hop]
    exact hp.sum

theorem ReadsBack.binary_sum {op : BinaryOp} (hop : op.level = 1) (hl : ReadsBack left)
    (hr : ReadsBack right) : ReadsBack (.binary op left right) := by
  have hlevel : (Expr.binary op left right).level = 1 := hop
  have h1 : (Expr.binary op left right).spine 1 = left.spine 1 + 1 := if_pos hop
  obtain ⟨length, hright⟩ := hr.enclose_right
  have hs := hl.sum.binary hop hright
  have hleft : ¬ left.level < 1 := Nat.not_lt.2 left.one_le_level
  refine ⟨fun h => by omega, fun h => by omega, ?_⟩
  rw [h1, Expr.lexemes, Expr.load, hop, if_neg hleft]
  simp only [hleft, decide_false, Expr.enclose, Nat.add_zero]
  exact hs

theorem readsBack_of_writable (he : e.Writable) : ReadsBack e := by
  induction e with
  | literal x => exact .of_factor (Nat.le_succ 3) (readsFactor_literal he)
  | reference cell => exact .of_factor (Nat.le_succ 3) (readsFactor_reference he)
  | unary op operand ih => exact (ih he).unary op
  | binary op left right ihl ihr =>
    cases op with
    | add | subtract => exact .binary_sum rfl (ihl he.1) (ihr he.2)
    | multiply | divide => exact .binary_product rfl (ihl he.1) (ihr he.2)

/-- All tokens belong to the sum if nothing follows. -/
theorem ReadsSum.whole (h : ReadsSum e xs n c) {ts : List Token}
    (hts : ts.map Token.toLexeme = xs) (stop room : Nat) :
    Takes n room (Formula.sum stop room ts) (.ok (e, [])) := by
  have hs := h ts hts stop room [] endsProduct_nil
  rwa [List.append_nil, sumChain] at hs

/-- Lexemes are read as one sum at most. -/
theorem ReadsSum.unique {e' : Expr} (h : ReadsSum e xs n c) (h' : ReadsSum e' xs m d) :
    e = e' ∧ n = m := by
  have hts : (xs.map fun x => (⟨x, 0⟩ : Token)).map Token.toLexeme = xs := by
    rw [List.map_map]
    exact List.map_id xs
  have hs := h.whole hts 0
  have hs' := h'.whole hts 0
  constructor
  · have heq := ((hs _).1 (Nat.le_max_left n m)).symm.trans ((hs' _).1 (Nat.le_max_right n m))
    cases heq
    rfl
  · exact Nat.le_antisymm ((hs m).le_of_eq_ok ((hs' m).1 (Nat.le_refl m)))
      ((hs' n).le_of_eq_ok ((hs n).1 (Nat.le_refl n)))

/-- What tokens come to that are read as a sum. -/
theorem ReadsSum.ofTokens (h : ReadsSum e xs n c) {ts : List Token}
    (hts : ts.map Token.toLexeme = xs) (hne : xs ≠ []) :
    (n ≤ maxNesting → Formula.ofTokens ts = .ok e) ∧
      (maxNesting < n →
        ∃ position, Formula.ofTokens ts = .error (.malformed position .tooDeep)) := by
  have hempty : ts.isEmpty = false := by
    rw [List.isEmpty_eq_false_iff]
    rintro rfl
    exact hne hts.symm
  obtain ⟨hle, hlt⟩ := h.whole hts (stopOf ts) maxNesting
  unfold Formula.ofTokens
  rw [hempty]
  constructor
  · intro hn
    simp only [hle hn]
    rfl
  · intro hn
    obtain ⟨position, hp⟩ := hlt hn
    exact ⟨position, by simp only [hp]; rfl⟩

end Formula

end Spreadsheet
