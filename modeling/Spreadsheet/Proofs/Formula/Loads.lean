import Spreadsheet.Proofs.Formula.RoundTrip

/-!
The load at every token of a formula, counted from left to right without a tree. Its greatest value
is that of the loads of a derivation, so that it decides whether a written tree is read again.
-/
namespace Spreadsheet.Formula

/-- The operators that are open between two parentheses: those so far of the sum and of the product
that are read, and the signs in front of the operand. -/
structure Chains where
  additive : Nat
  multiplicative : Nat
  signs : Nat

/-- A place between two tokens. `around` has the operators that are open outside of each open
parenthesis, and `atOperand` tells whether an operand comes next. -/
structure Place where
  around : List Chains
  chains : Chains
  atOperand : Bool

def Chains.load (c : Chains) : Nat := c.additive + c.multiplicative + c.signs

namespace Place

/-- Before the first token. -/
def start : Place := ⟨[], ⟨0, 0, 0⟩, true⟩

/-- The number of operators and parentheses that are open. -/
def load (p : Place) : Nat := p.chains.load + (p.around.map fun c => c.load + 1).sum

/-- The place after a token. An operator ends the signs of the operand before it, and one of a sum
ends the product before it. -/
def next (p : Place) (kind : Lexeme.Kind) : Place :=
  let c := p.chains
  match p.atOperand, kind with
  | true, .plus | true, .minus => { p with chains := { c with signs := c.signs + 1 } }
  | true, .leftParen => ⟨c :: p.around, ⟨0, 0, 0⟩, true⟩
  | true, _ => { p with atOperand := false }
  | false, .plus | false, .minus => { p with chains := ⟨c.additive + 1, 0, 0⟩, atOperand := true }
  | false, .star | false, .slash =>
    { p with chains := ⟨c.additive, c.multiplicative + 1, 0⟩, atOperand := true }
  | false, .rightParen =>
    match p.around with
    | [] => p
    | c :: around => ⟨around, c, false⟩
  | false, _ => p

/-- The place after lexemes. -/
def after (p : Place) : List Lexeme → Place
  | [] => p
  | x :: xs => (p.next x.kind).after xs

/-- The load at every lexeme, itself included. -/
def loads (p : Place) : List Lexeme → List Nat
  | [] => []
  | x :: xs => (p.next x.kind).load :: (p.next x.kind).loads xs

variable {x : Lexeme} {around : List Chains} {c : Chains} {a m s : Nat}

theorem after_append (p : Place) (xs ys : List Lexeme) :
    p.after (xs ++ ys) = (p.after xs).after ys := by
  induction xs generalizing p with
  | nil => rfl
  | cons x xs ih => exact ih _

theorem loads_append (p : Place) (xs ys : List Lexeme) :
    p.loads (xs ++ ys) = p.loads xs ++ (p.after xs).loads ys := by
  induction xs generalizing p with
  | nil => rfl
  | cons x xs ih => rw [List.cons_append, loads, loads, ih, after, List.cons_append]

theorem next_sign {op : UnaryOp} (h : x.kind.sign? = some op) :
    next ⟨around, ⟨a, m, s⟩, true⟩ x.kind = ⟨around, ⟨a, m, s + 1⟩, true⟩ := by
  cases hk : x.kind <;> rw [hk] at h <;> first | rfl | cases h

theorem next_additive {op : BinaryOp} (h : x.kind.additive? = some op) :
    next ⟨around, ⟨a, m, s⟩, false⟩ x.kind = ⟨around, ⟨a + 1, 0, 0⟩, true⟩ := by
  cases hk : x.kind <;> rw [hk] at h <;> first | rfl | cases h

theorem next_multiplicative {op : BinaryOp} (h : x.kind.multiplicative? = some op) :
    next ⟨around, ⟨a, m, s⟩, false⟩ x.kind = ⟨around, ⟨a, m + 1, 0⟩, true⟩ := by
  cases hk : x.kind <;> rw [hk] at h <;> first | rfl | cases h

theorem next_leftParen :
    next ⟨around, c, true⟩ .leftParen = ⟨c :: around, ⟨0, 0, 0⟩, true⟩ := rfl

theorem next_rightParen (c' : Chains) :
    next ⟨c :: around, c', false⟩ .rightParen = ⟨around, c, false⟩ := rfl

theorem load_mk (b : Bool) : load ⟨around, ⟨a, m, s⟩, b⟩ =
    a + m + s + (around.map fun c => c.load + 1).sum := rfl

theorem load_open : load ⟨c :: around, ⟨0, 0, 0⟩, true⟩ = load ⟨around, c, true⟩ + 1 := by
  show 0 + 0 + 0 + (List.map _ (c :: around)).sum = c.load + (around.map _).sum + 1
  rw [List.map_cons, List.sum_cons]
  omega

end Place

open Place

mutual

/-- Within a factor, the open operators and parentheses around it add to its own loads. After it,
no more than its signs are left open. -/
theorem DerivesFactor.greatest_loads {xs : List Lexeme} {e : Expr} {loads : List Nat}
    (around : List Chains) (a m s : Nat) : DerivesFactor xs e loads →
      greatest (Place.loads ⟨around, ⟨a, m, s⟩, true⟩ xs) =
          load ⟨around, ⟨a, m, s⟩, true⟩ + greatest loads ∧
        ∃ s', after ⟨around, ⟨a, m, s⟩, true⟩ xs = ⟨around, ⟨a, m, s'⟩, false⟩
  | .number hk _ => by
    rw [Place.loads, Place.after, hk]
    exact ⟨Nat.max_zero _, s, rfl⟩
  | .reference hk _ => by
    rw [Place.loads, Place.after, hk]
    exact ⟨Nat.max_zero _, s, rfl⟩
  | .sign hop h => by
    obtain ⟨hloads, s', hafter⟩ := h.greatest_loads around a m (s + 1)
    constructor
    · rw [Place.loads, next_sign hop, greatest_cons, hloads, greatest_open, load_mk, load_mk]
      omega
    · exists s'
      rw [Place.after, next_sign hop, hafter]
  | .parens hl hr h => by
    obtain ⟨hloads, m', s', hafter⟩ := h.greatest_loads (⟨a, m, s⟩ :: around)
    constructor
    · rw [List.cons_append, Place.loads, hl, next_leftParen, greatest_cons, loads_append,
        greatest_append, hloads, hafter, Place.loads, hr, next_rightParen, Place.loads, greatest_cons,
        greatest_nil, load_open, greatest_open, load_mk, load_mk]
      omega
    · exists s
      rw [List.cons_append, Place.after, hl, next_leftParen, after_append, hafter, Place.after, hr,
        next_rightParen, Place.after]

theorem DerivesProduct.greatest_loads {n : Nat} {xs : List Lexeme} {e : Expr} {loads : List Nat}
    (around : List Chains) (a : Nat) : DerivesProduct n xs e loads →
      greatest (Place.loads ⟨around, ⟨a, 0, 0⟩, true⟩ xs) =
          load ⟨around, ⟨a, 0, 0⟩, true⟩ + greatest loads ∧
        ∃ s', after ⟨around, ⟨a, 0, 0⟩, true⟩ xs = ⟨around, ⟨a, n, s'⟩, false⟩
  | .factor h => h.greatest_loads around a 0 0
  | .chain hop hl hr => by
    obtain ⟨hloads, s, hafter⟩ := hl.greatest_loads around a
    obtain ⟨hloads', s', hafter'⟩ := hr.greatest_loads around a _ 0
    constructor
    · rw [loads_append, greatest_append, hloads, hafter, Place.loads, next_multiplicative hop,
        greatest_cons, hloads', greatest_chain, load_mk, load_mk]
      omega
    · exists s'
      rw [after_append, hafter, Place.after, next_multiplicative hop, hafter']

theorem DerivesSum.greatest_loads {n : Nat} {xs : List Lexeme} {e : Expr} {loads : List Nat}
    (around : List Chains) : DerivesSum n xs e loads →
      greatest (Place.loads ⟨around, ⟨0, 0, 0⟩, true⟩ xs) =
          load ⟨around, ⟨0, 0, 0⟩, true⟩ + greatest loads ∧
        ∃ m s', after ⟨around, ⟨0, 0, 0⟩, true⟩ xs = ⟨around, ⟨n, m, s'⟩, false⟩
  | .product h => by
    obtain ⟨hloads, hafter⟩ := h.greatest_loads around 0
    exact ⟨hloads, _, hafter⟩
  | .chain (m := k) hop hl hr => by
    obtain ⟨hloads, m, s, hafter⟩ := hl.greatest_loads around
    obtain ⟨hloads', s', hafter'⟩ := hr.greatest_loads around _
    constructor
    · rw [loads_append, greatest_append, hloads, hafter, Place.loads, next_additive hop,
        greatest_cons, hloads', greatest_chain, load_mk, load_mk]
      omega
    · exists k, s'
      rw [after_append, hafter, Place.after, next_additive hop, hafter']

end

/-- What is written for a tree has a derivation. -/
theorem exists_derivesSum_lexemes {e : Expr} (he : e.Writable) :
    ∃ n loads, DerivesSum n e.lexemes e loads ∧ greatest loads = e.load := by
  have hreads := (readsBack_of_writable he).sum
  have hmap := Token.map_place 0 e.lexemes
  have hsum := (hreads.whole hmap 0 e.load).1 (Nat.le_refl _)
  obtain ⟨n, us, loads, hus, hderives, -⟩ := derives_of_sum hsum
  rw [List.append_nil] at hus
  rw [← hus, hmap] at hderives
  exact ⟨n, loads, hderives, (hderives.reads.unique hreads).2⟩

/-- The load at every token of a formula. -/
def loads (ts : List Token) : List Nat := Place.start.loads (ts.map Token.toLexeme)

theorem greatest_loads_place {e : Expr} (he : e.Writable) :
    greatest (loads (Token.place 0 e.lexemes)) = e.load := by
  obtain ⟨n, l, hderives, hload⟩ := exists_derivesSum_lexemes he
  have hgreatest := (hderives.greatest_loads []).1
  rw [hload] at hgreatest
  rw [loads, Token.map_place]
  exact hgreatest.trans (Nat.zero_add _)

/-- A tree of any shape is read back from its text where no token of the text has a load that is too
great, and refused for its nesting elsewhere. -/
theorem parse_text_of_loads {e : Expr} (he : e.Writable) :
    ∃ ts, tokenize e.text = .ok ts ∧ ts.map Token.toLexeme = e.lexemes ∧
      ((∀ k ∈ loads ts, k ≤ maxNesting) → parse e.text = .ok e) ∧
      ((∃ k ∈ loads ts, maxNesting < k) →
        ∃ position, parse e.text = .error (.malformed position .tooDeep)) := by
  have htext : e.text.toList = e.lexemes.flatMap fun x => x.text.toList := by
    rw [Expr.text, String.toList_join, List.flatMap_map]
  have hgreatest := greatest_loads_place he
  obtain ⟨hle, hlt⟩ := parse_text he
  exists Token.place 0 e.lexemes
  constructor
  · rw [tokenize, htext]
    exact Token.scan_flatMap 0 (Expr.wellFormed_lexemes he) e.isChain_lexemes
  · constructor
    · exact Token.map_place 0 e.lexemes
    · constructor
      · intro h
        apply hle
        rw [← hgreatest]
        exact greatest_le_iff.2 h
      · intro h
        apply hlt
        rw [← hgreatest]
        exact lt_greatest_iff.2 h

/-- The parentheses of `A1-(A2+A3)` are open for its second operand, and so is the minus. -/
theorem parse_text_of_loads_of_difference :
    let e : Expr := .binary .subtract (.reference ⟨0, 0⟩)
      (.binary .add (.reference ⟨1, 0⟩) (.reference ⟨2, 0⟩))
    ∃ ts, tokenize e.text = .ok ts ∧ loads ts = [0, 1, 2, 2, 3, 3, 1] ∧ parse e.text = .ok e := by
  intro e
  have h0 : Address.Nameable ⟨0, 0⟩ := by decide
  have h1 : Address.Nameable ⟨1, 0⟩ := by decide
  have h2 : Address.Nameable ⟨2, 0⟩ := by decide
  have he : e.Writable := ⟨h0, h1, h2⟩
  obtain ⟨ts, hts, hmap, hparse, -⟩ := parse_text_of_loads he
  have hloads : loads ts = [0, 1, 2, 2, 3, 3, 1] := by
    rw [loads, hmap]
    rfl
  exists ts
  constructor
  · exact hts
  · constructor
    · exact hloads
    · apply hparse
      rw [hloads]
      decide

end Spreadsheet.Formula
