import Spreadsheet.Proofs.Formula.Nesting

/-!
The grammar of formulas, with the load of every operator and opening parenthesis: how many signs,
parentheses and operators of a chain are open there, itself included. The parser accepts what has
a derivation without a load that is too great.
-/
namespace Spreadsheet

/-- Whether lexemes of a kind are signs or operators. -/
inductive Lexeme.Kind.IsOperator : Kind → Prop where
  | plus : IsOperator .plus
  | minus : IsOperator .minus
  | star : IsOperator .star
  | slash : IsOperator .slash

namespace Lexeme.Kind

variable {kind : Kind}

theorem isOperator_of_sign? {op : UnaryOp} (h : kind.sign? = some op) : kind.IsOperator := by
  cases kind <;> cases h <;> constructor

theorem isOperator_of_multiplicative? {op : BinaryOp} (h : kind.multiplicative? = some op) :
    kind.IsOperator := by
  cases kind <;> cases h <;> constructor

theorem isOperator_of_additive? {op : BinaryOp} (h : kind.additive? = some op) :
    kind.IsOperator := by
  cases kind <;> cases h <;> constructor

/-- No operator is an operand. -/
theorem IsOperator.ne (h : kind.IsOperator) : kind ≠ .number ∧ kind ≠ .reference := by
  constructor <;> rintro rfl <;> cases h

end Lexeme.Kind

namespace Formula

/-- The greatest of the loads of a derivation. -/
def greatest (loads : List Nat) : Nat := loads.foldr max 0

section greatest

variable {loads loads' : List Nat} {n : Nat}

@[simp] theorem greatest_nil : greatest [] = 0 := rfl

theorem greatest_cons (n : Nat) (loads : List Nat) :
    greatest (n :: loads) = max n (greatest loads) := rfl

theorem greatest_le_iff : greatest loads ≤ n ↔ ∀ k ∈ loads, k ≤ n := by
  induction loads with
  | nil => simp
  | cons k loads ih =>
    rw [List.forall_mem_cons, ← ih]
    exact Nat.max_le

theorem lt_greatest_iff : n < greatest loads ↔ ∃ k ∈ loads, n < k := by
  rw [← Nat.not_le, greatest_le_iff]
  push Not
  rfl

theorem greatest_append : greatest (loads ++ loads') = max (greatest loads) (greatest loads') := by
  refine eq_of_forall_ge_iff fun n => ?_
  simp only [greatest_le_iff, max_le_iff, List.forall_mem_append]

/-- What opens at the load `n` stays open for all that stands in it. -/
theorem greatest_open : greatest (n :: loads.map (n + ·)) = n + greatest loads := by
  induction loads with
  | nil => simp [greatest]
  | cons k loads ih =>
    simp only [greatest, List.map_cons, List.foldr_cons] at ih ⊢
    omega

/-- The operator of a chain stays open for its right operand. -/
theorem greatest_chain :
    greatest (loads ++ n :: loads'.map (n + ·)) = max (greatest loads) (n + greatest loads') := by
  rw [greatest_append, greatest_open]

end greatest

mutual

/-- The factors: `factor = ("-" | "+") factor | number | reference | "(" sum ")"`. -/
inductive DerivesFactor : List Lexeme → Expr → List Nat → Prop where
  | number {x : Lexeme} {value : Float} (hk : x.kind = .number)
      (hvalue : Number.read? x.text = some value) : DerivesFactor [x] (.literal value) []
  | reference {x : Lexeme} {cell : Address} (hk : x.kind = .reference)
      (hcell : Address.parse x.text = .ok cell) : DerivesFactor [x] (.reference cell) []
  | sign {x : Lexeme} {op : UnaryOp} {xs : List Lexeme} {e : Expr} {loads : List Nat}
      (hop : x.kind.sign? = some op) (h : DerivesFactor xs e loads) :
      DerivesFactor (x :: xs) (.unary op e) (1 :: loads.map (1 + ·))
  | parens {l r : Lexeme} {n : Nat} {xs : List Lexeme} {e : Expr} {loads : List Nat}
      (hl : l.kind = .leftParen) (hr : r.kind = .rightParen) (h : DerivesSum n xs e loads) :
      DerivesFactor (l :: xs ++ [r]) e (1 :: loads.map (1 + ·))

/-- The products with a given number of operators in their chain:
`product = factor (("*" | "/") factor)*`. -/
inductive DerivesProduct : Nat → List Lexeme → Expr → List Nat → Prop where
  | factor {xs : List Lexeme} {e : Expr} {loads : List Nat} (h : DerivesFactor xs e loads) :
      DerivesProduct 0 xs e loads
  | chain {x : Lexeme} {op : BinaryOp} {n : Nat} {xs ys : List Lexeme} {left right : Expr}
      {loads loads' : List Nat} (hop : x.kind.multiplicative? = some op)
      (hl : DerivesProduct n xs left loads) (hr : DerivesFactor ys right loads') :
      DerivesProduct (n + 1) (xs ++ x :: ys) (.binary op left right)
        (loads ++ (n + 1) :: loads'.map (n + 1 + ·))

/-- The sums with a given number of operators in their chain:
`sum = product (("+" | "-") product)*`. -/
inductive DerivesSum : Nat → List Lexeme → Expr → List Nat → Prop where
  | product {n : Nat} {xs : List Lexeme} {e : Expr} {loads : List Nat}
      (h : DerivesProduct n xs e loads) : DerivesSum 0 xs e loads
  | chain {x : Lexeme} {op : BinaryOp} {n m : Nat} {xs ys : List Lexeme} {left right : Expr}
      {loads loads' : List Nat} (hop : x.kind.additive? = some op)
      (hl : DerivesSum n xs left loads) (hr : DerivesProduct m ys right loads') :
      DerivesSum (n + 1) (xs ++ x :: ys) (.binary op left right)
        (loads ++ (n + 1) :: loads'.map (n + 1 + ·))

end

mutual

theorem DerivesFactor.reads {xs : List Lexeme} {e : Expr} {loads : List Nat} :
    DerivesFactor xs e loads → ReadsFactor e xs (greatest loads)
  | .number hk hvalue => readsFactor_number hk hvalue
  | .reference hk hcell => readsFactor_name hk hcell
  | .sign hop h => by
    rw [greatest_open, Nat.add_comm]
    exact h.reads.sign hop
  | .parens hl hr h => by
    rw [greatest_open, Nat.add_comm]
    exact h.reads.between hl hr

theorem DerivesProduct.reads {n : Nat} {xs : List Lexeme} {e : Expr} {loads : List Nat} :
    DerivesProduct n xs e loads → ReadsProduct e xs (greatest loads) n
  | .factor h => h.reads.product
  | .chain hop hl hr => by
    rw [greatest_chain]
    exact hl.reads.chain hop hr.reads

theorem DerivesSum.reads {n : Nat} {xs : List Lexeme} {e : Expr} {loads : List Nat} :
    DerivesSum n xs e loads → ReadsSum e xs (greatest loads) n
  | .product h => h.reads.sum
  | .chain hop hl hr => by
    rw [greatest_chain]
    exact hl.reads.chain hop hr.reads

end

mutual

theorem derives_of_sum {stop room : Nat} {ts rest : List Token} {e : Expr}
    (h : sum stop room ts = .ok (e, rest)) :
    ∃ n us loads, ts = us ++ rest ∧ DerivesSum n (us.map Token.toLexeme) e loads ∧
      greatest loads ≤ room := by
  rw [sum] at h
  split at h
  · cases h
  · rename_i hp
    obtain ⟨n, us, loads, rfl, hl, hle⟩ := derives_of_product hp
    obtain ⟨m, vs, loads', rfl, hs, hle'⟩ := derives_of_sumChain h (.product hl) hle
    refine ⟨m, us ++ vs, loads', (List.append_assoc ..).symm, ?_, hle'⟩
    rw [List.map_append]
    exact hs
termination_by (room, 4)

theorem derives_of_sumChain {stop room n : Nat} {left e : Expr} {ts rest : List Token}
    {xs : List Lexeme} {loads : List Nat} (h : sumChain stop room left ts = .ok (e, rest))
    (hl : DerivesSum n xs left loads) (hle : greatest loads ≤ room + n) :
    ∃ m us loads', ts = us ++ rest ∧ DerivesSum m (xs ++ us.map Token.toLexeme) e loads' ∧
      greatest loads' ≤ room + n := by
  rw [sumChain.eq_def] at h
  split at h
  · cases h
    exact ⟨n, [], loads, rfl, by simpa using hl, hle⟩
  · rename_i t ts
    split at h
    · cases h
      exact ⟨n, [], loads, rfl, by simpa using hl, hle⟩
    · rename_i op hop
      split at h
      · cases h
      · rename_i room
        split at h
        · cases h
        · rename_i hp
          obtain ⟨m, us, loads₁, rfl, hr, hle₁⟩ := derives_of_product hp
          -- the room left and the operators read so far add up to the same number throughout
          have hle₂ : greatest (loads ++ (n + 1) :: loads₁.map (n + 1 + ·)) ≤ room + (n + 1) := by
            rw [greatest_chain]
            omega
          obtain ⟨k, vs, loads₂, rfl, hs, hle₃⟩ := derives_of_sumChain h (hl.chain hop hr) hle₂
          refine ⟨k, t :: us ++ vs, loads₂, by simp, ?_, by omega⟩
          simpa using hs
termination_by (room, 0)

theorem derives_of_product {stop room : Nat} {ts rest : List Token} {e : Expr}
    (h : product stop room ts = .ok (e, rest)) :
    ∃ n us loads, ts = us ++ rest ∧ DerivesProduct n (us.map Token.toLexeme) e loads ∧
      greatest loads ≤ room := by
  rw [product] at h
  split at h
  · cases h
  · rename_i hf
    obtain ⟨us, loads, rfl, hl, hle⟩ := derives_of_factor hf
    obtain ⟨m, vs, loads', rfl, hs, hle'⟩ := derives_of_productChain h (.factor hl) hle
    refine ⟨m, us ++ vs, loads', (List.append_assoc ..).symm, ?_, hle'⟩
    rw [List.map_append]
    exact hs
termination_by (room, 3)

theorem derives_of_productChain {stop room n : Nat} {left e : Expr} {ts rest : List Token}
    {xs : List Lexeme} {loads : List Nat} (h : productChain stop room left ts = .ok (e, rest))
    (hl : DerivesProduct n xs left loads) (hle : greatest loads ≤ room + n) :
    ∃ m us loads', ts = us ++ rest ∧ DerivesProduct m (xs ++ us.map Token.toLexeme) e loads' ∧
      greatest loads' ≤ room + n := by
  rw [productChain.eq_def] at h
  split at h
  · cases h
    exact ⟨n, [], loads, rfl, by simpa using hl, hle⟩
  · rename_i t ts
    split at h
    · cases h
      exact ⟨n, [], loads, rfl, by simpa using hl, hle⟩
    · rename_i op hop
      split at h
      · cases h
      · rename_i room
        split at h
        · cases h
        · rename_i hf
          obtain ⟨us, loads₁, rfl, hr, hle₁⟩ := derives_of_factor hf
          have hle₂ : greatest (loads ++ (n + 1) :: loads₁.map (n + 1 + ·)) ≤ room + (n + 1) := by
            rw [greatest_chain]
            omega
          obtain ⟨k, vs, loads₂, rfl, hs, hle₃⟩ :=
            derives_of_productChain h (hl.chain hop hr) hle₂
          refine ⟨k, t :: us ++ vs, loads₂, by simp, ?_, by omega⟩
          simpa using hs
termination_by (room, 0)

theorem derives_of_factor {stop room : Nat} {ts rest : List Token} {e : Expr}
    (h : factor stop room ts = .ok (e, rest)) :
    ∃ us loads, ts = us ++ rest ∧ DerivesFactor (us.map Token.toLexeme) e loads ∧
      greatest loads ≤ room := by
  rw [factor.eq_def] at h
  split at h
  · cases h
  · rename_i t ts
    split at h
    · exact derives_of_operand h
    · rename_i op hop
      split at h
      · cases h
      · rename_i room
        split at h
        · cases h
        · rename_i hf
          cases h
          obtain ⟨us, loads, rfl, he, hle⟩ := derives_of_factor hf
          refine ⟨t :: us, _, rfl, .sign hop he, ?_⟩
          rw [greatest_open]
          omega
termination_by (room, 2)

theorem derives_of_operand {stop room : Nat} {t : Token} {ts rest : List Token} {e : Expr}
    (h : operand stop room t ts = .ok (e, rest)) :
    ∃ us loads, t :: ts = us ++ rest ∧ DerivesFactor (us.map Token.toLexeme) e loads ∧
      greatest loads ≤ room := by
  rw [operand.eq_def] at h
  split at h
  · rename_i hk
    split at h
    · cases h
    · rename_i hvalue
      cases h
      exact ⟨[t], [], rfl, .number hk hvalue, Nat.zero_le room⟩
  · rename_i hk
    split at h
    · cases h
    · rename_i hcell
      cases h
      unfold addressOf at hcell
      split at hcell
      · cases hcell
      · rename_i hcell'
        cases hcell
        exact ⟨[t], [], rfl, .reference hk hcell', Nat.zero_le room⟩
  · rename_i hl
    split at h
    · cases h
    · rename_i room
      split at h
      · cases h
      · cases h
      · rename_i u _ hs
        split at h
        · rename_i hr
          cases h
          obtain ⟨n, us, loads, rfl, he, hle⟩ := derives_of_sum hs
          refine ⟨t :: us ++ [u], 1 :: loads.map (1 + ·), by simp, ?_, ?_⟩
          · rw [List.map_append]
            exact .parens hl hr he
          · rw [greatest_open]
            omega
        · cases h
  · cases h
termination_by (room, 1)

end

/-- The grammar is unambiguous: no two trees, and no two greatest loads, have the same lexemes. -/
theorem DerivesSum.unique {n m : Nat} {xs : List Lexeme} {e e' : Expr} {loads loads' : List Nat}
    (h : DerivesSum n xs e loads) (h' : DerivesSum m xs e' loads') :
    e = e' ∧ greatest loads = greatest loads' :=
  h.reads.unique h'.reads

section Nil

variable {n : Nat} {xs : List Lexeme} {e : Expr} {loads : List Nat}

theorem DerivesFactor.ne_nil (h : DerivesFactor xs e loads) : xs ≠ [] := by
  cases h <;> exact List.cons_ne_nil _ _

theorem DerivesProduct.ne_nil (h : DerivesProduct n xs e loads) : xs ≠ [] := by
  cases h with
  | factor h => exact h.ne_nil
  | chain hop hl hr => exact List.append_ne_nil_of_right_ne_nil _ (List.cons_ne_nil _ _)

theorem DerivesSum.ne_nil (h : DerivesSum n xs e loads) : xs ≠ [] := by
  cases h with
  | product h => exact h.ne_nil
  | chain hop hl hr => exact List.append_ne_nil_of_right_ne_nil _ (List.cons_ne_nil _ _)

end Nil

theorem derives_of_ofTokens {ts : List Token} {e : Expr} (h : ofTokens ts = .ok e) :
    ∃ n loads, DerivesSum n (ts.map Token.toLexeme) e loads ∧ greatest loads ≤ maxNesting := by
  unfold ofTokens at h
  split at h
  · cases h
  · split at h
    · cases h
    · rename_i hs
      cases h
      obtain ⟨n, us, loads, rfl, he, hle⟩ := derives_of_sum hs
      rw [List.append_nil]
      exact ⟨n, loads, he, hle⟩
    · cases h

/-- What has a derivation is accepted or refused for its loads. -/
theorem DerivesSum.ofTokens {n : Nat} {ts : List Token} {e : Expr} {loads : List Nat}
    (h : DerivesSum n (ts.map Token.toLexeme) e loads) :
    (greatest loads ≤ maxNesting → Formula.ofTokens ts = .ok e) ∧
      (maxNesting < greatest loads →
        ∃ position, Formula.ofTokens ts = .error (.malformed position .tooDeep)) :=
  h.reads.ofTokens rfl h.ne_nil

/-- The parser accepts what has a derivation in which no load is greater than the limit. -/
theorem ofTokens_eq_ok_iff {ts : List Token} {e : Expr} :
    ofTokens ts = .ok e ↔
      ∃ n loads, DerivesSum n (ts.map Token.toLexeme) e loads ∧ ∀ k ∈ loads, k ≤ maxNesting := by
  constructor
  · intro h
    obtain ⟨n, loads, he, hle⟩ := derives_of_ofTokens h
    exact ⟨n, loads, he, greatest_le_iff.1 hle⟩
  · intro h
    obtain ⟨n, loads, h, hle⟩ := h
    exact h.ofTokens.1 (greatest_le_iff.2 hle)

end Formula

end Spreadsheet
