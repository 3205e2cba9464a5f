import Spreadsheet.Proofs.Formula.Grammar
import Spreadsheet.Proofs.Formula.Scan

/-!
The height of the trees that are read. A load counts what is open, and an operator of a chain opens
after the operands to its left have been read. So the limit on loads bounds the operators before a
leaf, but trees that grow to the left come out higher.
-/
namespace Spreadsheet

/-- As `height`, but on the path to a leaf only the operators written before it count. -/
def Expr.leadingHeight : Expr → Nat
  | literal _ | reference _ => 0
  | unary _ operand => operand.leadingHeight + 1
  | binary _ left right => max left.leadingHeight (right.leadingHeight + 1)

namespace Formula

/-- The height of the highest factor whose loads are at most `room`. -/
def factorHeight : Nat → Nat
  | 0 => 0
  | room + 1 => room * (room + 1) + 1

/-- A sum in parentheses has a full chain of products at the left end of a full chain of terms. -/
theorem factorHeight_add_le (room : Nat) :
    factorHeight room + 2 * room ≤ factorHeight (room + 1) := by
  cases room with
  | zero => exact Nat.zero_le _
  | succ room =>
    simp only [factorHeight]
    linarith

theorem factorHeight_lt_succ (room : Nat) : factorHeight room < factorHeight (room + 1) := by
  have h := factorHeight_add_le room
  cases room with
  | zero => exact Nat.zero_lt_one
  | succ room => omega

theorem factorHeight_add_maxNesting :
    factorHeight maxNesting + 2 * maxNesting = maxNesting * (maxNesting + 1) + 1 := rfl

section Bounds

variable {n : Nat} {xs : List Lexeme} {e : Expr} {loads : List Nat}

/-- The last operator of a chain has the length of the chain as its load. -/
theorem DerivesProduct.le_greatest (h : DerivesProduct n xs e loads) : n ≤ greatest loads := by
  cases h with
  | factor h => exact Nat.zero_le _
  | chain hop hl hr =>
    rw [greatest_chain]
    omega

theorem DerivesSum.le_greatest (h : DerivesSum n xs e loads) : n ≤ greatest loads := by
  cases h with
  | product h => exact Nat.zero_le _
  | chain hop hl hr =>
    rw [greatest_chain]
    omega

end Bounds

mutual

theorem DerivesFactor.height_le {xs : List Lexeme} {e : Expr} {loads : List Nat} (room : Nat) :
    DerivesFactor xs e loads → greatest loads ≤ room → e.height ≤ factorHeight room
  | .number _ _, _ => Nat.zero_le _
  | .reference _ _, _ => Nat.zero_le _
  | .sign _ h, hle => by
    rw [greatest_open] at hle
    obtain ⟨room, rfl⟩ := Nat.exists_eq_add_of_le' (Nat.le_trans (Nat.le_add_right 1 _) hle)
    have ih := h.height_le room (by omega)
    exact Nat.lt_of_le_of_lt ih (factorHeight_lt_succ room)
  | .parens _ _ h, hle => by
    rw [greatest_open] at hle
    obtain ⟨room, rfl⟩ := Nat.exists_eq_add_of_le' (Nat.le_trans (Nat.le_add_right 1 _) hle)
    have ih := h.height_le room (by omega)
    have hn := h.le_greatest
    have hstep := factorHeight_add_le room
    omega

theorem DerivesProduct.height_le {n : Nat} {xs : List Lexeme} {e : Expr} {loads : List Nat}
    (room : Nat) :
    DerivesProduct n xs e loads → greatest loads ≤ room → e.height ≤ factorHeight room + n
  | .factor h, hle => h.height_le room hle
  | .chain _ hl hr, hle => by
    rw [greatest_chain] at hle
    have ihl := hl.height_le room (by omega)
    have ihr := hr.height_le room (by omega)
    simp only [Expr.height]
    omega

theorem DerivesSum.height_le {n : Nat} {xs : List Lexeme} {e : Expr} {loads : List Nat}
    (room : Nat) :
    DerivesSum n xs e loads → greatest loads ≤ room → e.height ≤ factorHeight room + room + n
  | .product h, hle => by
    have ih := h.height_le room hle
    have hn := h.le_greatest
    omega
  | .chain _ hl hr, hle => by
    rw [greatest_chain] at hle
    have ihl := hl.height_le room (by omega)
    have ihr := hr.height_le room (by omega)
    have hn := hr.le_greatest
    simp only [Expr.height]
    omega

end

mutual

/-- What is written before a leaf on its path is open there. -/
theorem DerivesFactor.leadingHeight_le {xs : List Lexeme} {e : Expr} {loads : List Nat} :
    DerivesFactor xs e loads → e.leadingHeight ≤ greatest loads
  | .number _ _ => Nat.zero_le _
  | .reference _ _ => Nat.zero_le _
  | .sign _ h => by
    have ih := h.leadingHeight_le
    rw [greatest_open, Expr.leadingHeight]
    omega
  | .parens _ _ h => by
    have ih := h.leadingHeight_le
    rw [greatest_open]
    omega

theorem DerivesProduct.leadingHeight_le {n : Nat} {xs : List Lexeme} {e : Expr}
    {loads : List Nat} : DerivesProduct n xs e loads → e.leadingHeight ≤ greatest loads
  | .factor h => h.leadingHeight_le
  | .chain _ hl hr => by
    have ihl := hl.leadingHeight_le
    have ihr := hr.leadingHeight_le
    rw [greatest_chain, Expr.leadingHeight]
    omega

theorem DerivesSum.leadingHeight_le {n : Nat} {xs : List Lexeme} {e : Expr}
    {loads : List Nat} : DerivesSum n xs e loads → e.leadingHeight ≤ greatest loads
  | .product h => h.leadingHeight_le
  | .chain _ hl hr => by
    have ihl := hl.leadingHeight_le
    have ihr := hr.leadingHeight_le
    rw [greatest_chain, Expr.leadingHeight]
    omega

end

section Highest

variable {room : Nat} {xs : List Lexeme} {e : Expr} {loads : List Nat}

theorem derivesFactor_name : DerivesFactor [⟨.reference, "A1"⟩] (.reference ⟨0, 0⟩) [] :=
  .reference rfl rfl

/-- Operators after a factor make it higher, one by one, up to the limit on loads. -/
theorem exists_derivesProduct (h : DerivesFactor xs e loads) (hle : greatest loads ≤ room) {n : Nat}
    (hn : n ≤ room) :
    ∃ ys e' loads', DerivesProduct n ys e' loads' ∧ greatest loads' ≤ room ∧
      e'.height = e.height + n := by
  induction n with
  | zero => exact ⟨xs, e, loads, .factor h, hle, rfl⟩
  | succ n ih =>
    obtain ⟨ys, e', loads', h', hle', heq⟩ := ih (by omega)
    refine ⟨_, _, _, .chain (x := ⟨.star, "*"⟩) rfl h' derivesFactor_name, ?_, ?_⟩
    · rw [greatest_chain, greatest_nil]
      omega
    · simp only [Expr.height]
      omega

theorem exists_derivesSum {m : Nat} (h : DerivesProduct m xs e loads)
    (hle : greatest loads ≤ room) {n : Nat} (hn : n ≤ room) :
    ∃ ys e' loads', DerivesSum n ys e' loads' ∧ greatest loads' ≤ room ∧
      e'.height = e.height + n := by
  induction n with
  | zero => exact ⟨xs, e, loads, .product h, hle, rfl⟩
  | succ n ih =>
    obtain ⟨ys, e', loads', h', hle', heq⟩ := ih (by omega)
    refine ⟨_, _, _, .chain (x := ⟨.plus, "+"⟩) rfl h' (.factor derivesFactor_name), ?_, ?_⟩
    · rw [greatest_chain, greatest_nil]
      omega
    · simp only [Expr.height]
      omega

/-- Two full chains after a factor. -/
theorem exists_derivesSum_of_factor (h : DerivesFactor xs e loads) (hle : greatest loads ≤ room) :
    ∃ ys e' loads', DerivesSum room ys e' loads' ∧ greatest loads' ≤ room ∧
      e'.height = e.height + 2 * room := by
  obtain ⟨ys, e₁, loads₁, h₁, hle₁, heq₁⟩ := exists_derivesProduct h hle (Nat.le_refl room)
  obtain ⟨zs, e₂, loads₂, h₂, hle₂, heq₂⟩ := exists_derivesSum h₁ hle₁ (Nat.le_refl room)
  exact ⟨zs, e₂, loads₂, h₂, hle₂, by omega⟩

theorem exists_derivesFactor (room : Nat) :
    ∃ xs e loads, DerivesFactor xs e loads ∧ greatest loads ≤ room ∧
      e.height = factorHeight room := by
  induction room with
  | zero => exact ⟨_, _, _, derivesFactor_name, Nat.le_refl 0, rfl⟩
  | succ room ih =>
    obtain ⟨xs, e, loads, h, hle, heq⟩ := ih
    -- within one level a sign goes highest, from there on parentheses around two full chains
    cases room with
    | zero =>
      refine ⟨_, _, _, .sign (x := ⟨.minus, "-"⟩) rfl h, ?_, ?_⟩
      · rw [greatest_open]
        omega
      · rw [Expr.height, heq]
        rfl
    | succ room =>
      obtain ⟨ys, e', loads', h', hle', heq'⟩ := exists_derivesSum_of_factor h hle
      let l : Lexeme := ⟨.leftParen, "("⟩
      let r : Lexeme := ⟨.rightParen, ")"⟩
      refine ⟨_, _, _, .parens (l := l) (r := r) rfl rfl h', ?_, ?_⟩
      · rw [greatest_open]
        omega
      · rw [heq', heq]
        simp only [factorHeight]
        ring

/-- The highest tree that is accepted. -/
theorem exists_ofTokens_height_eq :
    ∃ ts e, ofTokens ts = .ok e ∧ e.height = maxNesting * (maxNesting + 1) + 1 := by
  obtain ⟨xs, e, loads, h, hle, heq⟩ := exists_derivesFactor maxNesting
  obtain ⟨ys, e', loads', h', hle', heq'⟩ := exists_derivesSum_of_factor h hle
  rw [← Token.map_place 0 ys] at h'
  refine ⟨Token.place 0 ys, e', h'.ofTokens.1 hle', ?_⟩
  rw [heq', heq, factorHeight_add_maxNesting]

end Highest

/-- The limit holds for the heights of the trees that tokens derive exactly if each of these trees is
within it or has a load that is not. Where tokens are accepted, the operators before a leaf are
within the limit, and the height is at most that of two full chains after the highest factor. -/
theorem height_of_ofTokens (ts : List Token) :
    ((∀ e, ofTokens ts = .ok e → e.height ≤ maxNesting) ∧
        (∀ n e loads, DerivesSum n (ts.map Token.toLexeme) e loads → maxNesting < e.height →
          ∃ position, ofTokens ts = .error (.malformed position .tooDeep)) ↔
      ∀ n e loads, DerivesSum n (ts.map Token.toLexeme) e loads →
        e.height ≤ maxNesting ∨ ∃ k ∈ loads, maxNesting < k) ∧
      ∀ e, ofTokens ts = .ok e →
        e.leadingHeight ≤ maxNesting ∧ e.height ≤ maxNesting * (maxNesting + 1) + 1 := by
  refine ⟨⟨?_, fun hcond => ⟨?_, ?_⟩⟩, ?_⟩
  · intro hlimit n e loads h
    rw [← lt_greatest_iff]
    by_cases hle : greatest loads ≤ maxNesting
    · exact .inl (hlimit.1 e (h.ofTokens.1 hle))
    · exact .inr (Nat.not_le.1 hle)
  · intro e hok
    obtain ⟨n, loads, h, hle⟩ := derives_of_ofTokens hok
    apply (hcond n e loads h).resolve_right
    rw [← lt_greatest_iff]
    exact Nat.not_lt.2 hle
  · intro n e loads h hlt
    have hload := (hcond n e loads h).resolve_left (Nat.not_le.2 hlt)
    exact h.ofTokens.2 (lt_greatest_iff.2 hload)
  · intro e hok
    obtain ⟨n, loads, h, hle⟩ := derives_of_ofTokens hok
    have hheight := h.height_le maxNesting hle
    have hn := h.le_greatest
    rw [← factorHeight_add_maxNesting]
    exact ⟨Nat.le_trans h.leadingHeight_le hle, by omega⟩

section Signs

/-- A cell with minus signs in front needs one level for each. -/
theorem exists_derivesFactor_signs (n : Nat) :
    ∃ loads, DerivesFactor (List.replicate n ⟨.minus, "-"⟩ ++ [⟨.reference, "A1"⟩])
      ((Expr.unary .negate)^[n] (.reference ⟨0, 0⟩)) loads ∧ greatest loads = n := by
  induction n with
  | zero => exact ⟨[], derivesFactor_name, rfl⟩
  | succ n ih =>
    obtain ⟨loads, h, heq⟩ := ih
    rw [List.replicate_succ, Function.iterate_succ_apply']
    refine ⟨_, .sign rfl h, ?_⟩
    rw [greatest_open, heq, Nat.add_comm]

theorem height_iterate_unary (op : UnaryOp) (e : Expr) (n : Nat) :
    ((Expr.unary op)^[n] e).height = e.height + n := by
  induction n with
  | zero => rfl
  | succ n ih =>
    rw [Function.iterate_succ_apply', Expr.height, ih]
    rfl

end Signs

/-- As many signs as the limit are accepted. -/
theorem height_of_ofTokens_of_signs :
    let ts := Token.place 0 (List.replicate 256 ⟨.minus, "-"⟩ ++ [⟨.reference, "A1"⟩])
    ∃ e, ofTokens ts = .ok e ∧ e.leadingHeight ≤ maxNesting ∧
      e.height ≤ maxNesting * (maxNesting + 1) + 1 := by
  intro ts
  obtain ⟨loads, h, heq⟩ := exists_derivesFactor_signs 256
  rw [← Token.map_place 0 (_ ++ _)] at h
  have hok := (DerivesSum.product (.factor h)).ofTokens.1 (Nat.le_of_eq heq)
  exact ⟨_, hok, (height_of_ofTokens ts).2 _ hok⟩

/-- The signs in front of the first factor do not count for the operator after it. -/
theorem lt_height_of_signs :
    let signs := List.replicate 256 ⟨.minus, "-"⟩ ++ [⟨.reference, "A1"⟩]
    let ts := Token.place 0 (signs ++ [⟨.star, "*"⟩, ⟨.reference, "A1"⟩])
    ∃ e, ofTokens ts = .ok e ∧ maxNesting < e.height := by
  intro signs ts
  obtain ⟨loads, h, heq⟩ := exists_derivesFactor_signs 256
  have hheight := height_iterate_unary .negate (.reference ⟨0, 0⟩) 256
  have hs := DerivesSum.product (.chain (x := ⟨.star, "*"⟩) rfl (.factor h) derivesFactor_name)
  rw [← Token.map_place 0 (_ ++ _ :: _)] at hs
  refine ⟨_, hs.ofTokens.1 ?_, ?_⟩
  · rw [greatest_chain, heq]
    decide
  · simp only [Expr.height, hheight]
    decide

end Formula

end Spreadsheet
