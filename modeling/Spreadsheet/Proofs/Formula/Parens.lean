import Spreadsheet.Proofs.Formula.Layout
import Spreadsheet.Proofs.Formula.Unclosed

/-!
The parentheses of a formula. The written form of a tree has no more of them than any other text that
is read as the tree, so that none of them can be left out.
-/
namespace Spreadsheet

variable {e e' : Expr}

/-- The number of opening parentheses. -/
def openings (xs : List Lexeme) : Nat := (xs.flatMap fun x => x.kind.parens).count '('

section Openings

theorem openings_append (xs ys : List Lexeme) : openings (xs ++ ys) = openings xs + openings ys := by
  rw [openings, List.flatMap_append, List.count_append]
  rfl

theorem openings_cons (x : Lexeme) (xs : List Lexeme) :
    openings (x :: xs) = x.kind.parens.count '(' + openings xs := by
  rw [openings, List.flatMap_cons, List.count_append]
  rfl

theorem openings_cons_of_parens {x : Lexeme} (hx : x.kind.parens = []) (xs : List Lexeme) :
    openings (x :: xs) = openings xs := by
  rw [openings_cons, hx, List.count_nil, Nat.zero_add]

theorem openings_between {l r : Lexeme} (hl : l.kind = .leftParen) (hr : r.kind = .rightParen)
    (xs : List Lexeme) : openings (l :: xs ++ [r]) = openings xs + 1 := by
  have hopen : (Lexeme.Kind.leftParen.parens).count '(' = 1 := rfl
  have hclose : (Lexeme.Kind.rightParen.parens).count '(' = 0 := rfl
  rw [openings_append, openings_cons, openings_cons, hl, hr, hopen, hclose]
  exact Nat.add_comm 1 _

theorem openings_enclose (needed : Bool) (xs : List Lexeme) :
    openings (Expr.enclose needed xs) = openings xs + if needed then 1 else 0 := by
  cases needed with
  | false => rfl
  | true => exact openings_between rfl rfl xs

end Openings

namespace Expr

/-- The number of opening parentheses that a tree is written with where all that binds less tight than
`n` has to be enclosed. -/
def openingsIn (n : Nat) (e : Expr) : Nat := openings (enclose (e.level < n) e.lexemes)

section OpeningsIn

variable {n m : Nat}

theorem openingsIn_eq (n : Nat) (e : Expr) :
    e.openingsIn n = openings e.lexemes + if e.level < n then 1 else 0 := by
  rw [openingsIn, openings_enclose]
  simp only [decide_eq_true_eq]

theorem openingsIn_of_le (h : n ≤ e.level) : e.openingsIn n = openings e.lexemes := by
  rw [openingsIn_eq, if_neg (Nat.not_lt.2 h), Nat.add_zero]

theorem openingsIn_mono (h : n ≤ m) (e : Expr) : e.openingsIn n ≤ e.openingsIn m := by
  rw [openingsIn_eq, openingsIn_eq]
  split <;> split <;> omega

theorem openingsIn_le_succ (n : Nat) (e : Expr) : e.openingsIn n ≤ openings e.lexemes + 1 := by
  rw [openingsIn_eq]
  split <;> omega

theorem openings_lexemes_literal (x : Float) : openings (literal x).lexemes = 0 := by
  rw [lexemes, openings_cons_of_parens rfl]
  rfl

theorem openings_lexemes_reference (cell : Address) : openings (reference cell).lexemes = 0 := by
  rw [lexemes, openings_cons_of_parens rfl]
  rfl

theorem openings_lexemes_unary (op : UnaryOp) (e : Expr) :
    openings (unary op e).lexemes = e.openingsIn 3 := by
  have hop : op.lexeme.kind.parens = [] := by cases op <;> rfl
  rw [lexemes, openings_cons_of_parens hop]
  rfl

theorem openings_lexemes_binary (op : BinaryOp) (left right : Expr) :
    openings (binary op left right).lexemes =
      left.openingsIn op.level + right.openingsIn (op.level + 1) := by
  have hop : op.lexeme.kind.parens = [] := by cases op <;> rfl
  rw [lexemes, openings_append, openings_cons_of_parens hop]
  simp only [openingsIn, Nat.lt_succ_iff]

end OpeningsIn

/-- Trees that are equal up to the signs of zeros are written with the same parentheses. -/
theorem openings_lexemes_of_beq (h : (e' == e) = true) :
    e'.level = e.level ∧ openings e'.lexemes = openings e.lexemes := by
  induction e generalizing e' with
  | literal x =>
    cases e' with
    | literal y =>
      rw [openings_lexemes_literal, openings_lexemes_literal]
      exact ⟨rfl, rfl⟩
    | _ => cases h
  | reference cell =>
    cases e' with
    | reference cell' =>
      rw [openings_lexemes_reference, openings_lexemes_reference]
      exact ⟨rfl, rfl⟩
    | _ => cases h
  | unary op operand ih =>
    cases e' with
    | unary op' operand' =>
      have hoperand : (operand' == operand) = true := (Bool.and_eq_true_iff.1 h).2
      obtain ⟨hlevel, hopenings⟩ := ih hoperand
      refine ⟨rfl, ?_⟩
      rw [openings_lexemes_unary, openings_lexemes_unary, openingsIn_eq, openingsIn_eq, hlevel, hopenings]
    | _ => cases h
  | binary op left right ihl ihr =>
    cases e' with
    | binary op' left' right' =>
      obtain ⟨hop, hoperands⟩ := Bool.and_eq_true_iff.1 h
      obtain ⟨hleft, hright⟩ := Bool.and_eq_true_iff.1 hoperands
      obtain rfl : op' = op := eq_of_beq hop
      obtain ⟨hlevel, hopenings⟩ := ihl hleft
      obtain ⟨hlevel', hopenings'⟩ := ihr hright
      refine ⟨rfl, ?_⟩
      rw [openings_lexemes_binary, openings_lexemes_binary, openingsIn_eq, openingsIn_eq, openingsIn_eq,
        openingsIn_eq, hlevel, hopenings, hlevel', hopenings']
    | _ => cases h

/-- The parentheses of a text are those of its lexemes. -/
theorem count_text (he : e.Writable) : e.text.toList.count '(' = openings e.lexemes := by
  have hparens : Text.parens e.text.toList = e.lexemes.flatMap fun x => x.kind.parens := by
    rw [text, String.toList_join, List.flatMap_map, Text.parens, List.filter_flatMap]
    exact List.flatMap_congr fun x hx => (wellFormed_lexemes he x hx).parens_text
  rw [openings, ← hparens]
  exact (List.count_filter rfl).symm

end Expr

namespace Formula

section Derives

theorem level_of_multiplicative? {kind : Lexeme.Kind} {op : BinaryOp} (h : kind.multiplicative? = some op) :
    op.level = 2 := by
  cases kind <;> cases h <;> rfl

theorem level_of_additive? {kind : Lexeme.Kind} {op : BinaryOp} (h : kind.additive? = some op) :
    op.level = 1 := by
  cases kind <;> cases h <;> rfl

mutual

/-- The lexemes of a factor have a parenthesis for every one that the factor is written with. -/
theorem DerivesFactor.openingsIn_le {xs : List Lexeme} {e : Expr} {loads : List Nat} :
    DerivesFactor xs e loads → e.openingsIn 3 ≤ openings xs
  | @DerivesFactor.number _ value _ _ => by
    rw [Expr.openingsIn_of_le (e := .literal value) (Nat.le_succ 3), Expr.openings_lexemes_literal]
    exact Nat.zero_le _
  | @DerivesFactor.reference _ cell _ _ => by
    rw [Expr.openingsIn_of_le (e := .reference cell) (Nat.le_succ 3), Expr.openings_lexemes_reference]
    exact Nat.zero_le _
  | @DerivesFactor.sign _ op _ e _ hop h => by
    rw [Expr.openingsIn_of_le (e := .unary op e) (Nat.le_refl 3), Expr.openings_lexemes_unary,
      openings_cons_of_parens (Lexeme.Kind.isOperator_of_sign? hop).parens]
    exact h.openingsIn_le
  | .parens (e := e) hl hr h => by
    -- The pair makes up for the one that the tree may have to be enclosed in.
    rw [openings_between hl hr]
    exact Nat.le_trans (e.openingsIn_le_succ 3) (Nat.succ_le_succ h.openings_le)

theorem DerivesProduct.openingsIn_le {n : Nat} {xs : List Lexeme} {e : Expr} {loads : List Nat} :
    DerivesProduct n xs e loads → e.openingsIn 2 ≤ openings xs
  | .factor h => Nat.le_trans (Expr.openingsIn_mono (Nat.le_succ 2) e) h.openingsIn_le
  | @DerivesProduct.chain _ op _ _ _ left right _ _ hop hl hr => by
    have hlevel : op.level = 2 := level_of_multiplicative? hop
    rw [Expr.openingsIn_of_le (e := .binary op left right) hlevel.ge, Expr.openings_lexemes_binary,
      openings_append, openings_cons_of_parens (Lexeme.Kind.isOperator_of_multiplicative? hop).parens,
      hlevel]
    exact Nat.add_le_add hl.openingsIn_le hr.openingsIn_le

theorem DerivesSum.openings_le {n : Nat} {xs : List Lexeme} {e : Expr} {loads : List Nat} :
    DerivesSum n xs e loads → openings e.lexemes ≤ openings xs
  | .product h => by
    have hle := h.openingsIn_le
    rw [Expr.openingsIn_eq] at hle
    exact Nat.le_of_add_right_le hle
  | @DerivesSum.chain _ op _ _ _ _ left right _ _ hop hl hr => by
    have hlevel : op.level = 1 := level_of_additive? hop
    rw [Expr.openings_lexemes_binary, openings_append,
      openings_cons_of_parens (Lexeme.Kind.isOperator_of_additive? hop).parens, hlevel,
      Expr.openingsIn_of_le left.one_le_level]
    exact Nat.add_le_add hl.openings_le hr.openingsIn_le

end

end Derives

/-- No text that is read as a tree has fewer parentheses than the written form of the tree. -/
theorem count_text_le_of_parse {s : String} (h : parse s = .ok e) :
    e.text.toList.count '(' ≤ s.toList.count '(' := by
  obtain ⟨ps, hps, n, loads, hderives, -⟩ := parse_eq_ok_iff.1 h
  calc e.text.toList.count '('
    _ = openings e.lexemes := Expr.count_text (writable_of_parse h)
    _ ≤ openings (Piece.lexemes ps) := hderives.openings_le
    _ = (Text.parens (body s.toList)).count '(' := by rw [openings, hps.parens_eq]
    _ = (body s.toList).count '(' := List.count_filter rfl
    _ ≤ s.toList.count '(' := (body_suffix s.toList).sublist.count_le '('

/-- No pair of parentheses of a written form can be left out: what remains is refused, or it is read as
another tree, also up to the signs of zeros. The pair need not even match. -/
theorem ne_of_parse_without_parens (he : e.Writable) {before inside after : List Char}
    (htext : e.text.toList = before ++ '(' :: inside ++ ')' :: after)
    (h : parse (String.ofList (before ++ inside ++ after)) = .ok e') :
    e' ≠ e ∧ (e' == e) = false := by
  have hlt : e'.text.toList.count '(' < e.text.toList.count '(' := by
    have hle := count_text_le_of_parse h
    have hne : (')' : Char) ≠ '(' := by decide
    rw [String.toList_ofList, List.count_append, List.count_append] at hle
    rw [htext, List.count_append, List.count_append, List.count_cons_self, List.count_cons_of_ne hne]
    omega
  constructor
  · rintro rfl
    exact Nat.lt_irrefl _ hlt
  · refine Bool.eq_false_iff.2 fun hbeq => ?_
    rw [Expr.count_text he, Expr.count_text (writable_of_parse h),
      (Expr.openings_lexemes_of_beq hbeq).2] at hlt
    exact Nat.lt_irrefl _ hlt

/-- Without its parentheses `(A1+B1)*C1` is a sum. -/
theorem ne_of_parse_without_parens_of_product :
    let a : Expr := .reference ⟨0, 0⟩
    let b : Expr := .reference ⟨0, 1⟩
    let c : Expr := .reference ⟨0, 2⟩
    let e : Expr := .binary .multiply (.binary .add a b) c
    let e' : Expr := .binary .add a (.binary .multiply b c)
    e.text = "(A1+B1)*C1" ∧ parse "A1+B1*C1" = .ok e' ∧ e' ≠ e ∧ (e' == e) = false := by
  intro a b c e e'
  have ha : a.Writable := show Address.Nameable ⟨0, 0⟩ by decide
  have hb : b.Writable := show Address.Nameable ⟨0, 1⟩ by decide
  have hc : c.Writable := show Address.Nameable ⟨0, 2⟩ by decide
  have htext : e.text = "(A1+B1)*C1" := by cbv
  have htext' : e'.text = "A1+B1*C1" := by cbv
  have hparse : parse "A1+B1*C1" = .ok e' := by
    rw [← htext']
    exact (parse_text (e := e') ⟨ha, hb, hc⟩).1 (by decide)
  constructor
  · exact htext
  · constructor
    · exact hparse
    · have hpair : e.text.toList = [] ++ '(' :: "A1+B1".toList ++ ')' :: "*C1".toList :=
        congrArg String.toList htext
      exact ne_of_parse_without_parens (e := e) ⟨⟨ha, hb⟩, hc⟩ hpair hparse

end Formula

end Spreadsheet
