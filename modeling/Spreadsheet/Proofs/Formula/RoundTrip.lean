import Spreadsheet.Proofs.Formula.Writable

/-! Formulas written out and read again. A tree comes back as it was, as long as its written form,
which leaves out needless parentheses, does not nest too deep. -/
namespace Spreadsheet

namespace Expr

variable {e : Expr} {xs ys : List Lexeme} {x : Lexeme}

theorem isChain_append_cons (hx : x.kind ≠ .number ∧ x.kind ≠ .reference)
    (h₁ : xs.IsChain Lexeme.Apart) (h₂ : ys.IsChain Lexeme.Apart) :
    (xs ++ x :: ys).IsChain Lexeme.Apart := by
  refine List.isChain_append.2 ⟨h₁, List.isChain_cons.2 ⟨fun y _ _ => hx, h₂⟩, fun y _ z hz => ?_⟩
  cases hz
  exact fun hk => absurd hk hx.1

theorem isChain_enclose (needed : Bool) (h : xs.IsChain Lexeme.Apart) :
    (enclose needed xs).IsChain Lexeme.Apart := by
  cases needed with
  | false => exact h
  | true =>
    have hclose := isChain_append_cons (x := ⟨.rightParen, ")"⟩) ⟨by decide, by decide⟩ h .nil
    exact isChain_append_cons (x := ⟨.leftParen, "("⟩) ⟨by decide, by decide⟩ .nil hclose

/-- Between two operands there is an operator. -/
theorem isChain_lexemes (e : Expr) : e.lexemes.IsChain Lexeme.Apart := by
  induction e with
  | literal x => exact .singleton _
  | reference cell => exact .singleton _
  | unary op operand ih =>
    have hop : op.lexeme.kind ≠ .number ∧ op.lexeme.kind ≠ .reference := by cases op <;> decide
    exact isChain_append_cons hop .nil (isChain_enclose _ ih)
  | binary op left right ihl ihr =>
    have hop : op.lexeme.kind ≠ .number ∧ op.lexeme.kind ≠ .reference := by cases op <;> decide
    exact isChain_append_cons hop (isChain_enclose _ ihl) (isChain_enclose _ ihr)

theorem wellFormed_enclose (needed : Bool) (h : ∀ x ∈ xs, x.WellFormed) :
    ∀ x ∈ enclose needed xs, x.WellFormed := by
  cases needed with
  | false => exact h
  | true =>
    intro x hx
    simp only [enclose, if_true, List.mem_append, List.mem_cons, List.not_mem_nil, or_false] at hx
    rcases hx with (rfl | hx) | rfl
    · exact .symbol rfl
    · exact h x hx
    · exact .symbol rfl

theorem wellFormed_lexemes (he : e.Writable) : ∀ x ∈ e.lexemes, x.WellFormed := by
  induction e with
  | literal x =>
    intro y hy
    rw [lexemes, List.mem_singleton] at hy
    rw [hy, Number.text_of_unsigned he, ← String.ofList_toList (s := (Decimal.text _)),
      Decimal.toList_text]
    exact .number _
  | reference cell =>
    intro y hy
    rw [lexemes, List.mem_singleton] at hy
    rw [hy, ← String.ofList_toList (s := cell.text), Address.toList_text]
    exact .reference (Column.numberLetters_ne_nil (Nat.succ_ne_zero _)) Nat.toDigits_ne_nil
      (fun c => Column.isAlpha_of_mem_numberLetters)
      fun c => Nat.isDigit_of_mem_toDigits (by decide) (by decide)
  | unary op operand ih =>
    intro y hy
    rcases List.mem_cons.1 hy with rfl | hy
    · cases op <;> exact .symbol rfl
    · exact wellFormed_enclose _ (ih he) y hy
  | binary op left right ihl ihr =>
    intro y hy
    rcases List.mem_append.1 hy with hy | hy
    · exact wellFormed_enclose _ (ihl he.1) y hy
    · rcases List.mem_cons.1 hy with rfl | hy
      · cases op <;> exact .symbol rfl
      · exact wellFormed_enclose _ (ihr he.2) y hy

end Expr

namespace Formula

/-- The text of lexemes is a formula without blanks and without an equals sign in front. -/
theorem body_flatMap {xs : List Lexeme} (hx : ∀ x ∈ xs, x.WellFormed) :
    body (xs.flatMap fun x => x.text.toList) = xs.flatMap fun x => x.text.toList := by
  cases xs with
  | nil => rfl
  | cons x xs =>
    have hends : x.EndsBefore [] := fun _ c hc => by cases hc
    obtain ⟨c, cs, htext, hblank, hequals, -⟩ := (hx x List.mem_cons_self).read hends
    rw [List.flatMap_cons, htext, List.cons_append, body, List.dropWhile_cons_of_neg (by simp [hblank])]
    split
    · rename_i h
      cases h
      exact absurd rfl hequals
    · rfl

/-- A text that is made of lexemes is read as their tokens. -/
theorem parse_join {xs : List Lexeme} (hx : ∀ x ∈ xs, x.WellFormed)
    (hc : xs.IsChain Lexeme.Apart) :
    parse (String.join (xs.map (·.text))) =
      match ofTokens (Token.place 0 xs) with
      | .error e => .error (e.shift 0)
      | .ok e => .ok e := by
  have htext : (String.join (xs.map (·.text))).toList = xs.flatMap fun x => x.text.toList := by
    rw [String.toList_join, List.flatMap_map]
  have hbody : body (String.join (xs.map (·.text))).toList =
      (String.join (xs.map (·.text))).toList := by
    rw [htext, body_flatMap hx]
  unfold parse
  simp only [hbody, String.ofList_toList, Nat.sub_self]
  rw [htext, Token.scan_flatMap 0 hx hc]
  rfl

/-- A tree is read back from its text, or its text is refused for its nesting. -/
theorem parse_text {e : Expr} (he : e.Writable) :
    (e.load ≤ maxNesting → parse e.text = .ok e) ∧
      (maxNesting < e.load → ∃ position, parse e.text = .error (.malformed position .tooDeep)) := by
  obtain ⟨hle, hlt⟩ := (readsBack_of_writable he).sum.ofTokens (Token.map_place 0 e.lexemes)
    e.lexemes_ne_nil
  unfold Expr.text
  rw [parse_join (Expr.wellFormed_lexemes he) e.isChain_lexemes]
  constructor
  · intro h
    rw [hle h]
  · intro h
    obtain ⟨position, hp⟩ := hlt h
    rw [hp]
    exact ⟨_, rfl⟩

theorem parse_eq_reference {s : String} {t : Token} {cell : Address}
    (hs : Token.scan 0 (body s.toList) = .ok [t]) (hk : t.kind = .reference)
    (ha : Address.parse t.text = .ok cell) : parse s = .ok (.reference cell) := by
  have ho : operand (stopOf [t]) maxNesting t [] = .ok (.reference cell, []) := by
    rw [operand.eq_def, hk]
    simp only [addressOf, ha]
  have ht : ofTokens [t] = .ok (.reference cell) := by
    simp [ofTokens, sum, product, factor, productChain, sumChain, hk, ho, Lexeme.Kind.sign?]
  have hb : (Token.scan 0 (body s.toList) >>= ofTokens) = .ok (.reference cell) := by
    rw [hs]
    exact ht
  simp only [parse, hb]

/-- The first operand of a sum may stand in parentheses that it does not need. -/
theorem parse_enclose_add {left right : Expr} (hl : left.Writable) (hr : right.Writable)
    (hlevel : 2 ≤ right.level) (hload : max (left.load + 1) (0 + 1 + right.load) ≤ maxNesting) :
    parse (String.join ((Expr.enclose true left.lexemes ++
      BinaryOp.add.lexeme :: right.lexemes).map (·.text))) = .ok (.binary .add left right) := by
  have hwf : ∀ x ∈ Expr.enclose true left.lexemes ++ BinaryOp.add.lexeme :: right.lexemes,
      x.WellFormed := by
    intro x hx
    rcases List.mem_append.1 hx with hx | hx
    · exact Expr.wellFormed_enclose _ (Expr.wellFormed_lexemes hl) x hx
    · rcases List.mem_cons.1 hx with rfl | hx
      · exact .symbol rfl
      · exact Expr.wellFormed_lexemes hr x hx
  have hchain := Expr.isChain_append_cons (x := BinaryOp.add.lexeme) ⟨by decide, by decide⟩
    (Expr.isChain_enclose true left.isChain_lexemes) right.isChain_lexemes
  have hop : BinaryOp.add.level = 1 := rfl
  have hreads := (readsBack_of_writable hl).sum.parens.product.sum.binary hop
    ((readsBack_of_writable hr).product hlevel)
  have htokens : ofTokens (Token.place 0 (Expr.enclose true left.lexemes ++
      BinaryOp.add.lexeme :: right.lexemes)) = .ok (.binary .add left right) :=
    (hreads.ofTokens (Token.map_place 0 _) (by simp)).1 hload
  rw [parse_join hwf hchain, htokens]

/-- A tree that is read from a text is read back from its own text exactly if that text does not
nest too deep, and a text that does is refused for this reason. -/
theorem parse_text_of_parse {s : String} {e : Expr} (h : parse s = .ok e) :
    (parse e.text = .ok e ↔ e.load ≤ maxNesting) ∧
      (maxNesting < e.load → ∃ position, parse e.text = .error (.malformed position .tooDeep)) := by
  obtain ⟨hle, hlt⟩ := parse_text (writable_of_parse h)
  refine ⟨⟨fun hok => ?_, hle⟩, hlt⟩
  by_contra hn
  obtain ⟨position, hp⟩ := hlt (Nat.not_le.1 hn)
  rw [hp] at hok
  cases hok

/-- The parentheses of `(A1+B1)+C1*-D1` are not written again. -/
theorem parse_text_of_parse_of_sums :
    let e : Expr := .binary .add (.binary .add (.reference ⟨0, 0⟩) (.reference ⟨0, 1⟩))
      (.binary .multiply (.reference ⟨0, 2⟩) (.unary .negate (.reference ⟨0, 3⟩)))
    parse "(A1+B1)+C1*-D1" = .ok e ∧ e.text = "A1+B1+C1*-D1" ∧ parse "A1+B1+C1*-D1" = .ok e := by
  intro e
  have ha : Address.Nameable ⟨0, 0⟩ := by decide
  have hb : Address.Nameable ⟨0, 1⟩ := by decide
  have hc : Address.Nameable ⟨0, 2⟩ := by decide
  have hd : Address.Nameable ⟨0, 3⟩ := by decide
  let left : Expr := .binary .add (.reference ⟨0, 0⟩) (.reference ⟨0, 1⟩)
  let right : Expr := .binary .multiply (.reference ⟨0, 2⟩) (.unary .negate (.reference ⟨0, 3⟩))
  have hs : String.join ((Expr.enclose true left.lexemes ++ BinaryOp.add.lexeme :: right.lexemes).map
      (·.text)) = "(A1+B1)+C1*-D1" := by cbv
  have hparse : parse "(A1+B1)+C1*-D1" = .ok e := by
    rw [← hs]
    exact parse_enclose_add ⟨ha, hb⟩ ⟨hc, hd⟩ (by decide) (by decide)
  have htext : e.text = "A1+B1+C1*-D1" := by cbv
  have hagain := (parse_text_of_parse hparse).1.2 (by decide)
  rw [htext] at hagain
  exact ⟨hparse, htext, hagain⟩

/-- A cell with minus signs in front. -/
def negations (cell : Address) : Nat → Expr
  | 0 => .reference cell
  | n + 1 => .unary .negate (negations cell n)

section Negations

variable (cell : Address) (n : Nat)

theorem three_le_level_negations : 3 ≤ (negations cell n).level := by
  cases n with
  | zero => exact Nat.le_succ 3
  | succ n => exact Nat.le_refl 3

theorem load_negations : (negations cell n).load = n := by
  induction n with
  | zero => rfl
  | succ n ih =>
    have h := three_le_level_negations cell n
    rw [negations, Expr.load, ih, if_neg (by omega)]

theorem lexemes_negations :
    (negations cell n).lexemes = List.replicate n ⟨.minus, "-"⟩ ++ [⟨.reference, cell.text⟩] := by
  induction n with
  | zero => rfl
  | succ n ih =>
    have h := three_le_level_negations cell n
    have hlevel : ¬ (negations cell n).level < 3 := by omega
    rw [negations, Expr.lexemes, ih, List.replicate_succ]
    simp only [hlevel, decide_false, Expr.enclose]
    rfl

theorem writable_negations {cell : Address} (h : cell.Nameable) : (negations cell n).Writable := by
  induction n with
  | zero => exact h
  | succ n ih => exact ih

end Negations

/-- Parentheses around the first operand of a sum are not written. Its operator then stays open for
the second operand, and one level more is needed there. -/
theorem parse_text_ne_of_parens :
    let s := String.join (["(", "A1", "+", "A1", ")", "+"] ++ List.replicate 255 "-" ++ ["A1"])
    ∃ e, parse s = .ok e ∧ parse e.text ≠ .ok e := by
  intro s
  let cell : Address := ⟨0, 0⟩
  let left : Expr := .binary .add (.reference cell) (.reference cell)
  let xs := Expr.enclose true left.lexemes ++ BinaryOp.add.lexeme :: (negations cell 255).lexemes
  have hcell : cell.Nameable := by decide
  have hleft : left.Writable := ⟨hcell, hcell⟩
  have hright := writable_negations 255 hcell
  have htext : cell.text = "A1" := by cbv
  have hl : (Expr.enclose true left.lexemes).map (·.text) = ["(", cell.text, "+", cell.text, ")"] :=
    rfl
  have hr : (negations cell 255).lexemes.map (·.text) = List.replicate 255 "-" ++ [cell.text] := by
    rw [lexemes_negations, List.map_append, List.map_replicate]
    rfl
  have hs : s = String.join (xs.map (·.text)) := by
    rw [List.map_append, List.map_cons, hl, hr, htext]
    rfl
  have hload : (negations cell 255).load = 255 := load_negations cell 255
  have hlevel := three_le_level_negations cell 255
  -- The parentheses end the chain of the first operand, so that 256 levels are enough.
  have hparse : parse s = .ok (.binary .add left (negations cell 255)) := by
    rw [hs]
    refine parse_enclose_add hleft hright (by omega) ?_
    rw [hload]
    decide
  refine ⟨_, hparse, fun htext => ?_⟩
  have hle := (parse_text_of_parse hparse).1.1 htext
  have hspine : left.spine BinaryOp.add.level = 1 := rfl
  have hmax : maxNesting = 256 := rfl
  rw [Expr.load, hload] at hle
  have hright := Nat.le_trans (Nat.le_max_right _ _) hle
  omega

end Formula

end Spreadsheet
