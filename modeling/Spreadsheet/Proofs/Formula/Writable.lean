import Spreadsheet.Proofs.Formula.Grammar
import Spreadsheet.Proofs.Formula.Scan

/-! The trees that are read from texts have numbers without a sign and addresses that a text may
name. -/
namespace Spreadsheet.Formula

/-- Tokens as a text is cut into. -/
def WellFormed (ts : List Token) : Prop := ∀ t ∈ ts, t.toLexeme.WellFormed

mutual

theorem DerivesFactor.writable {xs : List Lexeme} {e : Expr} {loads : List Nat} :
    DerivesFactor xs e loads → (∀ x ∈ xs, x.WellFormed) → e.Writable
  | .number (x := x) hk hvalue, hx => by
    obtain ⟨n, hn⟩ := (hx x List.mem_cons_self).exists_numeral hk
    rw [hn] at hvalue
    exact Number.unsigned_of_read? hvalue
  | .reference _ hcell, _ => Address.nameable_of_parse hcell
  | .sign _ h, hx => h.writable fun y hy => hx y (List.mem_cons_of_mem _ hy)
  | .parens _ _ h, hx => h.writable fun y hy => hx y (by simp [hy])

theorem DerivesProduct.writable {n : Nat} {xs : List Lexeme} {e : Expr} {loads : List Nat} :
    DerivesProduct n xs e loads → (∀ x ∈ xs, x.WellFormed) → e.Writable
  | .factor h, hx => h.writable hx
  | .chain _ hl hr, hx =>
    ⟨hl.writable fun y hy => hx y (by simp [hy]), hr.writable fun y hy => hx y (by simp [hy])⟩

theorem DerivesSum.writable {n : Nat} {xs : List Lexeme} {e : Expr} {loads : List Nat} :
    DerivesSum n xs e loads → (∀ x ∈ xs, x.WellFormed) → e.Writable
  | .product h, hx => h.writable hx
  | .chain _ hl hr, hx =>
    ⟨hl.writable fun y hy => hx y (by simp [hy]), hr.writable fun y hy => hx y (by simp [hy])⟩

end

theorem writable_of_ofTokens {ts : List Token} {e : Expr} (h : ofTokens ts = .ok e)
    (ht : WellFormed ts) : e.Writable := by
  obtain ⟨n, loads, h, -⟩ := derives_of_ofTokens h
  refine h.writable fun x hx => ?_
  obtain ⟨t, htts, rfl⟩ := List.mem_map.1 hx
  exact ht t htts

/-- A text that is read was cut into tokens, and these were read. -/
theorem exists_ofTokens_of_parse {s : String} {e : Expr} (h : parse s = .ok e) :
    ∃ ts, Token.scan 0 (body s.toList) = .ok ts ∧ ofTokens ts = .ok e := by
  unfold parse at h
  dsimp only at h
  cases hts : Token.scan 0 (body s.toList) with
  | error fault =>
    rw [hts] at h
    cases h
  | ok ts =>
    rw [hts] at h
    split at h
    · cases h
    · rename_i he
      cases h
      exact ⟨ts, rfl, he⟩

/-- Every tree that is read from a text can be written. -/
theorem writable_of_parse {s : String} {e : Expr} (h : parse s = .ok e) : e.Writable := by
  obtain ⟨ts, hts, he⟩ := exists_ofTokens_of_parse h
  exact writable_of_ofTokens he (Token.wellFormed_of_scan hts)

end Spreadsheet.Formula
