import Spreadsheet.Proofs.Formula.Grammar

/-! The causes that a formula is refused for. They are errors of its text: none names a cell without an
outcome or a cycle. -/
namespace Spreadsheet

inductive FormulaError.OfText : FormulaError → Prop where
  | malformed (position : Nat) (fault : SyntaxFault) : OfText (.malformed position fault)
  | badNumber (text : String) : OfText (.badNumber text)

theorem FormulaError.OfText.shift {e : FormulaError} (h : e.OfText) (offset : Nat) :
    (e.shift offset).OfText := by
  cases h with
  | malformed position fault => exact .malformed _ _
  | badNumber text => exact .badNumber _

/-- A text that cannot be cut into tokens is malformed at some place. -/
theorem Token.exists_malformed_of_scan {position : Nat} {cs : List Char} {e : FormulaError}
    (h : scan position cs = .error e) : ∃ place fault, e = .malformed place fault := by
  induction position, cs using scan.induct with
  | case1 position => simp [scan] at h
  | case2 position c cs hc ih =>
    rw [scan, if_pos hc] at h
    exact ih h
  | case3 position c cs hc distance fault hr =>
    rw [scan_of_error hc hr] at h
    cases h
    exact ⟨_, fault, rfl⟩
  | case4 position c cs hc x rest hr hlen e' hs ih =>
    rw [scan_of_ok hc hr, hs] at h
    cases h
    exact ih hs
  | case5 position c cs hc x rest hr hlen tokens hs ih =>
    rw [scan_of_ok hc hr, hs] at h
    cases h

theorem Token.ofText_of_scan {position : Nat} {cs : List Char} {e : FormulaError}
    (h : scan position cs = .error e) : e.OfText := by
  obtain ⟨place, fault, rfl⟩ := exists_malformed_of_scan h
  exact .malformed place fault

namespace Formula

/-- A name of no address is a fault where it stands. -/
theorem exists_malformed_of_addressOf {t : Token} {e : FormulaError} (h : addressOf t = .error e) :
    ∃ reason, Address.parse t.text = .error reason ∧
      e = .malformed t.position (.badReference reason) := by
  unfold addressOf at h
  split at h
  · rename_i reason hreason
    cases h
    exact ⟨reason, hreason, rfl⟩
  · cases h

/-- What is wrong where the parser gives up, with the tokens from there on. -/
inductive Cause (stop : Nat) : List Token → FormulaError → Prop where
  | missingOperand : Cause stop [] (.malformed stop .missingOperand)
  | expectedOperand {t : Token} (rest : List Token) (hn : t.kind ≠ .number) (hr : t.kind ≠ .reference)
      (hl : t.kind ≠ .leftParen) :
      Cause stop (t :: rest) (.malformed t.position (.expectedOperand t.text))
  | badNumber {t : Token} (rest : List Token) (hk : t.kind = .number)
      (hvalue : Number.read? t.text = none) : Cause stop (t :: rest) (.badNumber t.text)
  | badReference {t : Token} {reason : AddressError} (rest : List Token) (hk : t.kind = .reference)
      (hcell : Address.parse t.text = .error reason) :
      Cause stop (t :: rest) (.malformed t.position (.badReference reason))
  | tooDeep (ts : List Token) : Cause stop ts (tooDeep stop ts)
  | unclosed {t : Token} {us : List Token} {n : Nat} {e : Expr} {loads : List Nat}
      (hl : t.kind = .leftParen) (h : DerivesSum n (us.map Token.toLexeme) e loads) :
      Cause stop (t :: us) (.malformed stop (.unclosed t.position))
  | expectedClose {t u : Token} {us : List Token} {n : Nat} {e : Expr} {loads : List Nat}
      (rest : List Token) (hl : t.kind = .leftParen) (h : DerivesSum n (us.map Token.toLexeme) e loads)
      (hr : u.kind ≠ .rightParen) :
      Cause stop (t :: us ++ u :: rest) (.malformed u.position (.expectedClose u.text))

/-- Whether there is a cause of an error somewhere in tokens. -/
def Refuses (stop : Nat) (ts : List Token) (e : FormulaError) : Prop :=
  ∃ us vs, ts = us ++ vs ∧ Cause stop vs e

theorem Cause.refuses {stop : Nat} {ts : List Token} {e : FormulaError} (h : Cause stop ts e) :
    Refuses stop ts e := ⟨[], ts, rfl, h⟩

theorem Refuses.append {stop : Nat} {ts : List Token} {e : FormulaError} (h : Refuses stop ts e)
    (us : List Token) : Refuses stop (us ++ ts) e := by
  obtain ⟨vs, ws, rfl, hcause⟩ := h
  exact ⟨us ++ vs, ws, (List.append_assoc ..).symm, hcause⟩

mutual

theorem refuses_of_sum {stop room : Nat} {ts : List Token} {e : FormulaError}
    (h : sum stop room ts = .error e) : Refuses stop ts e := by
  rw [sum] at h
  split at h
  · rename_i hp
    cases h
    exact refuses_of_product hp
  · rename_i hp
    obtain ⟨n, us, loads, rfl, -⟩ := derives_of_product hp
    exact (refuses_of_sumChain h).append us
termination_by (room, 4)

theorem refuses_of_sumChain {stop room : Nat} {left : Expr} {ts : List Token} {e : FormulaError}
    (h : sumChain stop room left ts = .error e) : Refuses stop ts e := by
  rw [sumChain.eq_def] at h
  split at h
  · cases h
  · rename_i t ts
    split at h
    · cases h
    · split at h
      · cases h
        exact (Cause.tooDeep ts).refuses.append [t]
      · split at h
        · rename_i hp
          cases h
          exact (refuses_of_product hp).append [t]
        · rename_i hp
          obtain ⟨n, us, loads, rfl, -⟩ := derives_of_product hp
          exact (refuses_of_sumChain h).append (t :: us)
termination_by (room, 0)

theorem refuses_of_product {stop room : Nat} {ts : List Token} {e : FormulaError}
    (h : product stop room ts = .error e) : Refuses stop ts e := by
  rw [product] at h
  split at h
  · rename_i hf
    cases h
    exact refuses_of_factor hf
  · rename_i hf
    obtain ⟨us, loads, rfl, -⟩ := derives_of_factor hf
    exact (refuses_of_productChain h).append us
termination_by (room, 3)

theorem refuses_of_productChain {stop room : Nat} {left : Expr} {ts : List Token}
    {e : FormulaError} (h : productChain stop room left ts = .error e) : Refuses stop ts e := by
  rw [productChain.eq_def] at h
  split at h
  · cases h
  · rename_i t ts
    split at h
    · cases h
    · split at h
      · cases h
        exact (Cause.tooDeep ts).refuses.append [t]
      · split at h
        · rename_i hf
          cases h
          exact (refuses_of_factor hf).append [t]
        · rename_i hf
          obtain ⟨us, loads, rfl, -⟩ := derives_of_factor hf
          exact (refuses_of_productChain h).append (t :: us)
termination_by (room, 0)

theorem refuses_of_factor {stop room : Nat} {ts : List Token} {e : FormulaError}
    (h : factor stop room ts = .error e) : Refuses stop ts e := by
  rw [factor.eq_def] at h
  split at h
  · cases h
    exact Cause.missingOperand.refuses
  · rename_i t ts
    split at h
    · exact refuses_of_operand h
    · split at h
      · cases h
        exact (Cause.tooDeep ts).refuses.append [t]
      · split at h
        · rename_i hf
          cases h
          exact (refuses_of_factor hf).append [t]
        · cases h
termination_by (room, 2)

theorem refuses_of_operand {stop room : Nat} {t : Token} {rest : List Token} {e : FormulaError}
    (h : operand stop room t rest = .error e) : Refuses stop (t :: rest) e := by
  rw [operand.eq_def] at h
  split at h
  · rename_i hk
    split at h
    · rename_i hvalue
      cases h
      exact (Cause.badNumber rest hk hvalue).refuses
    · cases h
  · rename_i hk
    split at h
    · rename_i haddress
      cases h
      obtain ⟨reason, hcell, rfl⟩ := exists_malformed_of_addressOf haddress
      exact (Cause.badReference rest hk hcell).refuses
    · cases h
  · rename_i hl
    split at h
    · cases h
      exact (Cause.tooDeep rest).refuses.append [t]
    · split at h
      · rename_i hs
        cases h
        exact (refuses_of_sum hs).append [t]
      · rename_i hs
        cases h
        obtain ⟨n, us, loads, rfl, hderives, -⟩ := derives_of_sum hs
        rw [List.append_nil]
        exact (Cause.unclosed hl hderives).refuses
      · rename_i u rest hs
        split at h
        · cases h
        · rename_i hr
          cases h
          obtain ⟨n, us, loads, rfl, hderives, -⟩ := derives_of_sum hs
          exact (Cause.expectedClose rest hl hderives hr).refuses
  · rename_i hn hr hl
    cases h
    exact (Cause.expectedOperand rest hn hr hl).refuses
termination_by (room, 1)

end

/-- Tokens are refused for a cause in them, for being none, or for going on after a formula. -/
theorem refuses_of_ofTokens {ts : List Token} {e : FormulaError} (h : ofTokens ts = .error e) :
    Refuses (stopOf ts) ts e ∨ ts = [] ∧ e = .malformed 0 .emptyFormula ∨
      ∃ t ∈ ts, e = .malformed t.position (.afterExpression t.text) := by
  unfold ofTokens at h
  split at h
  · rename_i hempty
    cases h
    exact .inr (.inl ⟨List.isEmpty_iff.1 hempty, rfl⟩)
  · split at h
    · rename_i hs
      cases h
      exact .inl (refuses_of_sum hs)
    · cases h
    · rename_i t rest hs
      cases h
      obtain ⟨n, us, loads, hts, -⟩ := derives_of_sum hs
      exact .inr (.inr ⟨t, by simp [hts], rfl⟩)

theorem ofText_tooDeep (stop : Nat) (ts : List Token) : (tooDeep stop ts).OfText := by
  cases ts <;> exact .malformed _ _

theorem Cause.ofText {stop : Nat} {ts : List Token} {e : FormulaError} (h : Cause stop ts e) :
    e.OfText := by
  cases h with
  | badNumber => exact .badNumber _
  | tooDeep => exact ofText_tooDeep stop ts
  | _ => exact .malformed _ _

/-- A cause is reported at one of the tokens or where they end. -/
theorem Cause.place {stop place : Nat} {fault : SyntaxFault} {ts : List Token}
    (h : Cause stop ts (.malformed place fault)) : place = stop ∨ ∃ t ∈ ts, t.position = place := by
  generalize he : FormulaError.malformed place fault = e at h
  cases h with
  | missingOperand | unclosed =>
    cases he
    exact .inl rfl
  | expectedOperand | badReference =>
    cases he
    exact .inr ⟨_, List.mem_cons_self, rfl⟩
  | badNumber => cases he
  | tooDeep ts =>
    cases ts with
    | nil =>
      cases he
      exact .inl rfl
    | cons t ts =>
      cases he
      exact .inr ⟨t, List.mem_cons_self, rfl⟩
  | @expectedClose t u =>
    cases he
    exact .inr ⟨u, by simp, rfl⟩

/-- A formula with tokens is reported at one of them or where they end. -/
theorem place_of_ofTokens {place : Nat} {fault : SyntaxFault} {ts : List Token} (hts : ts ≠ [])
    (h : ofTokens ts = .error (.malformed place fault)) :
    place = stopOf ts ∨ ∃ t ∈ ts, t.position = place := by
  rcases refuses_of_ofTokens h with ⟨us, vs, hus, hcause⟩ | ⟨hnil, -⟩ | ⟨t, ht, he⟩
  · refine hcause.place.imp_right fun ⟨t, ht, hplace⟩ => ⟨t, ?_, hplace⟩
    rw [hus]
    exact List.mem_append_right us ht
  · exact absurd hnil hts
  · cases he
    exact .inr ⟨t, ht, rfl⟩

theorem ofText_of_ofTokens {ts : List Token} {e : FormulaError} (h : ofTokens ts = .error e) :
    e.OfText := by
  rcases refuses_of_ofTokens h with ⟨us, vs, -, hcause⟩ | ⟨-, rfl⟩ | ⟨t, -, rfl⟩
  · exact hcause.ofText
  · exact .malformed _ _
  · exact .malformed _ _

theorem ofText_of_parse {s : String} {e : FormulaError} (h : parse s = .error e) : e.OfText := by
  unfold parse at h
  simp only at h
  split at h
  · rename_i e' he
    cases h
    refine FormulaError.OfText.shift ?_ _
    cases ht : Token.scan 0 (body s.toList) with
    | error e'' =>
      rw [ht] at he
      cases he
      exact Token.ofText_of_scan ht
    | ok ts =>
      rw [ht] at he
      exact ofText_of_ofTokens he
  · cases h

end Formula

end Spreadsheet
