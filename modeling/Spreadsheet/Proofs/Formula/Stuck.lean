import Spreadsheet.Proofs.Formula.Height
import Spreadsheet.Proofs.Formula.Faults
import Spreadsheet.Proofs.Formula.Tiling

/-!
Where malformed formulas are reported: at the first token that no formula has after the tokens before
it, or where the tokens end if they are the start of a formula and no more. The nesting limit is left
out, which is reported after the operator or the parenthesis that is one too many.
-/
namespace Spreadsheet.Formula

variable {stop room limit n place : Nat} {left e : Expr} {ts us rest : List Token} {t : Token}
  {x : Lexeme} {xs ys : List Lexeme} {loads : List Nat} {fault : SyntaxFault}

/-- Whether lexemes can be completed to a factor for which there is room. -/
def BeginsFactor (room : Nat) (xs : List Lexeme) : Prop :=
  ∃ ys e loads, DerivesFactor (xs ++ ys) e loads ∧ greatest loads ≤ room

/-- Whether lexemes can be completed to a product for which there is room. -/
def BeginsProduct (room : Nat) (xs : List Lexeme) : Prop :=
  ∃ ys n e loads, DerivesProduct n (xs ++ ys) e loads ∧ greatest loads ≤ room

/-- Whether lexemes can be completed to a sum for which there is room. -/
def BeginsSum (room : Nat) (xs : List Lexeme) : Prop :=
  ∃ ys n e loads, DerivesSum n (xs ++ ys) e loads ∧ greatest loads ≤ room

section Begins

/-- An operand needs no room. -/
theorem beginsFactor_nil (room : Nat) : BeginsFactor room [] :=
  ⟨_, _, _, derivesFactor_name, Nat.zero_le room⟩

theorem BeginsFactor.sign {op : UnaryOp} (hop : x.kind.sign? = some op) (h : BeginsFactor room xs) :
    BeginsFactor (room + 1) (x :: xs) := by
  obtain ⟨ys, e, loads, h, hle⟩ := h
  refine ⟨ys, _, _, h.sign hop, ?_⟩
  rw [greatest_open]
  omega

theorem BeginsSum.open (hx : x.kind = .leftParen) (h : BeginsSum room xs) :
    BeginsFactor (room + 1) (x :: xs) := by
  obtain ⟨ys, n, e, loads, h, hle⟩ := h
  have hparens := DerivesFactor.parens (r := ⟨.rightParen, ")"⟩) hx rfl h
  rw [List.cons_append, List.append_assoc] at hparens
  refine ⟨_, _, _, hparens, ?_⟩
  rw [greatest_open]
  omega

theorem BeginsFactor.product (h : BeginsFactor room xs) : BeginsProduct room xs := by
  obtain ⟨ys, e, loads, h, hle⟩ := h
  exact ⟨ys, 0, e, loads, .factor h, hle⟩

theorem BeginsProduct.sum (h : BeginsProduct room xs) : BeginsSum room xs := by
  obtain ⟨ys, n, e, loads, h, hle⟩ := h
  exact ⟨ys, 0, e, loads, .product h, hle⟩

theorem DerivesSum.begins (h : DerivesSum n xs e loads) (hle : greatest loads ≤ room) :
    BeginsSum room xs := by
  refine ⟨[], n, e, loads, ?_, hle⟩
  rwa [List.append_nil]

theorem BeginsFactor.chain {op : BinaryOp} (hop : x.kind.multiplicative? = some op)
    (hl : DerivesProduct n xs left loads) (hle : greatest loads ≤ room + (n + 1))
    (h : BeginsFactor room ys) : BeginsProduct (room + (n + 1)) (xs ++ x :: ys) := by
  obtain ⟨zs, right, loads', hr, hle'⟩ := h
  have hchain := hl.chain hop hr
  rw [← List.cons_append, ← List.append_assoc] at hchain
  refine ⟨zs, _, _, _, hchain, ?_⟩
  rw [greatest_chain]
  omega

theorem BeginsProduct.chain {op : BinaryOp} (hop : x.kind.additive? = some op)
    (hl : DerivesSum n xs left loads) (hle : greatest loads ≤ room + (n + 1))
    (h : BeginsProduct room ys) : BeginsSum (room + (n + 1)) (xs ++ x :: ys) := by
  obtain ⟨zs, m, right, loads', hr, hle'⟩ := h
  have hchain := hl.chain hop hr
  rw [← List.cons_append, ← List.append_assoc] at hchain
  refine ⟨zs, _, _, _, hchain, ?_⟩
  rw [greatest_chain]
  omega

end Begins

section Ends

/-- Whether no operator comes next. -/
structure EndsSum (ts : List Token) : Prop where
  endsProduct : EndsProduct ts
  additive?_eq_none : ∀ t ∈ ts.head?, t.kind.additive? = none

/-- The next token alone tells whether a sum ends before it. -/
theorem EndsSum.of_cons (h : EndsSum (t :: ts)) (rest : List Token) : EndsSum (t :: rest) :=
  ⟨h.endsProduct, h.additive?_eq_none⟩

theorem sumChain_of_endsSum (h : EndsSum rest) : sumChain stop room e rest = .ok (e, rest) := by
  cases rest with
  | nil => rw [sumChain]
  | cons t rest => rw [sumChain, h.additive?_eq_none t rfl]

theorem endsProduct_of_productChain {room : Nat} {left : Expr} {ts : List Token}
    (h : productChain stop room left ts = .ok (e, rest)) : EndsProduct rest := by
  rw [productChain.eq_def] at h
  split at h
  · cases h
    exact endsProduct_nil
  · split at h
    · rename_i hop
      cases h
      exact endsProduct_cons hop _
    · split at h
      · cases h
      · split at h
        · cases h
        · exact endsProduct_of_productChain h
termination_by room

theorem endsProduct_of_product (h : product stop room ts = .ok (e, rest)) : EndsProduct rest := by
  rw [product] at h
  split at h
  · cases h
  · exact endsProduct_of_productChain h

theorem endsSum_of_sumChain {room : Nat} {left : Expr} {ts : List Token} (hts : EndsProduct ts)
    (h : sumChain stop room left ts = .ok (e, rest)) : EndsSum rest := by
  rw [sumChain.eq_def] at h
  split at h
  · cases h
    constructor
    · exact hts
    · intro t ht
      cases ht
  · split at h
    · rename_i hop
      cases h
      constructor
      · exact hts
      · intro t ht
        cases ht
        exact hop
    · split at h
      · cases h
      · split at h
        · cases h
        · rename_i hp
          exact endsSum_of_sumChain (endsProduct_of_product hp) h
termination_by room

theorem endsSum_of_sum (h : sum stop room ts = .ok (e, rest)) : EndsSum rest := by
  rw [sum] at h
  split at h
  · cases h
  · rename_i hp
    exact endsSum_of_sumChain (endsProduct_of_product hp) h

/-- A chain that fails has an operator of a sum at its front. -/
theorem endsProduct_of_sumChain_error {e : FormulaError}
    (h : sumChain stop room left ts = .error e) : EndsProduct ts := by
  rw [sumChain.eq_def] at h
  split at h
  · cases h
  · split at h
    · cases h
    · rename_i hop
      exact endsProduct_cons (multiplicative?_eq_none hop) _

end Ends

section Derives

theorem DerivesFactor.factor_eq (h : DerivesFactor (us.map Token.toLexeme) e loads)
    (hle : greatest loads ≤ room) (stop : Nat) (rest : List Token) :
    factor stop room (us ++ rest) = .ok (e, rest) :=
  (h.reads us rfl stop room rest).1 hle

theorem DerivesProduct.product_eq (h : DerivesProduct n (us.map Token.toLexeme) e loads)
    (hle : greatest loads ≤ room) (stop : Nat) (hrest : EndsProduct rest) :
    product stop room (us ++ rest) = .ok (e, rest) :=
  (h.reads.whole rfl hrest stop room).1 hle

theorem DerivesSum.sum_eq (h : DerivesSum n (us.map Token.toLexeme) e loads)
    (hle : greatest loads ≤ room) (stop : Nat) (hrest : EndsSum rest) :
    sum stop room (us ++ rest) = .ok (e, rest) := by
  rw [(h.reads us rfl stop room rest hrest.endsProduct).1 hle, sumChain_of_endsSum hrest]

/-- What is read before a token is read before it whatever comes after the token. -/
theorem exists_derives_of_sum_cons (h : sum stop room ts = .ok (e, t :: rest)) :
    ∃ us, ts = us ++ t :: rest ∧ BeginsSum room (us.map Token.toLexeme) ∧
      ∀ stop rest, sum stop room (us ++ t :: rest) = .ok (e, t :: rest) := by
  obtain ⟨n, us, loads, hus, hderives, hle⟩ := derives_of_sum h
  refine ⟨us, hus, hderives.begins hle, fun stop rest' => ?_⟩
  exact hderives.sum_eq hle stop ((endsSum_of_sum h).of_cons rest')

end Derives

/-- Whether reading fails at `place` and rightly so: the tokens before the place can be completed, and
either no list that starts with them and the token there is read, or they are the whole list. -/
inductive Stuck {α : Type} (read : Nat → List Token → Except FormulaError α)
    (Begins : List Lexeme → Prop) (stop : Nat) : List Token → Nat → Prop where
  | token {us : List Token} {t : Token} {rest : List Token}
      (hbegins : Begins (us.map Token.toLexeme))
      (hfails : ∀ stop rest, ∃ fault,
        read stop (us ++ t :: rest) = .error (.malformed t.position fault)) :
      Stuck read Begins stop (us ++ t :: rest) t.position
  | stop {ts : List Token} (hbegins : Begins (ts.map Token.toLexeme)) : Stuck read Begins stop ts stop

/-- Tokens in front that are read without a fault. -/
theorem Stuck.append {read read' : Nat → List Token → Parsed} {Begins Begins' : List Lexeme → Prop}
    (h : Stuck read Begins stop ts place) (us : List Token)
    (hread : ∀ stop ts e, read stop ts = .error e → read' stop (us ++ ts) = .error e)
    (hbegins : ∀ xs, Begins xs → Begins' (us.map Token.toLexeme ++ xs)) :
    Stuck read' Begins' stop (us ++ ts) place := by
  cases h with
  | token hvs hfails =>
    rw [← List.append_assoc]
    constructor
    · rw [List.map_append]
      exact hbegins _ hvs
    · intro stop rest
      obtain ⟨fault, hfault⟩ := hfails stop rest
      exists fault
      rw [List.append_assoc]
      exact hread _ _ _ hfault
  | stop hts =>
    apply Stuck.stop
    rw [List.map_append]
    exact hbegins _ hts

theorem operand_of_kind_ne (hn : t.kind ≠ .number) (hr : t.kind ≠ .reference)
    (hl : t.kind ≠ .leftParen) (stop room : Nat) (rest : List Token) :
    operand stop room t rest = .error (.malformed t.position (.expectedOperand t.text)) := by
  rw [operand.eq_def]
  split
  · rename_i hk
    exact absurd hk hn
  · rename_i hk
    exact absurd hk hr
  · rename_i hk
    exact absurd hk hl
  · rfl

theorem fault_eq_of_tooDeep (h : tooDeep stop ts = .malformed place fault) : fault = .tooDeep := by
  obtain ⟨position, hposition⟩ := tooDeep_eq stop ts
  rw [hposition] at h
  cases h
  rfl

/-- A token that is no start of an operand. -/
theorem stuck_at_operand (ht : t.kind.sign? = none) (h : ∀ stop rest, ∃ fault,
    operand stop room t rest = .error (.malformed t.position fault)) :
    Stuck (fun stop => factor stop room) (BeginsFactor room) stop (t :: ts) t.position := by
  rw [← List.nil_append (t :: ts)]
  apply Stuck.token
  · exact beginsFactor_nil room
  · intro stop rest
    rw [List.nil_append, factor_of_sign?_eq_none ht]
    exact h stop rest

mutual

/-- A fault is reported at the token or at the end that reading gets stuck at. -/
theorem stuck_of_sum {stop room place : Nat} {fault : SyntaxFault} {ts : List Token}
    (hf : fault ≠ .tooDeep) (h : sum stop room ts = .error (.malformed place fault)) :
    Stuck (fun stop => sum stop room) (BeginsSum room) stop ts place := by
  rw [sum] at h
  split at h
  · rename_i hp
    cases h
    apply (stuck_of_product hf hp).append []
    · intro stop ts e he
      rw [List.nil_append, sum, he]
    · intro xs hbegins
      exact hbegins.sum
  · rename_i hp
    obtain ⟨n, us, loads, rfl, hl, hle⟩ := derives_of_product hp
    apply (stuck_of_sumChain hf (.product hl) hle rfl h).append us
    · intro stop ts e he
      rw [sum, hl.product_eq hle stop (endsProduct_of_sumChain_error he)]
      exact he
    · intro xs hbegins
      exact hbegins
termination_by (room, 4)

theorem stuck_of_sumChain {stop room limit n place : Nat} {fault : SyntaxFault} {left : Expr}
    {ts : List Token} {xs : List Lexeme} {loads : List Nat} (hf : fault ≠ .tooDeep)
    (hl : DerivesSum n xs left loads) (hle : greatest loads ≤ limit) (hlimit : room + n = limit)
    (h : sumChain stop room left ts = .error (.malformed place fault)) :
    Stuck (fun stop => sumChain stop room left) (fun ys => BeginsSum limit (xs ++ ys)) stop ts
      place := by
  rw [sumChain.eq_def] at h
  split at h
  · cases h
  · rename_i t ts
    split at h
    · cases h
    · rename_i op hop
      split at h
      · exact absurd (fault_eq_of_tooDeep (Except.error.inj h)) hf
      · rename_i room
        subst hlimit
        rw [Nat.succ_add_eq_add_succ] at hle ⊢
        split at h
        · rename_i hp
          cases h
          apply (stuck_of_product hf hp).append [t]
          · intro stop ts e he
            exact sumChain_cons_of_error hop he
          · intro ys hbegins
            exact hbegins.chain hop hl hle
        · rename_i hp
          obtain ⟨m, us, loads', rfl, hr, hle'⟩ := derives_of_product hp
          -- the room left and the operators read so far add up to the limit throughout
          have hchain := hl.chain hop hr
          have hle₁ : greatest (loads ++ (n + 1) :: loads'.map (n + 1 + ·)) ≤ room + (n + 1) := by
            rw [greatest_chain]
            omega
          apply (stuck_of_sumChain hf hchain hle₁ rfl h).append (t :: us)
          · intro stop ts e he
            have hproduct := hr.product_eq hle' stop (endsProduct_of_sumChain_error he)
            rw [List.cons_append, sumChain_cons_of_ok hop hproduct]
            exact he
          · intro ys hbegins
            rwa [List.append_assoc] at hbegins
termination_by (room, 0)

theorem stuck_of_product {stop room place : Nat} {fault : SyntaxFault} {ts : List Token}
    (hf : fault ≠ .tooDeep) (h : product stop room ts = .error (.malformed place fault)) :
    Stuck (fun stop => product stop room) (BeginsProduct room) stop ts place := by
  rw [product] at h
  split at h
  · rename_i hfactor
    cases h
    apply (stuck_of_factor hf hfactor).append []
    · intro stop ts e he
      rw [List.nil_append, product, he]
    · intro xs hbegins
      exact hbegins.product
  · rename_i hfactor
    obtain ⟨us, loads, rfl, hl, hle⟩ := derives_of_factor hfactor
    apply (stuck_of_productChain hf (.factor hl) hle rfl h).append us
    · intro stop ts e he
      rw [product, hl.factor_eq hle]
      exact he
    · intro xs hbegins
      exact hbegins
termination_by (room, 3)

theorem stuck_of_productChain {stop room limit n place : Nat} {fault : SyntaxFault} {left : Expr}
    {ts : List Token} {xs : List Lexeme} {loads : List Nat} (hf : fault ≠ .tooDeep)
    (hl : DerivesProduct n xs left loads) (hle : greatest loads ≤ limit) (hlimit : room + n = limit)
    (h : productChain stop room left ts = .error (.malformed place fault)) :
    Stuck (fun stop => productChain stop room left) (fun ys => BeginsProduct limit (xs ++ ys)) stop
      ts place := by
  rw [productChain.eq_def] at h
  split at h
  · cases h
  · rename_i t ts
    split at h
    · cases h
    · rename_i op hop
      split at h
      · exact absurd (fault_eq_of_tooDeep (Except.error.inj h)) hf
      · rename_i room
        subst hlimit
        rw [Nat.succ_add_eq_add_succ] at hle ⊢
        split at h
        · rename_i hfactor
          cases h
          apply (stuck_of_factor hf hfactor).append [t]
          · intro stop ts e he
            exact productChain_cons_of_error hop he
          · intro ys hbegins
            exact hbegins.chain hop hl hle
        · rename_i hfactor
          obtain ⟨us, loads', rfl, hr, hle'⟩ := derives_of_factor hfactor
          have hchain := hl.chain hop hr
          have hle₁ : greatest (loads ++ (n + 1) :: loads'.map (n + 1 + ·)) ≤ room + (n + 1) := by
            rw [greatest_chain]
            omega
          apply (stuck_of_productChain hf hchain hle₁ rfl h).append (t :: us)
          · intro stop ts e he
            rw [List.cons_append, productChain_cons_of_ok hop (hr.factor_eq hle' stop ts)]
            exact he
          · intro ys hbegins
            rwa [List.append_assoc] at hbegins
termination_by (room, 0)

theorem stuck_of_factor {stop room place : Nat} {fault : SyntaxFault} {ts : List Token}
    (hf : fault ≠ .tooDeep) (h : factor stop room ts = .error (.malformed place fault)) :
    Stuck (fun stop => factor stop room) (BeginsFactor room) stop ts place := by
  rw [factor.eq_def] at h
  split at h
  · cases h
    exact .stop (beginsFactor_nil room)
  · rename_i t ts
    split at h
    · rename_i ht
      exact stuck_of_operand hf ht h
    · rename_i op hop
      split at h
      · exact absurd (fault_eq_of_tooDeep (Except.error.inj h)) hf
      · rename_i room
        split at h
        · rename_i hfactor
          cases h
          apply (stuck_of_factor hf hfactor).append [t]
          · intro stop ts e he
            exact factor_sign_of_error hop he
          · intro xs hbegins
            exact hbegins.sign hop
        · cases h
termination_by (room, 2)

theorem stuck_of_operand {stop room place : Nat} {fault : SyntaxFault} {t : Token} {ts : List Token}
    (hf : fault ≠ .tooDeep) (ht : t.kind.sign? = none)
    (h : operand stop room t ts = .error (.malformed place fault)) :
    Stuck (fun stop => factor stop room) (BeginsFactor room) stop (t :: ts) place := by
  rw [operand.eq_def] at h
  split at h
  · split at h <;> cases h
  · rename_i hk
    split at h
    · rename_i e haddress
      cases h
      obtain ⟨reason, -, he⟩ := exists_malformed_of_addressOf haddress
      cases he
      refine stuck_at_operand ht fun stop rest => ⟨.badReference reason, ?_⟩
      rw [operand.eq_def, hk]
      simp only [haddress]
    · cases h
  · rename_i hk
    split at h
    · exact absurd (fault_eq_of_tooDeep (Except.error.inj h)) hf
    · rename_i room
      split at h
      · rename_i hs
        cases h
        apply (stuck_of_sum hf hs).append [t]
        · intro stop ts e he
          exact factor_leftParen_of_error hk he
        · intro xs hbegins
          exact hbegins.open hk
      · rename_i hs
        cases h
        obtain ⟨n, us, loads, rfl, hderives, hle⟩ := derives_of_sum hs
        rw [List.append_nil]
        exact .stop ((hderives.begins hle).open hk)
      · rename_i e u rest hs
        split at h
        · cases h
        · rename_i hclose
          cases h
          obtain ⟨us, rfl, hbegins, hread⟩ := exists_derives_of_sum_cons hs
          rw [← List.cons_append]
          apply Stuck.token
          · exact hbegins.open hk
          · intro stop rest
            exact ⟨_, factor_leftParen_of_kind_ne hk hclose (hread stop rest)⟩
  · rename_i hn hr hl
    cases h
    exact stuck_at_operand ht fun stop rest => ⟨_, operand_of_kind_ne hn hr hl stop room rest⟩
termination_by (room, 1)

end

section Tokens

theorem ofTokens_of_error {e : FormulaError} (hts : ts ≠ [])
    (h : sum (stopOf ts) maxNesting ts = .error e) : ofTokens ts = .error e := by
  rw [ofTokens, if_neg (by rwa [List.isEmpty_iff])]
  simp only [h]

theorem ofTokens_of_cons (hts : ts ≠ []) (h : sum (stopOf ts) maxNesting ts = .ok (e, t :: rest)) :
    ofTokens ts = .error (.malformed t.position (.afterExpression t.text)) := by
  rw [ofTokens, if_neg (by rwa [List.isEmpty_iff])]
  simp only [h]

theorem stuck_of_ofTokens (hf : fault ≠ .tooDeep)
    (h : ofTokens ts = .error (.malformed place fault)) :
    Stuck (fun _ => ofTokens) (BeginsSum maxNesting) (stopOf ts) ts place := by
  have hne : ∀ (us : List Token) (t : Token) (rest : List Token), us ++ t :: rest ≠ [] :=
    fun us t rest => List.append_ne_nil_of_right_ne_nil us (List.cons_ne_nil t rest)
  unfold ofTokens at h
  split at h
  · rename_i hempty
    obtain rfl := List.isEmpty_iff.1 hempty
    cases h
    exact .stop (beginsFactor_nil maxNesting).product.sum
  · split at h
    · rename_i hs
      cases h
      cases stuck_of_sum hf hs with
      | token hbegins hfails =>
        apply Stuck.token
        · exact hbegins
        · intro _ rest
          obtain ⟨fault, hfault⟩ := hfails (stopOf _) rest
          exact ⟨fault, ofTokens_of_error (hne _ _ rest) hfault⟩
      | stop hbegins => exact .stop hbegins
    · cases h
    · rename_i e t rest hs
      cases h
      obtain ⟨us, hus, hbegins, hread⟩ := exists_derives_of_sum_cons hs
      rw [hus]
      apply Stuck.token
      · exact hbegins
      · intro _ rest
        exact ⟨_, ofTokens_of_cons (hne _ _ rest) (hread _ rest)⟩

theorem BeginsSum.exists_ofTokens (h : BeginsSum maxNesting (us.map Token.toLexeme)) :
    ∃ vs e, ofTokens (us ++ vs) = .ok e := by
  obtain ⟨ys, n, e, loads, h, hle⟩ := h
  rw [← Token.map_place 0 ys, ← List.map_append] at h
  exact ⟨_, e, h.ofTokens.1 hle⟩

/-- The tokens before one of them are those at lower positions. -/
theorem filter_position_lt (h : (us ++ t :: rest).Pairwise fun t u => t.position < u.position) :
    (us ++ t :: rest).filter (·.position < t.position) = us := by
  obtain ⟨-, hrest, hus⟩ := List.pairwise_append.1 h
  rw [List.filter_append, List.filter_eq_self.2, List.filter_eq_nil_iff.2, List.append_nil]
  · intro u hu
    rcases List.mem_cons.1 hu with rfl | hu
    · simp
    · have hlt := (List.pairwise_cons.1 hrest).1 u hu
      simp only [decide_eq_true_eq]
      omega
  · intro u hu
    exact decide_eq_true (hus u hu t List.mem_cons_self)

theorem position_lt_stopOf (h : ts.Pairwise fun t u => t.position < u.position)
    (hpos : ∀ t ∈ ts, 0 < t.text.utf8ByteSize) : ∀ t ∈ ts, t.position < stopOf ts := by
  rcases List.eq_nil_or_concat' ts with rfl | ⟨us, u, rfl⟩
  · intro t ht
    cases ht
  · have hstop : stopOf (us ++ [u]) = u.position + u.text.utf8ByteSize := by
      rw [stopOf, List.getLast?_concat]
      rfl
    have hu := hpos u List.mem_concat_self
    intro t ht
    rw [hstop]
    rcases List.mem_append.1 ht with ht | ht
    · have hlt := (List.pairwise_append.1 h).2.2 t ht u List.mem_cons_self
      omega
    · rw [List.mem_singleton.1 ht]
      omega

end Tokens

/-- A formula that is malformed, but not for its nesting, is reported at one of its tokens or where it
ends. The tokens before this place are the start of some formula, and together with the token at this
place they are the start of none. -/
theorem completes_before_malformed {s : String} (hs : tokenize s = .ok ts)
    (h : ofTokens ts = .error (.malformed place fault)) (hf : fault ≠ .tooDeep) :
    ((∃ t ∈ ts, t.position = place) ∨ place = stopOf ts) ∧
      (∃ vs e, ofTokens (ts.filter (·.position < place) ++ vs) = .ok e) ∧
      ∀ us t rest, ts = us ++ t :: rest → t.position = place →
        ∀ rest' e, ofTokens (us ++ t :: rest') ≠ .ok e := by
  obtain ⟨ps, hps⟩ := Token.exists_tiles_of_scan hs
  have hscan := hps.scan_eq 0
  rw [← tokenize, hs] at hscan
  have hlie := hps.lieIn 0
  rw [← Except.ok.inj hscan] at hlie
  have hstop := position_lt_stopOf hlie.increasing fun t ht => (hlie.slice t ht).1.utf8ByteSize_pos
  have hstuck := stuck_of_ofTokens hf h
  generalize stopOf ts = stop at hstuck hstop ⊢
  cases hstuck with
  | @token us t rest hbegins hfails =>
    have hus := filter_position_lt hlie.increasing
    refine ⟨.inl ⟨t, by simp, rfl⟩, ?_, fun us' t' rest₁ hts ht rest' e => ?_⟩
    · rw [hus]
      exact hbegins.exists_ofTokens
    · rw [hts] at hlie
      have hus' := filter_position_lt hlie.increasing
      rw [ht, ← hts, hus] at hus'
      subst hus'
      obtain ⟨rfl, -⟩ := List.cons.inj (List.append_cancel_left hts)
      obtain ⟨fault, hfault⟩ := hfails stop rest'
      rw [hfault]
      intro hok
      cases hok
  | stop hbegins =>
    refine ⟨.inr rfl, ?_, fun us t rest hts ht => ?_⟩
    · rw [List.filter_eq_self.2 fun t ht => decide_eq_true (hstop t ht)]
      exact hbegins.exists_ofTokens
    · have hlt := hstop t (by simp [hts])
      omega

/-- An operand may follow a sign between parentheses, but the closing one may not. -/
theorem completes_before_malformed_of_sign :
    let ts : List Token := [⟨⟨.leftParen, "("⟩, 0⟩, ⟨⟨.minus, "-"⟩, 1⟩, ⟨⟨.rightParen, ")"⟩, 3⟩]
    tokenize "(- )" = .ok ts ∧ ofTokens ts = .error (.malformed 3 (.expectedOperand ")")) ∧
      (∃ vs e, ofTokens (ts.take 2 ++ vs) = .ok e) ∧ ∀ rest e, ofTokens (ts ++ rest) ≠ .ok e := by
  intro ts
  have hs : tokenize "(- )" = .ok ts := by
    unfold ts
    cbv
  have h : ofTokens ts = .error (.malformed 3 (.expectedOperand ")")) := by
    unfold ts
    cbv
  obtain ⟨-, hcompletes, hfails⟩ := completes_before_malformed hs h SyntaxFault.noConfusion
  exact ⟨hs, h, hcompletes, fun rest => hfails (ts.take 2) _ [] rfl rfl rest⟩

end Spreadsheet.Formula
