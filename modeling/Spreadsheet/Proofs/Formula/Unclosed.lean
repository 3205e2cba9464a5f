import Spreadsheet.Proofs.Formula.Places
import Spreadsheet.Proofs.Formula.Spacing
import Spreadsheet.Proofs.Formula.Stuck

/-!
Parentheses that are never closed. A formula that ends inside a parenthesis is reported where it ends,
with the last parenthesis that is never closed; the place of this one is counted from the body of the
formula and not from its front.
-/
namespace Spreadsheet

variable {l m w cs before after : List Char} {s : String} {ps : List Piece} {x : Lexeme}

namespace Text

/-- Whether every parenthesis of a text has its partner. -/
structure Balanced (cs : List Char) : Prop where
  count_le : ∀ l, l <+: cs → l.count ')' ≤ l.count '('
  count_eq : cs.count ')' = cs.count '('

/-- Whether the parenthesis at a byte offset is opened and never closed: in no piece of text behind it
are more parentheses closed than opened. -/
def NeverClosed (s : String) (n : Nat) : Prop :=
  ∃ before after, s.toList = before ++ '(' :: after ∧ width before = n ∧
    ∀ l, l <+: after → l.count ')' ≤ l.count '('

def isParen (c : Char) : Bool := c == '(' || c == ')'

/-- The parentheses of a text. -/
def parens (cs : List Char) : List Char := cs.filter isParen

/-- No character is a parenthesis that belongs to a class without them. -/
theorem isParen_eq_false {p : Char → Bool} {c : Char} (hopen : p '(' = false) (hclose : p ')' = false)
    (hc : p c = true) : isParen c = false := by
  unfold isParen
  rw [Bool.or_eq_false_iff, beq_eq_false_iff_ne, beq_eq_false_iff_ne]
  constructor
  · rintro rfl
    rw [hopen] at hc
    cases hc
  · rintro rfl
    rw [hclose] at hc
    cases hc

theorem parens_eq_nil (h : ∀ c ∈ cs, isParen c = false) : parens cs = [] :=
  List.filter_eq_nil_iff.2 fun c hc => by simp [h c hc]

section Balanced

theorem balanced_nil : Balanced [] := by
  constructor
  · intro l hl
    rw [List.prefix_nil.1 hl]
    exact Nat.le_refl _
  · rfl

theorem Balanced.append (hl : Balanced l) (hm : Balanced m) : Balanced (l ++ m) := by
  constructor
  · rintro k ⟨r, hk⟩
    rcases List.append_eq_append_iff.1 hk with ⟨k', hl', -⟩ | ⟨k', rfl, hm'⟩
    · exact hl.count_le k ⟨k', hl'.symm⟩
    · have hle := hm.count_le k' ⟨r, hm'.symm⟩
      rw [List.count_append, List.count_append, hl.count_eq]
      omega
  · rw [List.count_append, List.count_append, hl.count_eq, hm.count_eq]

theorem Balanced.enclose (h : Balanced cs) : Balanced ('(' :: cs ++ [')']) := by
  constructor
  · intro l hl
    cases l with
    | nil => exact Nat.le_refl _
    | cons d l =>
      rw [List.cons_append, List.cons_prefix_cons, List.prefix_concat_iff] at hl
      obtain ⟨rfl, rfl | hl⟩ := hl
      · simp [h.count_eq]
      · have hle := h.count_le l hl
        simp only [List.count_cons]
        simp
        omega
  · simp [h.count_eq]

/-- A text is balanced if its parentheses are. -/
theorem Balanced.of_parens (h : Balanced (parens cs)) : Balanced cs := by
  have hcount : ∀ l : List Char, (parens l).count ')' = l.count ')' ∧ (parens l).count '(' = l.count '(' :=
    fun l => ⟨List.count_filter rfl, List.count_filter rfl⟩
  constructor
  · intro l hl
    rw [← (hcount l).1, ← (hcount l).2]
    exact h.count_le (parens l) (hl.filter _)
  · rw [← (hcount cs).1, ← (hcount cs).2]
    exact h.count_eq

/-- Of the parentheses that are never closed, the last one is that with a balanced text behind it. -/
theorem isGreatest_neverClosed (hs : s.toList = before ++ '(' :: after) (h : Balanced after) :
    IsGreatest {n | NeverClosed s n} (width before) := by
  constructor
  · exact ⟨before, after, hs, rfl, h.count_le⟩
  · rintro n ⟨before', after', hs', rfl, hclosed⟩
    by_contra hlt
    obtain ⟨k, rfl, hk⟩ := exists_append_of_width_le (hs.symm.trans hs') (by omega)
    cases k with
    | nil =>
      rw [List.append_nil] at hlt
      exact hlt (Nat.le_refl _)
    | cons d k =>
      -- A parenthesis further behind would be one too many.
      rw [List.cons_append] at hk
      obtain ⟨-, rfl⟩ := List.cons.inj hk
      have heq := h.count_eq
      have hle := h.count_le k ⟨_, rfl⟩
      have hle' := hclosed after' (List.prefix_refl _)
      have hne : ('(' : Char) ≠ ')' := by decide
      rw [List.count_append, List.count_append, List.count_cons_self, List.count_cons_of_ne hne] at heq
      omega

end Balanced

theorem dropEndBlanks_append (hne : m ≠ []) (hm : ∀ c ∈ m, isBlank c = false)
    (hw : ∀ c ∈ w, isBlank c = true) : dropEndBlanks (l ++ m ++ w) = l ++ m := by
  have hw' : ∀ c ∈ w.reverse, isBlank c = true := fun c hc => hw c (List.mem_reverse.1 hc)
  obtain ⟨c, k, hk⟩ := List.exists_cons_of_ne_nil (List.reverse_ne_nil_iff.2 hne)
  have hc : isBlank c = false := hm c (List.mem_reverse.1 (by rw [hk]; exact List.mem_cons_self))
  rw [dropEndBlanks, List.reverse_append, List.dropWhile_append_of_pos hw', List.reverse_append, hk,
    List.cons_append, List.dropWhile_cons_of_neg (by simp [hc]), ← List.cons_append, ← hk,
    ← List.reverse_append, List.reverse_reverse]

end Text

namespace Lexeme

def Kind.parens : Kind → List Char
  | leftParen => ['(']
  | rightParen => [')']
  | _ => []

theorem Kind.IsOperator.parens {kind : Kind} (h : kind.IsOperator) : kind.parens = [] := by
  cases h <;> rfl

theorem WellFormed.text_of_leftParen (hx : x.WellFormed) (hk : x.kind = .leftParen) :
    x.text.toList = ['('] := by
  cases hx with
  | symbol h =>
    cases hk
    unfold Kind.ofSymbol? at h
    split at h <;> cases h
    rfl
  | number => cases hk
  | reference => cases hk

theorem WellFormed.parens_text (hx : x.WellFormed) : Text.parens x.text.toList = x.kind.parens := by
  have hdigit : ∀ c : Char, c.isDigit = true → Text.isParen c = false := fun _ =>
    Text.isParen_eq_false rfl rfl
  have halpha : ∀ c : Char, c.isAlpha = true → Text.isParen c = false := fun _ =>
    Text.isParen_eq_false rfl rfl
  cases hx with
  | symbol h =>
    unfold Kind.ofSymbol? at h
    split at h <;> cases h <;> rfl
  | number n =>
    rw [String.toList_ofList]
    refine Text.parens_eq_nil fun c hc => ?_
    rcases n.isDigit_or_eq_point_of_mem hc with hc | rfl
    · exact hdigit c hc
    · rfl
  | reference _ _ hl hd =>
    rw [String.toList_ofList]
    refine Text.parens_eq_nil fun c hc => ?_
    rcases List.mem_append.1 hc with hc | hc
    · exact halpha c (hl c hc)
    · exact hdigit c (hd c hc)

end Lexeme

namespace Tiles

theorem parens_eq (h : Tiles ps cs) :
    Text.parens cs = (Piece.lexemes ps).flatMap fun x => x.kind.parens := by
  induction h with
  | nil => rfl
  | @blank c ps cs hc _ ih =>
    have hparen := Text.isParen_eq_false (p := Text.isBlank) rfl rfl hc
    rw [Text.parens, List.filter_cons_of_neg (by simp [hparen])]
    exact ih
  | @lexeme x ps cs hx _ _ ih =>
    rw [Text.parens, List.filter_append, Piece.lexemes, List.flatMap_cons, ← hx.parens_text, ← ih]
    rfl

/-- A token is cut out of the text, and the tokens behind it are those of the rest. -/
theorem exists_of_tokens {position : Nat} {us vs : List Token} {t : Token} (h : Tiles ps cs)
    (hts : Piece.tokens position ps = us ++ t :: vs) :
    ∃ before after qs, cs = before ++ t.text.toList ++ after ∧
      t.position = position + Text.width before ∧ t.toLexeme.WellFormed ∧ Tiles qs after ∧
      Piece.tokens t.stop qs = vs := by
  induction h generalizing position us with
  | nil => exact absurd hts.symm (List.append_ne_nil_of_right_ne_nil us (List.cons_ne_nil t vs))
  | @blank c ps cs _ _ ih =>
    obtain ⟨before, after, qs, rfl, hposition, hrest⟩ := ih hts
    refine ⟨c :: before, after, qs, rfl, ?_, hrest⟩
    rw [hposition, Text.width_cons, Nat.add_assoc]
  | @lexeme x ps cs hx _ h ih =>
    rw [Piece.tokens] at hts
    cases us with
    | nil =>
      obtain ⟨rfl, hvs⟩ := List.cons.inj hts
      exact ⟨[], cs, ps, rfl, rfl, hx, h, hvs⟩
    | cons u us =>
      obtain ⟨-, hts⟩ := List.cons.inj hts
      obtain ⟨before, after, qs, rfl, hposition, hrest⟩ := ih hts
      refine ⟨x.text.toList ++ before, after, qs, ?_, ?_, hrest⟩
      · simp only [List.append_assoc]
      · rw [hposition, Text.width_append, Text.width_toList, Nat.add_assoc]

/-- The last token ends where the blanks at the end start, with any text in front of the tokens. -/
theorem width_add_stopOf_tokens (h : Tiles ps cs) (hne : Piece.tokens 0 ps ≠ []) (front : List Char) :
    Text.width front + Formula.stopOf (Piece.tokens 0 ps) =
      Text.width (Text.dropEndBlanks (front ++ cs)) := by
  have hlast := List.dropLast_append_getLast hne
  obtain ⟨before, after, qs, hcs, hposition, hx, hqs, hnil⟩ := h.exists_of_tokens hlast.symm
  have hblank := hqs.isBlank_of_tokens hnil
  have hne' : (List.getLast _ hne).text.toList ≠ [] := by
    intro hnil
    have hpos := hx.utf8ByteSize_pos
    rw [← Text.width_toList, hnil] at hpos
    cases hpos
  have hdrop := Text.dropEndBlanks_append (l := front ++ before) hne' (fun _ => hx.isBlank_eq_false) hblank
  have hfront : front ++ cs = front ++ before ++ (List.getLast _ hne).text.toList ++ after := by
    rw [hcs]
    simp only [List.append_assoc]
  rw [hfront, hdrop, Text.width_append, Text.width_append, Text.width_toList, Nat.add_assoc]
  rw [Nat.zero_add] at hposition
  rw [Formula.stopOf, List.getLast?_eq_getLast_of_ne_nil hne, ← hposition]
  rfl

end Tiles

namespace Formula

variable {stop room n place openAt : Nat} {ts us : List Token} {e : Expr}

/-- Whether tokens end with an opening parenthesis and a sum behind it that ends with them. -/
def EndsOpen (openAt : Nat) (ts : List Token) : Prop :=
  ∃ us t vs n e loads, ts = us ++ t :: vs ∧ t.kind = .leftParen ∧ t.position = openAt ∧
    DerivesSum n (vs.map Token.toLexeme) e loads

theorem EndsOpen.append (h : EndsOpen openAt ts) (us : List Token) : EndsOpen openAt (us ++ ts) := by
  obtain ⟨vs, t, ws, n, e, loads, rfl, hrest⟩ := h
  exact ⟨us ++ vs, t, ws, n, e, loads, (List.append_assoc ..).symm, hrest⟩

/-- What is reported as unclosed is the last thing that the tokens open. -/
theorem endsOpen_of_ofTokens (h : ofTokens ts = .error (.malformed place (.unclosed openAt))) :
    place = stopOf ts ∧ EndsOpen openAt ts := by
  rcases refuses_of_ofTokens h with ⟨us, vs, rfl, hcause⟩ | ⟨-, he⟩ | ⟨t, -, he⟩
  · generalize he : FormulaError.malformed place (.unclosed openAt) = e at hcause
    cases hcause with
    | unclosed hl hderives =>
      cases he
      exact ⟨rfl, us, _, _, _, _, _, rfl, hl, rfl, hderives⟩
    | tooDeep vs =>
      have hfault := fault_eq_of_tooDeep he.symm
      cases hfault
    | _ => cases he
  · cases he
  · cases he

section Balanced

mutual

theorem DerivesFactor.balanced {xs : List Lexeme} {e : Expr} {loads : List Nat} :
    DerivesFactor xs e loads → Text.Balanced (xs.flatMap fun x => x.kind.parens)
  | .number hk _ => by
    rw [List.flatMap_singleton, hk]
    exact Text.balanced_nil
  | .reference hk _ => by
    rw [List.flatMap_singleton, hk]
    exact Text.balanced_nil
  | .sign hop h => by
    rw [List.flatMap_cons, (Lexeme.Kind.isOperator_of_sign? hop).parens]
    exact h.balanced
  | .parens hl hr h => by
    rw [List.flatMap_append, List.flatMap_cons, List.flatMap_singleton, hl, hr]
    exact h.balanced.enclose

theorem DerivesProduct.balanced {n : Nat} {xs : List Lexeme} {e : Expr} {loads : List Nat} :
    DerivesProduct n xs e loads → Text.Balanced (xs.flatMap fun x => x.kind.parens)
  | .factor h => h.balanced
  | .chain hop hl hr => by
    rw [List.flatMap_append, List.flatMap_cons, (Lexeme.Kind.isOperator_of_multiplicative? hop).parens]
    exact hl.balanced.append hr.balanced

theorem DerivesSum.balanced {n : Nat} {xs : List Lexeme} {e : Expr} {loads : List Nat} :
    DerivesSum n xs e loads → Text.Balanced (xs.flatMap fun x => x.kind.parens)
  | .product h => h.balanced
  | .chain hop hl hr => by
    rw [List.flatMap_append, List.flatMap_cons, (Lexeme.Kind.isOperator_of_additive? hop).parens]
    exact hl.balanced.append hr.balanced

end

end Balanced

theorem exists_of_parse_unclosed (h : parse s = .error (.malformed place (.unclosed openAt))) :
    ∃ ts, Token.scan 0 (body s.toList) = .ok ts ∧ place = stopOf ts + offset s ∧ EndsOpen openAt ts := by
  obtain ⟨e, he, hcause⟩ := exists_of_parse h
  obtain ⟨n, rfl, rfl⟩ := shift_eq_malformed he
  rcases hcause with hscan | ⟨ts, hscan, hts⟩
  · obtain ⟨k, fault, hk, hfault, -⟩ := Token.place_of_scan hscan
    cases hk
    have heq : openAt + 1 = openAt := SyntaxFault.unclosed.inj (hfault (· + 1))
    omega
  · obtain ⟨rfl, hopen⟩ := endsOpen_of_ofTokens hts
    exact ⟨ts, hscan, rfl, hopen⟩

/-- There is no parenthesis in front of the body of a formula. -/
theorem paren_not_mem_front {front : List Char} (hs : s.toList = front ++ body s.toList) :
    '(' ∉ front := by
  obtain ⟨blanks, hblanks, hblank⟩ := Text.exists_dropWhile Text.isBlank s.toList
  have hparen : '(' ∉ blanks := fun hmem => by
    have hc := hblank _ hmem
    revert hc
    decide
  by_cases hequals : (s.toList.dropWhile Text.isBlank).head? = some '='
  · obtain ⟨rest, hrest⟩ := List.head?_eq_some_iff.1 hequals
    have hfront : blanks ++ ['='] = front := by
      rw [hrest] at hblanks
      rw [body_of_equals hrest] at hs
      have happend : blanks ++ ['='] ++ rest = front ++ rest := by
        rw [← hs, hblanks, List.append_assoc, List.singleton_append]
      exact List.append_cancel_right happend
    rw [← hfront, List.mem_append, List.mem_singleton]
    rintro (hmem | hmem)
    · exact hparen hmem
    · cases hmem
  · rw [body_of_head_ne hequals] at hs
    rw [← List.append_cancel_right (hblanks.symm.trans hs)]
    exact hparen

/-- The parentheses of a formula that are never closed are those of its body, moved. -/
theorem neverClosed_iff_body (s : String) (n : Nat) : Text.NeverClosed s n ↔
    offset s ≤ n ∧ Text.NeverClosed (String.ofList (body s.toList)) (n - offset s) := by
  obtain ⟨front, hs, hfront⟩ := exists_front s
  constructor
  · rintro ⟨before, after, hs', rfl, hclosed⟩
    rcases List.append_eq_append_iff.1 (hs.symm.trans hs') with ⟨k, rfl, hk⟩ | ⟨k, rfl, hk⟩
    · rw [Text.width_append, hfront]
      refine ⟨Nat.le_add_right _ _, k, after, ?_, (Nat.add_sub_cancel_left _ _).symm, hclosed⟩
      rw [String.toList_ofList, hk]
    · cases k with
      | nil =>
        rw [List.append_nil] at hfront
        refine ⟨hfront.ge, [], after, ?_, (Nat.sub_eq_zero_of_le hfront.le).symm, hclosed⟩
        rw [String.toList_ofList]
        exact hk.symm
      | cons d k =>
        obtain ⟨rfl, -⟩ := List.cons.inj hk
        have hmem : '(' ∈ before ++ '(' :: k := List.mem_append_right _ List.mem_cons_self
        exact absurd hmem (paren_not_mem_front hs)
  · rintro ⟨hle, before, after, hbody, hwidth, hclosed⟩
    rw [String.toList_ofList] at hbody
    refine ⟨front ++ before, after, ?_, ?_, hclosed⟩
    · rw [hs, hbody, List.append_assoc]
    · rw [Text.width_append, hfront, hwidth]
      omega

/-- What ends inside a parenthesis is reported where its blanks at the end start, with the last
parenthesis that is never closed. The place of this one leaves out what stands before the body, so it
is right only if nothing does. It is the place of another parenthesis that is never closed if the body
has one as many bytes before the last. -/
theorem unclosed_of_parse (h : parse s = .error (.malformed place (.unclosed openAt))) :
    place = Text.width (Text.dropEndBlanks s.toList) ∧
      IsGreatest {n | Text.NeverClosed s n} (openAt + offset s) ∧
      (IsGreatest {n | Text.NeverClosed s n} openAt ↔ offset s = 0) ∧
      (Text.NeverClosed s openAt ↔ offset s ≤ openAt ∧
        Text.NeverClosed (String.ofList (body s.toList)) (openAt - offset s)) := by
  obtain ⟨ts, hscan, rfl, us, t, vs, n, e, loads, rfl, hkind, rfl, hderives⟩ := exists_of_parse_unclosed h
  obtain ⟨ps, hps⟩ := Token.exists_tiles_of_scan hscan
  have htokens := Except.ok.inj ((hps.scan_eq 0).symm.trans hscan)
  obtain ⟨before, after, qs, hbody, hposition, hx, hqs, hvs⟩ := hps.exists_of_tokens htokens
  obtain ⟨front, hs, hfront⟩ := exists_front s
  have hplace : stopOf (us ++ t :: vs) + offset s = Text.width (Text.dropEndBlanks s.toList) := by
    have hne : Piece.tokens 0 ps ≠ [] := by
      rw [htokens]
      exact List.append_ne_nil_of_right_ne_nil us (List.cons_ne_nil t vs)
    rw [← htokens, ← hfront, Nat.add_comm, hps.width_add_stopOf_tokens hne, ← hs]
  have hbalanced : Text.Balanced after := by
    apply Text.Balanced.of_parens
    rw [hqs.parens_eq, ← Piece.map_tokens t.stop qs, hvs]
    exact hderives.balanced
  have hs' : s.toList = (front ++ before) ++ '(' :: after := by
    rw [hs, hbody, hx.text_of_leftParen hkind]
    simp only [List.append_assoc, List.cons_append, List.nil_append]
  have hgreatest := Text.isGreatest_neverClosed hs' hbalanced
  rw [Text.width_append, hfront, Nat.add_comm, ← Nat.zero_add (Text.width before), ← hposition]
    at hgreatest
  refine ⟨hplace, hgreatest, ⟨fun h => ?_, fun h => ?_⟩, neverClosed_iff_body s t.position⟩
  · have heq := h.unique hgreatest
    omega
  · rwa [h, Nat.add_zero] at hgreatest

/-- A parenthesis in front of a sum. -/
theorem ofTokens_leftParen {t : Token} (ht : t.kind = .leftParen) {loads : List Nat}
    (h : DerivesSum n (us.map Token.toLexeme) e loads) (hle : greatest loads < maxNesting) :
    ofTokens (t :: us) = .error (.malformed (stopOf (t :: us)) (.unclosed t.position)) := by
  have hroom : greatest loads ≤ 255 := by
    unfold maxNesting at hle
    omega
  have hsum := (h.reads.whole rfl (stopOf (t :: us)) 255).1 hroom
  have hfactor := factor_leftParen_of_nil ht hsum
  unfold ofTokens
  rw [List.isEmpty_cons, sum, product]
  simp only [maxNesting, hfactor]
  rfl

theorem parse_equals_leftParen : parse "=(A1" = .error (.malformed 4 (.unclosed 0)) := by
  have hscan : Token.scan 0 (body "=(A1".toList) =
      .ok [⟨⟨.leftParen, "("⟩, 0⟩, ⟨⟨.reference, "A1"⟩, 1⟩] := by cbv
  have hread : ofTokens [⟨⟨.leftParen, "("⟩, 0⟩, ⟨⟨.reference, "A1"⟩, 1⟩] =
      .error (.malformed 3 (.unclosed 0)) :=
    ofTokens_leftParen rfl (.product (.factor derivesFactor_name)) (Nat.zero_lt_succ 255)
  rw [parse_eq_mapError, hscan]
  exact congrArg (Except.mapError (FormulaError.shift (offset "=(A1"))) hread

/-- The parenthesis is the second byte of the text and the first of its body. -/
theorem unclosed_of_parse_of_reference :
    parse "=(A1" = .error (.malformed 4 (.unclosed 0)) ∧
      4 = Text.width (Text.dropEndBlanks "=(A1".toList) ∧
      IsGreatest {n | Text.NeverClosed "=(A1" n} (0 + offset "=(A1") ∧
      (IsGreatest {n | Text.NeverClosed "=(A1" n} 0 ↔ offset "=(A1" = 0) ∧
      (Text.NeverClosed "=(A1" 0 ↔ offset "=(A1" ≤ 0 ∧
        Text.NeverClosed (String.ofList (body "=(A1".toList)) (0 - offset "=(A1")) :=
  ⟨parse_equals_leftParen, unclosed_of_parse parse_equals_leftParen⟩

theorem not_neverClosed_of_parse :
    parse "=(A1" = .error (.malformed 4 (.unclosed 0)) ∧ ¬ Text.NeverClosed "=(A1" 0 := by
  constructor
  · exact parse_equals_leftParen
  · rintro ⟨before, after, hs, hwidth, -⟩
    rw [Text.eq_nil_of_width_eq_zero hwidth] at hs
    have hhead : '=' = '(' := (List.cons.inj hs).1
    cases hhead

end Formula

end Spreadsheet
