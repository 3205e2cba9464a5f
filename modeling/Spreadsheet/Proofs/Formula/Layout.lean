import Spreadsheet.Proofs.Formula.RoundTrip
import Spreadsheet.Proofs.Formula.Spacing

/-!
The layout of a formula: blanks around its tokens and the case of its letters. A formula that is laid
out in another way reads as before.
-/
namespace Spreadsheet

variable {c d : Char} {w cs ds l m rest : List Char} {x y : Lexeme} {xs ys : List Lexeme}
  {ps : List Piece} {position : Nat} {s s' : String} {e : Expr}

namespace Text

section Case

theorem toUpper_eq_self (h : c.isAlpha = false) : c.toUpper = c := by
  apply Char.toUpper_eq_of_not_isLower
  intro hlower
  rw [Char.isAlpha, hlower, Bool.or_true] at h
  cases h

theorem isAlpha_eq_of_toUpper_eq (h : c.toUpper = d.toUpper) : c.isAlpha = d.isAlpha := by
  rw [← Char.isAlpha_toUpper_eq_isAlpha, h, Char.isAlpha_toUpper_eq_isAlpha]

/-- Nothing but a letter has a case. -/
theorem eq_of_toUpper_eq (h : c.toUpper = d.toUpper) (hd : d.isAlpha = false) : c = d := by
  have hc : c.isAlpha = false := by rw [isAlpha_eq_of_toUpper_eq h, hd]
  rwa [toUpper_eq_self hc, toUpper_eq_self hd] at h

/-- A class without letters does not tell cases apart. -/
theorem congr_of_toUpper_eq {p : Char → Bool} (hp : ∀ c, c.isAlpha = true → p c = false)
    (h : c.toUpper = d.toUpper) : p c = p d := by
  cases hd : d.isAlpha with
  | false => rw [eq_of_toUpper_eq h hd]
  | true =>
    have hc : c.isAlpha = true := by rw [isAlpha_eq_of_toUpper_eq h, hd]
    rw [hp c hc, hp d hd]

theorem isBlank_eq_of_toUpper_eq (h : c.toUpper = d.toUpper) : isBlank c = isBlank d :=
  congr_of_toUpper_eq (fun _ => isBlank_eq_false_of_isAlpha) h

theorem isDigit_eq_of_toUpper_eq (h : c.toUpper = d.toUpper) : c.isDigit = d.isDigit := by
  refine congr_of_toUpper_eq (fun c hc => Bool.eq_false_iff.2 fun hd => ?_) h
  rw [isAlpha_eq_false_of_isDigit hd] at hc
  cases hc

theorem eq_of_map_toUpper_eq (h : l.map Char.toUpper = m.map Char.toUpper)
    (hm : ∀ c ∈ m, c.isAlpha = false) : l = m := by
  induction m generalizing l with
  | nil => exact List.map_eq_nil_iff.1 h
  | cons d m ih =>
    obtain ⟨c, l, rfl, hc, hl⟩ := List.map_eq_cons_iff.1 h
    obtain ⟨hd, hm⟩ := List.forall_mem_cons.1 hm
    rw [eq_of_toUpper_eq hc hd, ih hl hm]

theorem forall_isAlpha_of_map_toUpper_eq (h : l.map Char.toUpper = m.map Char.toUpper)
    (hm : ∀ c ∈ m, c.isAlpha = true) : ∀ c ∈ l, c.isAlpha = true := by
  have hmap : ∀ c ∈ l.map Char.toUpper, c.isAlpha = true := by
    rw [h]
    simpa using hm
  simpa using hmap

theorem stops_of_map_toUpper_eq {p : Char → Bool}
    (hp : ∀ c d : Char, c.toUpper = d.toUpper → p c = p d)
    (h : l.map Char.toUpper = m.map Char.toUpper) (hm : Stops p m) : Stops p l := by
  intro c hc
  have hhead := congrArg List.head? h
  rw [List.head?_map, List.head?_map, hc] at hhead
  obtain ⟨d, hd, hcd⟩ := Option.map_eq_some_iff.1 hhead.symm
  rw [hp c d hcd.symm]
  exact hm d hd

end Case

end Text

theorem Column.number_eq_of_map_toUpper_eq (h : l.map Char.toUpper = m.map Char.toUpper) :
    number l = number m := by
  have hvalue : ∀ l : List Char, l.map letterValue =
      (l.map Char.toUpper).map fun c => c.toNat - 'A'.toNat + 1 := by
    intro l
    rw [List.map_map]
    rfl
  rw [number, number, List.map_reverse, List.map_reverse, hvalue, hvalue, h]

theorem Address.form_ofList {letters digits : List Char} (hln : letters ≠ []) (hdn : digits ≠ [])
    (hl : ∀ c ∈ letters, c.isAlpha = true) (hd : ∀ c ∈ digits, c.isDigit = true) :
    Form (Text.trim (String.ofList (letters ++ digits))) letters digits := by
  have htrim : Text.trim (String.ofList (letters ++ digits)) = String.ofList (letters ++ digits) := by
    apply Text.trim_eq_self
    intro c hc
    rw [String.toList_ofList] at hc
    rcases List.mem_append.1 hc with hc | hc
    · exact Text.isBlank_eq_false_of_isAlpha (hl c hc)
    · exact Text.isBlank_eq_false_of_isDigit (hd c hc)
  constructor
  · rw [htrim, String.toList_ofList]
  · exact hln
  · exact hdn
  · exact hl
  · exact hd

namespace Lexeme

theorem isAlpha_eq_false_of_ofSymbol? {kind : Kind} (h : Kind.ofSymbol? c = some kind) :
    c.isAlpha = false := by
  refine Bool.eq_false_iff.2 fun hc => ?_
  rw [ofSymbol?_eq_none (.inr hc)] at h
  cases h

theorem WellFormed.isAlpha_eq_false (hx : x.WellFormed) (hk : x.kind ≠ .reference) :
    ∀ c ∈ x.text.toList, c.isAlpha = false := by
  intro c hc
  cases hx with
  | symbol h =>
    rw [String.toList_ofList, List.mem_singleton] at hc
    rw [hc]
    exact isAlpha_eq_false_of_ofSymbol? h
  | number n =>
    rw [String.toList_ofList] at hc
    rcases n.isDigit_or_eq_point_of_mem hc with hc | rfl
    · exact Text.isAlpha_eq_false_of_isDigit hc
    · decide
  | reference => exact absurd rfl hk

/-- Whether one lexeme stands for all that another stands for. -/
structure Replaces (y x : Lexeme) : Prop where
  kind_eq : y.kind = x.kind
  read?_eq : x.kind = .number → Number.read? y.text = Number.read? x.text
  parse_eq : ∀ {a}, Address.parse x.text = .ok a → Address.parse y.text = .ok a

theorem Replaces.refl (x : Lexeme) : x.Replaces x := ⟨rfl, fun _ => rfl, id⟩

/-- A lexeme in other case is one of the same kind that stands for the same. -/
theorem WellFormed.recase (hx : x.WellFormed)
    (h : cs.map Char.toUpper = x.text.toList.map Char.toUpper) :
    WellFormed ⟨x.kind, String.ofList cs⟩ ∧ Replaces ⟨x.kind, String.ofList cs⟩ x := by
  by_cases hk : x.kind = .reference
  · cases hx with
    | symbol hsymbol => exact absurd hk (ofSymbol?_cases hsymbol).2.2.2.2
    | number n => cases hk
    | @reference letters digits hln hdn hl hd =>
      rw [String.toList_ofList, List.map_append] at h
      obtain ⟨letters', digits', rfl, hletters, hdigits⟩ := List.map_eq_append_iff.1 h
      obtain rfl := Text.eq_of_map_toUpper_eq hdigits fun c hc =>
        Text.isAlpha_eq_false_of_isDigit (hd c hc)
      have hln' : letters' ≠ [] := by
        rintro rfl
        exact hln (List.map_eq_nil_iff.1 hletters.symm)
      have hl' := Text.forall_isAlpha_of_map_toUpper_eq hletters hl
      refine ⟨.reference hln' hdn hl' hd, rfl, Lexeme.Kind.noConfusion, fun ha => ?_⟩
      rw [(Address.form_ofList hln hdn hl hd).parse_eq_ok_iff] at ha
      rw [(Address.form_ofList hln' hdn hl' hd).parse_eq_ok_iff,
        Column.number_eq_of_map_toUpper_eq hletters]
      exact ha
  · rw [Text.eq_of_map_toUpper_eq h (hx.isAlpha_eq_false hk), String.ofList_toList]
    exact ⟨hx, .refl x⟩

theorem Maximal.recase (hmax : x.Maximal rest) (hx : x.WellFormed)
    (h : cs.map Char.toUpper = x.text.toList.map Char.toUpper)
    (hm : m.map Char.toUpper = rest.map Char.toUpper) :
    Maximal ⟨x.kind, String.ofList cs⟩ m := by
  constructor
  · intro hk
    exact Text.stops_of_map_toUpper_eq (fun _ _ => Text.isDigit_eq_of_toUpper_eq) hm
      (hmax.stops_isDigit hk)
  · intro hk hpoint hhead
    rw [String.toList_ofList, Text.eq_of_map_toUpper_eq h
      (hx.isAlpha_eq_false fun hr => by rw [hk] at hr; cases hr)] at hpoint
    have hrest := congrArg List.head? hm
    rw [List.head?_map, List.head?_map, hhead] at hrest
    obtain ⟨d, hd, hcase⟩ := Option.map_eq_some_iff.1 hrest.symm
    rw [Text.eq_of_toUpper_eq hcase (by decide)] at hd
    exact hmax.head_ne_point hk hpoint hd

theorem Maximal.congr_head (hmax : x.Maximal rest) (h : m.head? = rest.head?) : x.Maximal m := by
  constructor
  · intro hk c hc
    rw [h] at hc
    exact hmax.stops_isDigit hk c hc
  · intro hk hpoint
    rw [h]
    exact hmax.head_ne_point hk hpoint

end Lexeme

namespace Tiles

/-- A text in other case is cut into lexemes that stand for the same. -/
theorem recase (h : Tiles ps cs) (hds : ds.map Char.toUpper = cs.map Char.toUpper) :
    ∃ qs, Tiles qs ds ∧ List.Forall₂ Lexeme.Replaces (Piece.lexemes qs) (Piece.lexemes ps) := by
  induction h generalizing ds with
  | nil =>
    rw [List.map_eq_nil_iff.1 hds]
    exact ⟨[], .nil, .nil⟩
  | blank hc _ ih =>
    obtain ⟨d, ds, rfl, hd, hds⟩ := List.map_eq_cons_iff.1 hds
    obtain ⟨qs, hqs, hlexemes⟩ := ih hds
    exact ⟨.blank d :: qs, .blank (by rw [Text.isBlank_eq_of_toUpper_eq hd, hc]) hqs, hlexemes⟩
  | @lexeme x ps cs hx hmax _ ih =>
    rw [List.map_append] at hds
    obtain ⟨l, m, rfl, hl, hm⟩ := List.map_eq_append_iff.1 hds
    obtain ⟨hy, hreplaces⟩ := hx.recase hl
    obtain ⟨qs, hqs, hlexemes⟩ := ih hm
    have htiles := Tiles.lexeme hy (hmax.recase hx hl hm) hqs
    rw [String.toList_ofList] at htiles
    exact ⟨_, htiles, .cons hreplaces hlexemes⟩

/-- Without its blanks a text is the texts of its lexemes. -/
theorem filter_eq_flatMap (h : Tiles ps cs) :
    (cs.filter fun c => !Text.isBlank c) = (Piece.lexemes ps).flatMap fun x => x.text.toList := by
  induction h with
  | nil => rfl
  | blank hc _ ih =>
    rw [List.filter_cons_of_neg (by simp [hc]), ih]
    rfl
  | @lexeme x ps cs hx _ _ ih =>
    have hself : x.text.toList.filter (fun c => !Text.isBlank c) = x.text.toList :=
      List.filter_eq_self.2 fun c hc => by rw [hx.isBlank_eq_false hc]; rfl
    rw [List.filter_append, hself, ih]
    rfl

/-- Blanks may be put wherever no lexeme is torn. -/
theorem insert (h : Tiles ps (l ++ m)) (hw : ∀ c ∈ w, Text.isBlank c = true)
    (hb : ∀ t ∈ Piece.tokens position ps,
      position + Text.width l ≤ t.position ∨ t.stop ≤ position + Text.width l) :
    ∃ qs, Tiles qs (l ++ (w ++ m)) ∧ Piece.lexemes qs = Piece.lexemes ps := by
  generalize hcs : l ++ m = cs at h
  induction h generalizing l position with
  | nil =>
    obtain ⟨rfl, rfl⟩ := List.append_eq_nil_iff.1 hcs
    exact Tiles.nil.blanks_append hw
  | @blank c ps cs hc h ih =>
    cases l with
    | nil =>
      rw [List.nil_append] at hcs ⊢
      rw [hcs]
      exact (Tiles.blank hc h).blanks_append hw
    | cons d l =>
      obtain ⟨rfl, hcs'⟩ := List.cons.inj hcs
      rw [Text.width_cons, ← Nat.add_assoc] at hb
      obtain ⟨qs, hqs, hlexemes⟩ := ih hb hcs'
      exact ⟨.blank d :: qs, .blank hc hqs, hlexemes⟩
  | @lexeme x ps cs hx hmax h ih =>
    cases l with
    | nil =>
      rw [List.nil_append] at hcs ⊢
      rw [hcs]
      exact (Tiles.lexeme hx hmax h).blanks_append hw
    | cons d l =>
      rw [Piece.tokens, List.forall_mem_cons] at hb
      obtain ⟨hfirst, hb⟩ := hb
      have hle : x.text.utf8ByteSize ≤ Text.width (d :: l) := by
        have hd := d.utf8Size_pos
        rw [Text.width_cons] at hfirst ⊢
        unfold Token.stop at hfirst
        dsimp only at hfirst
        omega
      -- The place is behind the first lexeme, not inside it.
      rw [← Text.width_toList] at hle
      obtain ⟨l', hl, hcs'⟩ := Text.exists_append_of_width_le hcs.symm hle
      rw [hl, Text.width_append, Text.width_toList, ← Nat.add_assoc] at hb
      obtain ⟨qs, hqs, hlexemes⟩ := ih hb hcs'.symm
      have hmax' : x.Maximal (l' ++ (w ++ m)) := by
        rw [hcs'] at hmax
        cases l' with
        | nil => exact hmax.blanks_append hw
        | cons d l' => exact hmax.congr_head rfl
      refine ⟨.lexeme x :: qs, ?_, congrArg (x :: ·) hlexemes⟩
      rw [hl, List.append_assoc]
      exact .lexeme hx hmax' hqs

end Tiles

namespace Formula

/-- Whether lexemes are a formula that does not nest too deep. -/
def Denotes (xs : List Lexeme) (e : Expr) : Prop :=
  ∃ n loads, DerivesSum n xs e loads ∧ ∀ k ∈ loads, k ≤ maxNesting

theorem parse_eq_ok_iff :
    parse s = .ok e ↔ ∃ ps, Tiles ps (body s.toList) ∧ Denotes (Piece.lexemes ps) e := by
  constructor
  · intro h
    obtain ⟨ts, hts, he⟩ := exists_ofTokens_of_parse h
    obtain ⟨ps, hps, hlexemes⟩ := Token.exists_scan_iff.1 ⟨ts, hts, rfl⟩
    rw [ofTokens_eq_ok_iff, ← hlexemes] at he
    exact ⟨ps, hps, he⟩
  · rintro ⟨ps, hps, he⟩
    have hts := hps.scan_eq 0
    rw [← Piece.map_tokens 0 ps] at he
    have hok := ofTokens_eq_ok_iff.2 he
    rw [parse_eq_mapError, hts]
    show (ofTokens _).mapError _ = _
    rw [hok]
    rfl

section Congr

theorem exists_append_of_forall₂ {α β : Type} {R : α → β → Prop} {l : List α} {l₁ l₂ : List β}
    (h : List.Forall₂ R l (l₁ ++ l₂)) :
    ∃ m₁ m₂, l = m₁ ++ m₂ ∧ List.Forall₂ R m₁ l₁ ∧ List.Forall₂ R m₂ l₂ :=
  ⟨_, _, (List.take_append_drop l₁.length l).symm, List.forall₂_take_append l l₁ l₂ h,
    List.forall₂_drop_append l l₁ l₂ h⟩

mutual

/-- The grammar sees of a lexeme no more than what it stands for. -/
theorem DerivesFactor.congr {xs ys : List Lexeme} {e : Expr} {loads : List Nat} :
    DerivesFactor xs e loads → List.Forall₂ Lexeme.Replaces ys xs → DerivesFactor ys e loads
  | .number hk hvalue, h => by
    obtain ⟨y, us, hy, hnil, rfl⟩ := List.forall₂_cons_right_iff.1 h
    rw [List.forall₂_nil_right_iff.1 hnil]
    exact .number (by rw [hy.kind_eq, hk]) (by rw [hy.read?_eq hk, hvalue])
  | .reference hk hcell, h => by
    obtain ⟨y, us, hy, hnil, rfl⟩ := List.forall₂_cons_right_iff.1 h
    rw [List.forall₂_nil_right_iff.1 hnil]
    exact .reference (by rw [hy.kind_eq, hk]) (hy.parse_eq hcell)
  | .sign hop hd, h => by
    obtain ⟨y, ys, hy, hys, rfl⟩ := List.forall₂_cons_right_iff.1 h
    exact .sign (by rw [hy.kind_eq, hop]) (hd.congr hys)
  | .parens hl hr hd, h => by
    obtain ⟨l, zs, hl', hzs, rfl⟩ := List.forall₂_cons_right_iff.1 h
    obtain ⟨ys, rs, rfl, hys, hrs⟩ := exists_append_of_forall₂ hzs
    obtain ⟨r, us, hr', hnil, rfl⟩ := List.forall₂_cons_right_iff.1 hrs
    rw [List.forall₂_nil_right_iff.1 hnil]
    exact .parens (by rw [hl'.kind_eq, hl]) (by rw [hr'.kind_eq, hr]) (hd.congr hys)

theorem DerivesProduct.congr {n : Nat} {xs ys : List Lexeme} {e : Expr} {loads : List Nat} :
    DerivesProduct n xs e loads → List.Forall₂ Lexeme.Replaces ys xs → DerivesProduct n ys e loads
  | .factor hd, h => .factor (hd.congr h)
  | .chain hop hl hr, h => by
    obtain ⟨ys, zs, rfl, hys, hzs⟩ := exists_append_of_forall₂ h
    obtain ⟨z, us, hz, hus, rfl⟩ := List.forall₂_cons_right_iff.1 hzs
    exact .chain (by rw [hz.kind_eq, hop]) (hl.congr hys) (hr.congr hus)

theorem DerivesSum.congr {n : Nat} {xs ys : List Lexeme} {e : Expr} {loads : List Nat} :
    DerivesSum n xs e loads → List.Forall₂ Lexeme.Replaces ys xs → DerivesSum n ys e loads
  | .product hd, h => .product (hd.congr h)
  | .chain hop hl hr, h => by
    obtain ⟨ys, zs, rfl, hys, hzs⟩ := exists_append_of_forall₂ h
    obtain ⟨z, us, hz, hus, rfl⟩ := List.forall₂_cons_right_iff.1 hzs
    exact .chain (by rw [hz.kind_eq, hop]) (hl.congr hys) (hr.congr hus)

end

theorem Denotes.congr (h : Denotes xs e) (hys : List.Forall₂ Lexeme.Replaces ys xs) :
    Denotes ys e := by
  obtain ⟨n, loads, h, hle⟩ := h
  exact ⟨n, loads, h.congr hys, hle⟩

end Congr

section Apart

mutual

/-- No formula has an operand right after another one. -/
theorem DerivesFactor.isChain {xs : List Lexeme} {e : Expr} {loads : List Nat} :
    DerivesFactor xs e loads → xs.IsChain Lexeme.Apart
  | .number _ _ => .singleton _
  | .reference _ _ => .singleton _
  | .sign hop h =>
    Expr.isChain_append_cons (Lexeme.Kind.isOperator_of_sign? hop).ne .nil h.isChain
  | @DerivesFactor.parens l r n xs e loads hl hr h => by
    have hopen : l.kind ≠ .number ∧ l.kind ≠ .reference := by
      rw [hl]
      exact ⟨by decide, by decide⟩
    have hclose : r.kind ≠ .number ∧ r.kind ≠ .reference := by
      rw [hr]
      exact ⟨by decide, by decide⟩
    have hchain := Expr.isChain_append_cons hclose h.isChain .nil
    exact (Expr.isChain_append_cons hopen .nil hchain :)

theorem DerivesProduct.isChain {n : Nat} {xs : List Lexeme} {e : Expr} {loads : List Nat} :
    DerivesProduct n xs e loads → xs.IsChain Lexeme.Apart
  | .factor h => h.isChain
  | .chain hop hl hr =>
    Expr.isChain_append_cons (Lexeme.Kind.isOperator_of_multiplicative? hop).ne hl.isChain hr.isChain

theorem DerivesSum.isChain {n : Nat} {xs : List Lexeme} {e : Expr} {loads : List Nat} :
    DerivesSum n xs e loads → xs.IsChain Lexeme.Apart
  | .product h => h.isChain
  | .chain hop hl hr =>
    Expr.isChain_append_cons (Lexeme.Kind.isOperator_of_additive? hop).ne hl.isChain hr.isChain

end

end Apart

section Body

theorem offset_add_width (s : String) : offset s + Text.width (body s.toList) = s.utf8ByteSize :=
  Nat.sub_add_cancel (utf8ByteSize_body_le s)

theorem body_filter (cs : List Char) :
    body (cs.filter fun c => !Text.isBlank c) = (body cs).filter fun c => !Text.isBlank c := by
  have hdrop : (cs.filter fun c => !Text.isBlank c).dropWhile Text.isBlank =
      (cs.dropWhile Text.isBlank).filter fun c => !Text.isBlank c := by
    rw [List.dropWhile_filter]
    simp only [Bool.not_not, Bool.or_self]
  cases hrest : cs.dropWhile Text.isBlank with
  | nil =>
    rw [hrest] at hdrop
    rw [body_of_head_ne (by simp [hdrop]), body_of_head_ne (by simp [hrest]), hdrop, hrest]
  | cons c rest =>
    have hc : Text.isBlank c = false := Text.stops_dropWhile Text.isBlank cs c (by rw [hrest]; rfl)
    rw [hrest, List.filter_cons_of_pos (by simp [hc])] at hdrop
    by_cases heq : c = '='
    · subst heq
      rw [body_of_equals hdrop, body_of_equals hrest]
    · rw [body_of_head_ne (by simp [hdrop, heq]), body_of_head_ne (by simp [hrest, heq]), hdrop,
        hrest, List.filter_cons_of_pos (by simp [hc])]

theorem map_toUpper_dropWhile (h : ds.map Char.toUpper = cs.map Char.toUpper) :
    (ds.dropWhile Text.isBlank).map Char.toUpper = (cs.dropWhile Text.isBlank).map Char.toUpper := by
  have hblank : Text.isBlank ∘ Char.toUpper = Text.isBlank := by
    funext c
    exact Text.isBlank_eq_of_toUpper_eq c.toUpper_toUpper_eq_toUpper
  have hdrop := congrArg (List.dropWhile Text.isBlank) h
  rwa [List.dropWhile_map, List.dropWhile_map, hblank] at hdrop

theorem map_toUpper_body (h : ds.map Char.toUpper = cs.map Char.toUpper) :
    (body ds).map Char.toUpper = (body cs).map Char.toUpper := by
  have hdrop := map_toUpper_dropWhile h
  cases hrest : cs.dropWhile Text.isBlank with
  | nil =>
    rw [hrest, List.map_nil, List.map_eq_nil_iff] at hdrop
    rw [body_of_head_ne (by simp [hdrop]), body_of_head_ne (by simp [hrest]), hdrop, hrest]
  | cons c rest =>
    rw [hrest] at hdrop
    obtain ⟨d, rest', hrest', hd, htail⟩ := List.map_eq_cons_iff.1 hdrop
    by_cases heq : c = '='
    · subst heq
      rw [Text.eq_of_toUpper_eq hd (by decide)] at hrest'
      rw [body_of_equals hrest', body_of_equals hrest, htail]
    · have hne : d ≠ '=' := by
        rintro rfl
        exact heq (Text.eq_of_toUpper_eq hd.symm (by decide))
      rw [body_of_head_ne (by simp [hrest', hne]), body_of_head_ne (by simp [hrest, heq]), hrest',
        hrest, List.map_cons, List.map_cons, hd, htail]

end Body

/-- Whether no token of a formula is torn at a place, which is a byte offset. -/
def Boundary (s : String) (place : Nat) : Prop :=
  ∀ ts, Token.scan (offset s) (body s.toList) = .ok ts → ∀ t ∈ ts, place ≤ t.position ∨ t.stop ≤ place

/-- The ways to lay out a formula anew: to take away all blanks, to put blanks where no token is torn,
and to change the case of letters. -/
inductive Relaid : String → String → Prop where
  | unspaced (s : String) : Relaid s (String.ofList (s.toList.filter fun c => !Text.isBlank c))
  | spaced {before blanks after : String} (hblanks : Text.allBlank blanks = true)
      (hplace : Boundary (before ++ after) before.utf8ByteSize) :
      Relaid (before ++ after) (before ++ blanks ++ after)
  | recased {s s' : String} (h : s'.toList.map Char.toUpper = s.toList.map Char.toUpper) :
      Relaid s s'

theorem parse_unspaced (h : parse s = .ok e) :
    parse (String.ofList (s.toList.filter fun c => !Text.isBlank c)) = .ok e := by
  obtain ⟨ps, hps, he⟩ := parse_eq_ok_iff.1 h
  obtain ⟨n, loads, hderives, -⟩ := id he
  have hscan := Token.scan_flatMap 0 hps.wellFormed hderives.isChain
  rw [← hps.filter_eq_flatMap, ← body_filter] at hscan
  obtain ⟨qs, hqs, hlexemes⟩ := Token.exists_scan_iff.1 ⟨_, hscan, Token.map_place 0 _⟩
  rw [← hlexemes] at he
  apply parse_eq_ok_iff.2
  rw [String.toList_ofList]
  exact ⟨qs, hqs, he⟩

theorem parse_spaced {before blanks after : String} (hblanks : Text.allBlank blanks = true)
    (hplace : Boundary (before ++ after) before.utf8ByteSize)
    (h : parse (before ++ after) = .ok e) : parse (before ++ blanks ++ after) = .ok e := by
  obtain ⟨ps, hps, he⟩ := parse_eq_ok_iff.1 h
  have hw := List.all_eq_true.1 hblanks
  rw [String.toList_append] at hps
  rw [parse_eq_ok_iff, String.toList_append, String.toList_append, List.append_assoc]
  cases hbefore : Text.allBlank before with
  | true =>
    have hb := List.all_eq_true.1 hbefore
    rw [body_blanks_append hb] at hps
    rw [body_blanks_append hb, body_blanks_append hw]
    exact ⟨ps, hps, he⟩
  | false =>
    -- The blanks come after the first character of the body, or after the equals sign.
    have hsize := offset_add_width (before ++ after)
    unfold Boundary at hplace
    rw [String.toList_append, body_append hbefore] at hplace hsize
    rw [body_append hbefore] at hps ⊢
    rw [Text.width_append, Text.width_toList, String.utf8ByteSize_append] at hsize
    have hplace' : before.utf8ByteSize = offset (before ++ after) + Text.width (body before.toList) := by
      omega
    rw [hplace'] at hplace
    obtain ⟨qs, hqs, hlexemes⟩ := hps.insert hw (hplace _ (hps.scan_eq _))
    rw [← hlexemes] at he
    exact ⟨qs, hqs, he⟩

theorem parse_recased (hs : s'.toList.map Char.toUpper = s.toList.map Char.toUpper)
    (h : parse s = .ok e) : parse s' = .ok e := by
  obtain ⟨ps, hps, he⟩ := parse_eq_ok_iff.1 h
  obtain ⟨qs, hqs, hlexemes⟩ := hps.recase (map_toUpper_body hs)
  exact parse_eq_ok_iff.2 ⟨qs, hqs, he.congr hlexemes⟩

/-- However often a formula is laid out anew, it reads as the same tree. -/
theorem parse_relaid (h : parse s = .ok e) (hs : Relation.ReflTransGen Relaid s s') :
    parse s' = .ok e := by
  induction hs with
  | refl => exact h
  | tail _ hstep ih =>
    cases hstep with
    | unspaced => exact parse_unspaced ih
    | spaced hblanks hplace => exact parse_spaced hblanks hplace ih
    | recased hcase => exact parse_recased hcase ih

/-- A product gets a tab before its last operand, has its letters changed and loses the tab. -/
theorem parse_relaid_of_product :
    let e : Expr := .binary .multiply (.reference ⟨0, 1⟩) (.reference ⟨0, 0⟩)
    parse "B1*A1" = .ok e ∧ Relation.ReflTransGen Relaid "B1*A1" "b1*a1" ∧
      parse "b1*a1" = .ok e := by
  intro e
  have htext : e.text = "B1*A1" := by
    unfold e
    cbv
  have hwritable : e.Writable := ⟨⟨by decide, by decide⟩, by decide, by decide⟩
  have hparse : parse "B1*A1" = .ok e := by
    rw [← htext]
    exact (parse_text hwritable).1 (by decide)
  have hscan : Token.scan (offset "B1*A1") (body "B1*A1".toList) =
      .ok [⟨⟨.reference, "B1"⟩, 0⟩, ⟨⟨.star, "*"⟩, 2⟩, ⟨⟨.reference, "A1"⟩, 3⟩] := by cbv
  have hplace : Boundary "B1*A1" 3 := by
    intro ts hts
    rw [hscan] at hts
    rw [← Except.ok.inj hts]
    decide
  have hspaced : Relaid "B1*A1" "B1*\tA1" :=
    @Relaid.spaced "B1*" "\t" "A1" (by decide) hplace
  have hrecased : Relaid "B1*\tA1" "b1*\ta1" := .recased (by decide)
  have hunspaced : Relaid "b1*\ta1" "b1*a1" := .unspaced "b1*\ta1"
  have hrelaid := ((Relation.ReflTransGen.single hspaced).tail hrecased).tail hunspaced
  exact ⟨hparse, hrelaid, parse_relaid hparse hrelaid⟩

end Formula

end Spreadsheet
