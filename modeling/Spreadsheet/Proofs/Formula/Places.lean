import Spreadsheet.Proofs.Formula.Blanks
import Spreadsheet.Proofs.Formula.Faults
import Spreadsheet.Proofs.Formula.Tiling

/-!
The places that errors of formulas tell of. The parser knows of no place but those of its tokens and
the end, and passes them on as they are: where the tokens are moved, so is the error.
-/
namespace Spreadsheet

variable {c : Char} {w cs rest : List Char} {s t : String} {ts : List Token}
  {g : Nat → Nat} {position place n k : Nat} {fault : SyntaxFault}

/-- A fault tells of no place but that of an opening parenthesis. -/
def SyntaxFault.relocate (g : Nat → Nat) : SyntaxFault → SyntaxFault
  | unclosed openAt => unclosed (g openAt)
  | fault => fault

namespace FormulaError

/-- Moves each place that a malformed formula is reported with. -/
def relocate (g : Nat → Nat) : FormulaError → FormulaError
  | malformed position fault => malformed (g position) (fault.relocate g)
  | e => e

/-- Moves the place of the opening parenthesis, but not the place of the fault. -/
def reopen (offset : Nat) : FormulaError → FormulaError
  | malformed position fault => malformed position (fault.relocate (· + offset))
  | e => e

theorem reopen_shift (offset : Nat) (e : FormulaError) :
    (e.shift offset).reopen offset = e.relocate (· + offset) := by
  cases e <;> rfl

end FormulaError

def Token.relocate (g : Nat → Nat) (t : Token) : Token := { t with position := g t.position }

namespace Formula

def relocate (g : Nat → Nat) : Parsed → Parsed
  | .error e => .error (e.relocate g)
  | .ok (e, rest) => .ok (e, rest.map (.relocate g))

theorem tooDeep_relocate (g : Nat → Nat) (stop : Nat) (ts : List Token) :
    tooDeep (g stop) (ts.map (.relocate g)) = (tooDeep stop ts).relocate g := by
  cases ts <;> rfl

theorem addressOf_relocate (g : Nat → Nat) (t : Token) :
    addressOf (t.relocate g) = (addressOf t).mapError (.relocate g) := by
  have htext : (t.relocate g).text = t.text := rfl
  unfold addressOf
  rw [htext]
  cases Address.parse t.text <;> rfl

mutual

/-- Sums are read alike wherever their tokens are. -/
theorem sum_relocate (g : Nat → Nat) (stop room : Nat) (ts : List Token) :
    sum (g stop) room (ts.map (.relocate g)) = relocate g (sum stop room ts) := by
  rw [sum, sum, product_relocate]
  rcases product stop room ts with e | ⟨left, rest⟩
  · rfl
  · exact sumChain_relocate g stop room left rest
termination_by (room, 4)

theorem sumChain_relocate (g : Nat → Nat) (stop room : Nat) (left : Expr) (ts : List Token) :
    sumChain (g stop) room left (ts.map (.relocate g)) = relocate g (sumChain stop room left ts) := by
  rw [sumChain.eq_def, sumChain.eq_def stop]
  cases ts with
  | nil => rfl
  | cons t rest =>
    rw [List.map_cons]
    dsimp only [Token.relocate]
    cases t.kind.additive? with
    | none => rfl
    | some op =>
      cases room with
      | zero => exact congrArg Except.error (tooDeep_relocate g stop rest)
      | succ room =>
        dsimp only
        rw [product_relocate]
        rcases product stop room rest with e | ⟨right, rest⟩
        · rfl
        · exact sumChain_relocate g stop room (.binary op left right) rest
termination_by (room, 0)

theorem product_relocate (g : Nat → Nat) (stop room : Nat) (ts : List Token) :
    product (g stop) room (ts.map (.relocate g)) = relocate g (product stop room ts) := by
  rw [product, product, factor_relocate]
  rcases factor stop room ts with e | ⟨left, rest⟩
  · rfl
  · exact productChain_relocate g stop room left rest
termination_by (room, 3)

theorem productChain_relocate (g : Nat → Nat) (stop room : Nat) (left : Expr) (ts : List Token) :
    productChain (g stop) room left (ts.map (.relocate g)) =
      relocate g (productChain stop room left ts) := by
  rw [productChain.eq_def, productChain.eq_def stop]
  cases ts with
  | nil => rfl
  | cons t rest =>
    rw [List.map_cons]
    dsimp only [Token.relocate]
    cases t.kind.multiplicative? with
    | none => rfl
    | some op =>
      cases room with
      | zero => exact congrArg Except.error (tooDeep_relocate g stop rest)
      | succ room =>
        dsimp only
        rw [factor_relocate]
        rcases factor stop room rest with e | ⟨right, rest⟩
        · rfl
        · exact productChain_relocate g stop room (.binary op left right) rest
termination_by (room, 0)

theorem factor_relocate (g : Nat → Nat) (stop room : Nat) (ts : List Token) :
    factor (g stop) room (ts.map (.relocate g)) = relocate g (factor stop room ts) := by
  rw [factor.eq_def, factor.eq_def stop]
  cases ts with
  | nil => rfl
  | cons t rest =>
    rw [List.map_cons]
    have hkind : (t.relocate g).kind = t.kind := rfl
    dsimp only
    rw [hkind]
    cases t.kind.sign? with
    | none => exact operand_relocate g stop room t rest
    | some op =>
      cases room with
      | zero => exact congrArg Except.error (tooDeep_relocate g stop rest)
      | succ room =>
        dsimp only
        rw [factor_relocate]
        rcases factor stop room rest with e | ⟨e, rest⟩ <;> rfl
termination_by (room, 2)

theorem operand_relocate (g : Nat → Nat) (stop room : Nat) (t : Token) (rest : List Token) :
    operand (g stop) room (t.relocate g) (rest.map (.relocate g)) =
      relocate g (operand stop room t rest) := by
  have hkind : (t.relocate g).kind = t.kind := rfl
  have htext : (t.relocate g).text = t.text := rfl
  rw [operand.eq_def, operand.eq_def stop, hkind, htext]
  cases t.kind with
  | number =>
    dsimp only
    cases Number.read? t.text <;> rfl
  | reference =>
    dsimp only
    rw [addressOf_relocate]
    cases addressOf t <;> rfl
  | leftParen =>
    cases room with
    | zero => exact congrArg Except.error (tooDeep_relocate g stop rest)
    | succ room =>
      dsimp only
      rw [sum_relocate]
      rcases sum stop room rest with e | ⟨e, _ | ⟨u, rest⟩⟩
      · rfl
      · rfl
      · show (if u.kind = .rightParen then _ else _) = relocate g (if u.kind = .rightParen then _ else _)
        split <;> rfl
  | _ => rfl
termination_by (room, 1)

end

theorem stopOf_relocate (hts : ts ≠ []) (offset : Nat) :
    stopOf (ts.map (.relocate (· + offset))) = stopOf ts + offset := by
  have hlast := List.getLast?_eq_getLast_of_ne_nil hts
  rw [stopOf, stopOf, List.getLast?_map, hlast]
  exact Nat.add_right_comm _ _ _

/-- Where the tokens are moved with their end, the error is moved with them. -/
theorem ofTokens_relocate (hts : ts ≠ []) (hstop : stopOf (ts.map (.relocate g)) = g (stopOf ts)) :
    ofTokens (ts.map (.relocate g)) = (ofTokens ts).mapError (.relocate g) := by
  have hempty : ts.isEmpty = false := List.isEmpty_eq_false_iff.2 hts
  unfold ofTokens
  rw [List.isEmpty_map, hempty, hstop, sum_relocate]
  rcases sum (stopOf ts) maxNesting ts with e | ⟨e, _ | ⟨t, rest⟩⟩ <;> rfl

end Formula

/-- Whether a text can be cut at a byte offset. -/
def Text.Splits (cs : List Char) (n : Nat) : Prop := ∃ l m, cs = l ++ m ∧ Text.width l = n

namespace Text

theorem splits_zero (cs : List Char) : Splits cs 0 := ⟨[], cs, rfl, rfl⟩

theorem Splits.append_left (h : Splits cs n) (l : List Char) : Splits (l ++ cs) (width l + n) := by
  obtain ⟨before, after, rfl, rfl⟩ := h
  exact ⟨l ++ before, after, (List.append_assoc ..).symm, width_append l before⟩

/-- Where a text can be cut, there is a character or its end. -/
theorem Splits.isValid (h : Splits s.toList n) :
    n ≤ s.utf8ByteSize ∧ String.Pos.Raw.IsValid s ⟨n⟩ := by
  obtain ⟨l, m, hs, rfl⟩ := h
  have happend : s = String.ofList l ++ String.ofList m := by
    rw [← String.ofList_append, ← hs, String.ofList_toList]
  constructor
  · rw [← width_toList, hs, width_append]
    exact Nat.le_add_right _ _
  · exact String.Pos.Raw.isValid_iff_exists_append.2 ⟨_, _, happend, rfl⟩

theorem width_eq_length (h : ∀ c ∈ cs, c.isDigit = true ∨ c.isAlpha = true) :
    width cs = cs.length := by
  induction cs with
  | nil => rfl
  | cons c cs ih =>
    obtain ⟨hc, hcs⟩ := List.forall_mem_cons.1 h
    have hsize : c.utf8Size = 1 := by
      rw [Char.utf8Size_eq_one_iff, UInt32.le_iff_toNat_le]
      rw [isDigit_iff, isAlpha_iff] at hc
      show c.toNat ≤ 127
      omega
    rw [width_cons, hsize, ih hcs, List.length_cons, Nat.add_comm]

end Text

section Read

/-- A front of digits and letters is as many bytes as it is long. -/
theorem splits_takeWhile {p : Char → Bool} (hc : c.isDigit = true ∨ c.isAlpha = true)
    (hp : ∀ d, p d = true → d.isDigit = true ∨ d.isAlpha = true) (cs : List Char) :
    Text.Splits (c :: cs) (c :: cs.takeWhile p).length := by
  refine ⟨c :: cs.takeWhile p, cs.dropWhile p, ?_, Text.width_eq_length ?_⟩
  · rw [List.cons_append, List.takeWhile_append_dropWhile]
  · refine List.forall_mem_cons.2 ⟨hc, fun d hd => hp d ?_⟩
    exact List.all_eq_true.1 List.all_takeWhile d hd

/-- No fault of a lexeme is about a parenthesis, and each is at a character or at the end. -/
theorem Lexeme.place_of_read (h : Lexeme.read c cs = .error (n, fault)) :
    (∀ g, fault.relocate g = fault) ∧ Text.Splits (c :: cs) n := by
  unfold Lexeme.read at h
  split at h
  · cases h
  · split at h
    · rename_i hc
      unfold readNumber at h
      dsimp only at h
      split at h
      · split at h
        · cases h
          exact ⟨fun _ => rfl, splits_takeWhile (.inl hc) (fun _ => .inl) cs⟩
        · cases h
      · cases h
    · split at h
      · cases h
        exact ⟨fun _ => rfl, Text.splits_zero _⟩
      · split at h
        · rename_i hc
          unfold readReference at h
          dsimp only at h
          split at h
          · cases h
            exact ⟨fun _ => rfl, splits_takeWhile (.inr hc) (fun _ => .inr) cs⟩
          · cases h
        · cases h
          exact ⟨fun _ => rfl, Text.splits_zero _⟩

end Read

namespace Token

/-- A text that is not cut into tokens is malformed at one of its characters or at its end. -/
theorem place_of_scan {e : FormulaError} (h : scan position cs = .error e) :
    ∃ n fault, e = .malformed (position + n) fault ∧ (∀ g, fault.relocate g = fault) ∧
      Text.Splits cs n := by
  induction position, cs using scan.induct with
  | case1 position =>
    rw [scan] at h
    cases h
  | case2 position c cs hc ih =>
    rw [scan, if_pos hc] at h
    obtain ⟨n, fault, rfl, hfault, hn⟩ := ih h
    have hsplits := hn.append_left [c]
    rw [show Text.width [c] = c.utf8Size by rw [Text.width_cons, Text.width_nil]; omega] at hsplits
    exact ⟨_, fault, by rw [Nat.add_assoc], hfault, hsplits⟩
  | case3 position c cs hc distance fault hr =>
    rw [scan_of_error hc hr] at h
    cases h
    obtain ⟨hfault, hsplits⟩ := Lexeme.place_of_read hr
    exact ⟨distance, fault, rfl, hfault, hsplits⟩
  | case4 position c cs hc x rest hr hlen e' hs ih =>
    rw [scan_of_ok hc hr, hs] at h
    cases h
    obtain ⟨n, fault, rfl, hfault, hn⟩ := ih hs
    have hsplits := hn.append_left x.text.toList
    rw [Lexeme.append_of_read hr, Text.width_toList] at hsplits
    exact ⟨_, fault, by rw [Nat.add_assoc], hfault, hsplits⟩
  | case5 position c cs hc x rest hr hlen tokens hs ih =>
    rw [scan_of_ok hc hr, hs] at h
    cases h

/-- A text that is moved has its tokens or its fault moved. -/
theorem scan_relocate (position offset : Nat) (cs : List Char) :
    scan (position + offset) cs =
      ((scan position cs).map (List.map (.relocate (· + offset)))).mapError
        (.relocate (· + offset)) := by
  induction position, cs using scan.induct with
  | case1 position => rw [scan, scan]; rfl
  | case2 position c cs hc ih =>
    rw [scan, if_pos hc, scan, if_pos hc, Nat.add_right_comm]
    exact ih
  | case3 position c cs hc distance fault hr =>
    rw [scan_of_error hc hr, scan_of_error hc hr, Nat.add_right_comm]
    show _ = Except.error (FormulaError.malformed _ (fault.relocate _))
    rw [(Lexeme.place_of_read hr).1]
  | case4 position c cs hc x rest hr hlen e hs ih =>
    rw [scan_of_ok hc hr, scan_of_ok hc hr, Nat.add_right_comm, ih, hs]
    rfl
  | case5 position c cs hc x rest hr hlen tokens hs ih =>
    rw [scan_of_ok hc hr, scan_of_ok hc hr, Nat.add_right_comm, ih, hs]
    rfl

theorem ne_nil_of_scan (hc : Text.isBlank c = false) (h : scan position (c :: cs) = .ok ts) :
    ts ≠ [] := by
  rintro rfl
  obtain ⟨ps, hps⟩ := exists_tiles_of_scan h
  have hscan := hps.scan_eq position
  rw [h] at hscan
  rcases hps.cons_cases with ⟨hc', -⟩ | ⟨-, x, rest, qs, -, rfl, -⟩
  · rw [hc] at hc'
    cases hc'
  · cases hscan

/-- Tokens start and end where the text can be cut. -/
theorem splits_of_scan (h : scan 0 cs = .ok ts) {t : Token} (ht : t ∈ ts) :
    Text.Splits cs t.position ∧ Text.Splits cs t.stop := by
  obtain ⟨ps, hps⟩ := exists_tiles_of_scan h
  have hscan := hps.scan_eq 0
  have hlie := hps.lieIn 0
  rw [h] at hscan
  rw [← Except.ok.inj hscan] at hlie
  obtain ⟨-, before, after, hcs, hposition⟩ := hlie.slice t ht
  rw [Nat.zero_add] at hposition
  constructor
  · refine ⟨before, t.text.toList ++ after, ?_, hposition.symm⟩
    rw [hcs, List.append_assoc]
  · refine ⟨before ++ t.text.toList, after, hcs, ?_⟩
    rw [Text.width_append, Text.width_toList, ← hposition]
    rfl

end Token

namespace Formula

theorem splits_of_ofTokens (hts : Token.scan 0 cs = .ok ts)
    (h : ofTokens ts = .error (.malformed place fault)) : Text.Splits cs place := by
  by_cases hne : ts = []
  · subst hne
    cases h
    exact Text.splits_zero cs
  · rcases place_of_ofTokens hne h with rfl | ⟨t, ht, rfl⟩
    · have hlast := List.getLast?_eq_getLast_of_ne_nil hne
      rw [stopOf, hlast]
      exact (Token.splits_of_scan hts (List.getLast_mem hne)).2
    · exact (Token.splits_of_scan hts ht).1

/-- What stands before the body of a formula takes up its offset. -/
theorem exists_front (s : String) :
    ∃ front, s.toList = front ++ body s.toList ∧ Text.width front = offset s := by
  obtain ⟨front, h⟩ := body_suffix s.toList
  have hsize := congrArg Text.width h
  rw [Text.width_append, Text.width_toList] at hsize
  refine ⟨front, h.symm, ?_⟩
  show _ = s.utf8ByteSize - Text.width (body s.toList)
  omega

/-- What cannot be read is not cut into tokens, or its tokens are no formula. -/
theorem exists_of_parse {e : FormulaError} (h : parse s = .error e) :
    ∃ e', e = e'.shift (offset s) ∧ (Token.scan 0 (body s.toList) = .error e' ∨
      ∃ ts, Token.scan 0 (body s.toList) = .ok ts ∧ ofTokens ts = .error e') := by
  rw [parse_eq_mapError] at h
  cases hscan : Token.scan 0 (body s.toList) with
  | error e' =>
    rw [hscan] at h
    cases h
    exact ⟨e', rfl, .inl rfl⟩
  | ok ts =>
    rw [hscan] at h
    change (ofTokens ts).mapError _ = _ at h
    cases he : ofTokens ts with
    | ok e =>
      rw [he] at h
      cases h
    | error e' =>
      rw [he] at h
      cases h
      exact ⟨e', rfl, .inr ⟨ts, rfl, he⟩⟩

theorem shift_eq_malformed {e : FormulaError} (h : .malformed place fault = e.shift n) :
    ∃ position, e = .malformed position fault ∧ place = position + n := by
  cases e with
  | malformed position fault' =>
    cases h
    exact ⟨position, rfl, rfl⟩
  | _ => cases h

/-- A fault is reported at a character of the formula or at its end. -/
theorem splits_of_parse (h : parse s = .error (.malformed place fault)) :
    Text.Splits s.toList place := by
  obtain ⟨e, he, hcause⟩ := exists_of_parse h
  obtain ⟨n, rfl, rfl⟩ := shift_eq_malformed he
  have hbody : Text.Splits (body s.toList) n := by
    rcases hcause with hscan | ⟨ts, hscan, hts⟩
    · obtain ⟨k, fault', hk, -, hsplits⟩ := Token.place_of_scan hscan
      cases hk
      rwa [Nat.zero_add]
    · exact splits_of_ofTokens hscan hts
  obtain ⟨front, hs, hfront⟩ := exists_front s
  rw [hs, ← hfront, Nat.add_comm]
  exact hbody.append_left front

theorem body_ne_nil (ht : Text.allBlank t = false)
    (hequals : (t.toList.dropWhile Text.isBlank).head? ≠ some '=') : body t.toList ≠ [] := by
  rw [body_of_head_ne hequals]
  intro h
  rw [Text.allBlank, List.all_eq_true.2 (List.dropWhile_eq_nil_iff.1 h)] at ht
  cases ht

/-- An equals sign in front of a formula without one moves its fault by one byte. -/
theorem parse_equals_append (ht : Text.allBlank t = false)
    (hequals : (t.toList.dropWhile Text.isBlank).head? ≠ some '=') :
    parse ("=" ++ t) = (parse t).mapError fun e => (e.reopen (offset t)).shift 1 := by
  have hbody := body_of_head_ne hequals
  have hbody' : body ("=" ++ t).toList = t.toList := by
    rw [String.toList_append]
    exact body_of_equals (List.dropWhile_cons_of_neg (by decide))
  have hoffset' : offset ("=" ++ t) = 1 := by
    obtain ⟨front, hs, hfront⟩ := exists_front ("=" ++ t)
    rw [hbody', String.toList_append] at hs
    rw [← hfront, ← List.append_cancel_right hs]
    rfl
  obtain ⟨blanks, ht', hblanks⟩ := Text.exists_dropWhile Text.isBlank t.toList
  rw [← hbody] at ht'
  have hoffset : Text.width blanks = offset t := by
    obtain ⟨front, hs, hfront⟩ := exists_front t
    rw [← hfront, ← List.append_cancel_right (ht'.symm.trans hs)]
  -- The blanks are in front of the tokens of one text, and in front of the body of the other.
  have hscan : Token.scan 0 t.toList = Token.scan (0 + offset t) (body t.toList) := by
    conv_lhs => rw [ht']
    rw [Token.scan_blanks_append hblanks, hoffset]
  rw [parse_eq_mapError, parse_eq_mapError t, hbody', hoffset', hscan, Token.scan_relocate,
    mapError_mapError]
  cases hcut : Token.scan 0 (body t.toList) with
  | error e =>
    show Except.error ((e.relocate _).shift 1) = Except.error (((e.shift _).reopen _).shift 1)
    rw [FormulaError.reopen_shift]
  | ok ts =>
    have hne : ts ≠ [] := by
      obtain ⟨c, cs, hcs⟩ := List.exists_cons_of_ne_nil (body_ne_nil ht hequals)
      have hc : Text.isBlank c = false :=
        Text.stops_dropWhile Text.isBlank t.toList c (by rw [← hbody, hcs]; rfl)
      rw [hcs] at hcut
      exact Token.ne_nil_of_scan hc hcut
    show (ofTokens (ts.map _)).mapError _ = (ofTokens ts).mapError _
    rw [ofTokens_relocate hne (stopOf_relocate hne _), mapError_mapError]
    apply congrArg (Except.mapError · (ofTokens ts))
    funext e
    show (e.relocate _).shift 1 = ((e.shift (offset t)).reopen (offset t)).shift 1
    rw [FormulaError.reopen_shift]

/-- Blanks and an equals sign around a formula change nothing but the places that a fault is reported
with, and a fault is reported at a character or at the end. -/
theorem parse_surrounded (t : String) :
    (∀ w, Text.allBlank w = true → Text.allBlank t = false →
      parse (w ++ t) = (parse t).mapError (.shift w.utf8ByteSize) ∧ parse (t ++ w) = parse t) ∧
    (Text.allBlank t = false → (t.toList.dropWhile Text.isBlank).head? ≠ some '=' →
      parse ("=" ++ t) = (parse t).mapError fun e => (e.reopen (offset t)).shift 1) ∧
    ∀ place fault, parse t = .error (.malformed place fault) →
      place ≤ t.utf8ByteSize ∧ String.Pos.Raw.IsValid t ⟨place⟩ := by
  refine ⟨fun w hw ht => ⟨?_, ?_⟩, parse_equals_append, fun place fault h => ?_⟩
  · exact parse_blanks_append hw t
  · exact parse_append_blanks ht hw
  · exact (splits_of_parse h).isValid

/-- A blank of three bytes and an equals sign around a sign without an operand. -/
theorem parse_surrounded_of_sign :
    parse " (-" = .error (.malformed 3 .missingOperand) ∧
      parse ("\u3000" ++ " (-") = .error (.malformed 6 .missingOperand) ∧
      parse (" (-" ++ "\u3000") = .error (.malformed 3 .missingOperand) ∧
      parse ("=" ++ " (-") = .error (.malformed 4 .missingOperand) ∧
      3 ≤ " (-".utf8ByteSize ∧ String.Pos.Raw.IsValid " (-" ⟨3⟩ := by
  have hparse : parse " (-" = .error (.malformed 3 .missingOperand) := by cbv
  obtain ⟨hblanks, hequals, hplace⟩ := parse_surrounded " (-"
  obtain ⟨hfront, hend⟩ := hblanks "\u3000" rfl rfl
  have hsign := hequals rfl (by decide)
  rw [hparse] at hfront hend hsign
  exact ⟨hparse, hfront, hend, hsign, hplace 3 .missingOperand hparse⟩

end Formula

end Spreadsheet
