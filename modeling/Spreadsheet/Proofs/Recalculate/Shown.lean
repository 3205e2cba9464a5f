import Spreadsheet.Proofs.Number.Sign
import Spreadsheet.Proofs.Recalculate.Pass
import Spreadsheet.Proofs.Sheet.Area
import Spreadsheet.Proofs.Sheet.Rows

/-!
What is shown for a pass, put into cells again. A finite number is shown as a formula that comes to
it, and all else that is shown for a cell is no formula.
-/
namespace Spreadsheet

/-- Whether a text is made of visible ASCII characters. -/
def Text.Graphic (t : String) : Prop := ∀ c ∈ t.toList, 33 ≤ c.toNat ∧ c.toNat ≤ 126

instance (t : String) : Decidable (Text.Graphic t) := List.decidableBAll _ t.toList

/-- The texts shown for errors. -/
def FormulaError.markers : List String :=
  ["#SYNTAX!", "#NUM!", "#REF!", "#CIRC!", "#DIV/0!", "#DEP!"]

theorem FormulaError.marker_mem_markers (e : FormulaError) : e.marker ∈ markers := by
  cases e <;> simp [marker, markers]

/-- What is shown for a cell whose text was shown for a cell before. -/
def reread (t : String) : String :=
  if t ∈ FormulaError.markers ++ Number.notFinite then "#SYNTAX!" else t

namespace Formula

/-- Whether a text is a formula without references that comes to a number with this text. -/
def Constant (t : String) : Prop :=
  ∃ e x, parse t = .ok e ∧ e.leaves = [] ∧ e.evaluate (fun _ => none) = .ok x ∧
    Number.display x = t

variable {t : String} {x : Float}

/-- Nothing that starts with a number sign is a formula. -/
theorem parse_eq_badCharacter {cs : List Char} (h : t.toList = '#' :: cs) :
    parse t = .error (.malformed 0 (.badCharacter '#')) := by
  have hbody : body t.toList = t.toList := by
    rw [h]
    rfl
  have hscan : Token.scan 0 t.toList = .error (.malformed 0 (.badCharacter '#')) := by
    have hblank : ¬ Text.isBlank '#' = true := by decide
    rw [h]
    exact Token.scan_of_error hblank rfl
  unfold parse
  simp only [hbody, hscan, String.ofList_toList, Nat.sub_self]
  rfl

/-- Neither the text of an error nor that of a number that is not finite is a formula. -/
theorem exists_parse_eq_malformed (h : t ∈ FormulaError.markers ++ Number.notFinite) :
    ∃ position fault, parse t = .error (.malformed position fault) := by
  rcases List.mem_append.1 h with h | h
  · have hall : ∀ t ∈ FormulaError.markers, t.toList.head? = some '#' := by decide
    obtain ⟨cs, hcs⟩ := List.head?_eq_some_iff.1 (hall t h)
    exact ⟨_, _, parse_eq_badCharacter hcs⟩
  · simp only [Number.notFinite, List.mem_cons, List.not_mem_nil, or_false] at h
    rcases h with rfl | rfl | rfl
    · exact ⟨3, .missingRow "inf", by cbv⟩
    · exact ⟨4, .missingRow "inf", by cbv⟩
    · exact ⟨3, .missingRow "NaN", by cbv⟩

theorem Constant.reread_eq (h : Constant t) : reread t = t := by
  obtain ⟨e, x, hparse, -⟩ := h
  apply if_neg
  intro hmem
  obtain ⟨position, fault, herror⟩ := exists_parse_eq_malformed hmem
  rw [hparse] at herror
  cases herror

theorem parse_number (h : Number.Unsigned x) : parse (Number.text x) = .ok (.literal x) := by
  have htext : (Expr.literal x).text = Number.text x := by simp [Expr.text, Expr.lexemes]
  rw [← htext]
  exact (parse_text (e := .literal x) h).1 (Nat.zero_le _)

theorem parse_minus (h : Number.Unsigned x) :
    parse ("-" ++ Number.text x) = .ok (.unary .negate (.literal x)) := by
  have htext : (Expr.unary .negate (.literal x)).text = "-" ++ Number.text x := by
    simp [Expr.text, Expr.lexemes, Expr.enclose, Expr.level, UnaryOp.lexeme]
  have hload : (Expr.unary .negate (.literal x)).load ≤ maxNesting := by
    show 0 + 0 + 1 ≤ maxNesting
    decide
  rw [← htext]
  exact (parse_text (e := .unary .negate (.literal x)) h).1 hload

end Formula

namespace Number

variable {x : Float}

theorem unsigned_zero : Unsigned (Float.ofBits 0) := unsigned_ofBits (n := 0) (by decide)

theorem text_zero : text (Float.ofBits 0) = "0" := by
  have hbits : (Float.ofBits 0).toBits.toNat = 0 := toBits_ofBits (n := 0) (by decide)
  rw [text_of_unsigned unsigned_zero, hbits]
  rfl

theorem constant_zero : Formula.Constant "0" := by
  have hdisplay : display (Float.ofBits 0) = "0" := by
    unfold display
    split
    · rfl
    · exact text_zero
  have hparse := Formula.parse_number unsigned_zero
  rw [text_zero] at hparse
  exact ⟨_, _, hparse, rfl, rfl, hdisplay⟩

/-- A number that is not finite is shown as such, and any other as a formula that comes to it. -/
theorem display_cases (x : Float) :
    x.isFinite = false ∧ display x ∈ notFinite ∨ Formula.Constant (display x) := by
  by_cases hzero : (x == 0) = true
  · right
    rw [display, if_pos hzero]
    exact constant_zero
  · have hdisplay : display x = text x := if_neg hzero
    rcases text_cases x with h | h | ⟨y, hy, rfl, htext⟩
    · left
      rwa [hdisplay]
    · right
      refine ⟨.literal x, x, ?_, rfl, rfl, rfl⟩
      rw [hdisplay]
      exact Formula.parse_number h
    · right
      refine ⟨.unary .negate (.literal y), -y, ?_, rfl, rfl, rfl⟩
      rw [hdisplay, htext]
      exact Formula.parse_minus hy

theorem graphic_text (h : Unsigned x) : Text.Graphic (text x) := by
  intro c hc
  rcases isDigit_or_eq_point h c hc with hd | rfl
  · have hd := Text.isDigit_iff.1 hd
    omega
  · decide

theorem graphic_display (x : Float) : Text.Graphic (display x) := by
  unfold display
  split
  · decide
  · rcases text_cases x with ⟨-, h⟩ | h | ⟨y, hy, -, htext⟩
    · have hall : ∀ t ∈ notFinite, Text.Graphic t := by decide
      exact hall _ h
    · exact graphic_text h
    · intro c hc
      rw [htext, String.toList_append] at hc
      rcases List.mem_append.1 hc with hc | hc
      · obtain rfl : c = '-' := by simpa using hc
        decide
      · exact graphic_text hy c hc

end Number

namespace Results

variable {r : Results} {c : Address} {x : Float}

theorem display_of_ok (h : r.outcomes.get? c = some (.ok x)) : r.display c = Number.display x := by
  rw [display, h]

theorem display_of_error {e : FormulaError} (h : r.outcomes.get? c = some (.error e)) :
    r.display c = e.marker := by
  rw [display, h]

theorem display_of_none (h : r.outcomes.get? c = none) : r.display c = "" := by
  rw [display, h]

/-- What is shown for a cell with an outcome is a formula that comes to it, or no formula. -/
theorem display_cases (h : (r.outcomes.get? c).isSome) :
    r.display c ∈ FormulaError.markers ++ Number.notFinite ∨ Formula.Constant (r.display c) := by
  obtain ⟨outcome, hc⟩ := Option.isSome_iff_exists.1 h
  cases outcome with
  | error e =>
    left
    rw [display_of_error hc]
    exact List.mem_append_left _ e.marker_mem_markers
  | ok x =>
    rw [display_of_ok hc]
    rcases Number.display_cases x with ⟨-, hx⟩ | hx
    · left
      exact List.mem_append_right _ hx
    · right
      exact hx

theorem constant_display (h : r.outcomes.get? c = some (.ok x)) (hx : x.isFinite = true) :
    Formula.Constant (r.display c) := by
  rw [display_of_ok h]
  rcases Number.display_cases x with ⟨hfalse, -⟩ | hconstant
  · rw [hx] at hfalse
    cases hfalse
  · exact hconstant

theorem graphic_display (r : Results) (c : Address) : Text.Graphic (r.display c) := by
  cases hc : r.outcomes.get? c with
  | none =>
    rw [display_of_none hc]
    decide
  | some outcome =>
    cases outcome with
    | error e =>
      have hall : ∀ t ∈ FormulaError.markers, Text.Graphic t := by decide
      rw [display_of_error hc]
      exact hall _ e.marker_mem_markers
    | ok x =>
      rw [display_of_ok hc]
      exact Number.graphic_display x

theorem graphic_toRows (r : Results) :
    ∀ row ∈ r.toRows, ∀ t ∈ row, Text.Graphic t := by
  intro row hrow t ht
  obtain ⟨i, -, rfl⟩ := List.mem_map.1 hrow
  obtain ⟨j, -, rfl⟩ := List.mem_map.1 ht
  exact r.graphic_display _

/-- What is shown for a cell with an outcome is not blank. -/
theorem allBlank_display (h : (r.outcomes.get? c).isSome) : Text.allBlank (r.display c) = false := by
  have hne : (r.display c).toList ≠ [] := by
    intro hnil
    have hempty : r.display c = "" := String.toList_eq_nil_iff.1 hnil
    rcases display_cases h with hmem | ⟨e, x, hparse, -⟩
    · rw [hempty] at hmem
      revert hmem
      decide
    · have hfault : Formula.parse "" = .error (.malformed 0 .emptyFormula) := by cbv
      rw [hempty, hfault] at hparse
      cases hparse
  obtain ⟨d, ds, hd⟩ := List.exists_cons_of_ne_nil hne
  have hgraphic := r.graphic_display c d (by simp [hd])
  rw [Text.allBlank, hd, List.all_cons, Text.isBlank_eq_false_of_graphic hgraphic, Bool.false_and]

theorem length_toRows (r : Results) : r.toRows.length = r.rows.toNat := by
  rw [toRows, List.length_map, List.length_range]

theorem length_of_mem_toRows {row : List String} (h : row ∈ r.toRows) :
    row.length = r.cols.toNat := by
  obtain ⟨i, -, rfl⟩ := List.mem_map.1 h
  rw [List.length_map, List.length_range]

/-- What is shown has no more rows and columns than a word counts. -/
theorem fits_toRows (r : Results) : Sheet.Fits r.toRows := by
  constructor
  · rw [length_toRows]
    exact r.rows.toNat_lt.le
  · intro row hrow
    rw [length_of_mem_toRows hrow]
    exact r.cols.toNat_lt.le

theorem getElem?_toRows (r : Results) (c : Address) :
    (r.toRows[c.row.toNat]?).bind (·[c.col.toNat]?) =
      if c.row.toNat < r.rows.toNat ∧ c.col.toNat < r.cols.toNat then some (r.display c)
      else none := by
  unfold toRows
  by_cases hrow : c.row.toNat < r.rows.toNat
  · by_cases hcol : c.col.toNat < r.cols.toNat
    · simp [hrow, hcol]
    · simp [hrow, hcol]
  · simp [hrow]

theorem map_toRows (r : Results) (f : String → String) : r.toRows.map (List.map f) =
    (List.range r.rows.toNat).map fun row => (List.range r.cols.toNat).map fun col =>
      f (r.display ⟨.ofNat row, .ofNat col⟩) := by
  simp only [toRows, List.map_map, Function.comp_def]

end Results

namespace Sheet

variable {s : Sheet} {c : Address} {t : String}

theorem display_recalculate_of_malformed (mode : Mode) {position : Nat} {fault : SyntaxFault}
    (ht : s.text? c = some t) (he : Formula.parse t = .error (.malformed position fault)) :
    (s.recalculate mode).display c = "#SYNTAX!" :=
  Results.display_of_error (get?_recalculate_of_error mode ht he)

theorem display_recalculate_of_constant (mode : Mode) (ht : s.text? c = some t)
    (hc : Formula.Constant t) : (s.recalculate mode).display c = t := by
  obtain ⟨e, x, hparse, hleaves, hevaluate, hdisplay⟩ := hc
  have hformula : s.formula? c = some e := formula?_eq_some_iff.2 ⟨t, ht, hparse⟩
  have hreads : ∀ p, ¬ s.Reads c p := by
    intro p hp
    obtain ⟨e', hparse', hmem⟩ := (reads_iff ht).1 hp
    rw [hparse] at hparse'
    cases hparse'
    rw [hleaves] at hmem
    cases hmem
  have hget := get?_recalculate_of_not_onCycle mode hformula (not_onCycle_of_not_reads hreads)
  have hcongr : e.evaluate (s.recalculate mode).outcomes.get? = e.evaluate fun _ => none := by
    apply Expr.evaluate_congr
    rw [hleaves]
    exact List.forall_mem_nil _
  rw [hcongr, hevaluate] at hget
  rw [Results.display_of_ok hget, hdisplay]

/-- What is shown for a pass has a text in every cell that had one. -/
theorem text?_ofRows_toRows (hs : s.Nameable) (mode : Mode) (c : Address) :
    (ofRows (s.recalculate mode).toRows).text? c =
      (s.text? c).map fun _ => (s.recalculate mode).display c := by
  have hsome := isSome_get?_recalculate_iff (s := s) (c := c) mode
  rw [text?_ofRows (Results.fits_toRows _), Results.getElem?_toRows]
  cases ht : s.text? c with
  | none =>
    have hdisplay : (s.recalculate mode).display c = "" :=
      Results.display_of_none (get?_recalculate_of_text?_eq_none mode ht)
    rw [hdisplay]
    split <;> rfl
  | some t =>
    have hpopulated : (s.text? c).isSome := by rw [ht, Option.isSome_some]
    have harea : c.row.toNat < (s.recalculate mode).rows.toNat ∧
        c.col.toNat < (s.recalculate mode).cols.toNat := forall_lt_dimensions_iff.2 hs c hpopulated
    rw [if_pos harea, Option.bind_some, Text.kept,
      Results.allBlank_display (hsome.2 hpopulated)]
    rfl

theorem display_recalculate_ofRows (hs : s.Nameable) (mode mode' : Mode) (c : Address) :
    ((ofRows (s.recalculate mode).toRows).recalculate mode').display c =
      reread ((s.recalculate mode).display c) := by
  have htext := text?_ofRows_toRows hs mode c
  have hsome := isSome_get?_recalculate_iff (s := s) (c := c) mode
  cases ht : s.text? c with
  | none =>
    rw [ht] at htext
    rw [Results.display_of_none (get?_recalculate_of_text?_eq_none mode' htext),
      Results.display_of_none (get?_recalculate_of_text?_eq_none mode ht)]
    decide
  | some t =>
    rw [ht] at htext hsome
    rcases Results.display_cases (hsome.2 rfl) with hmem | hconstant
    · obtain ⟨position, fault, herror⟩ := Formula.exists_parse_eq_malformed hmem
      rw [display_recalculate_of_malformed mode' htext herror, reread, if_pos hmem]
    · rw [display_recalculate_of_constant mode' htext hconstant, hconstant.reread_eq]

/-- A second pass over what is shown for a first shows the same area. -/
theorem toRows_recalculate_ofRows (hs : s.Nameable) (mode mode' : Mode) :
    ((ofRows (s.recalculate mode).toRows).recalculate mode').toRows =
      (s.recalculate mode).toRows.map (List.map reread) := by
  have harea : (ofRows (s.recalculate mode).toRows).dimensions = s.dimensions := by
    apply dimensions_congr
    intro c
    rw [text?_ofRows_toRows hs, Option.isSome_map]
  have hrows : ((ofRows (s.recalculate mode).toRows).recalculate mode').rows =
      (s.recalculate mode).rows := congrArg Prod.fst harea
  have hcols : ((ofRows (s.recalculate mode).toRows).recalculate mode').cols =
      (s.recalculate mode).cols := congrArg Prod.snd harea
  rw [Results.toRows, hrows, hcols, Results.map_toRows]
  simp only [display_recalculate_ofRows hs]

end Sheet

end Spreadsheet
