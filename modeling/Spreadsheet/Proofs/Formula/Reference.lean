import Spreadsheet.Proofs.Address.Form
import Spreadsheet.Proofs.Formula.Blanks
import Spreadsheet.Proofs.Formula.Faults
import Spreadsheet.Proofs.Formula.Tiling
import Spreadsheet.Proofs.Sheet.Rows
import Spreadsheet.Recalculate

/-!
Lone references. A text is cut into a single reference and blanks exactly if it names an address, and
the reference is the name.
-/
namespace Spreadsheet

namespace Tiles

variable {ps : List Piece} {cs : List Char} {t : Token} {position : Nat}

/-- Around a single token there is nothing but blanks. -/
theorem exists_blanks_of_tokens (h : Tiles ps cs) (hp : Piece.tokens position ps = [t]) :
    ∃ before after, cs = before ++ t.text.toList ++ after ∧
      (∀ c ∈ before, Text.isBlank c = true) ∧ ∀ c ∈ after, Text.isBlank c = true := by
  induction h generalizing position with
  | nil => cases hp
  | @blank c ps cs hc h ih =>
    obtain ⟨before, after, rfl, hb, ha⟩ := ih hp
    refine ⟨c :: before, after, rfl, fun d hd => ?_, ha⟩
    rcases List.mem_cons.1 hd with rfl | hd
    · exact hc
    · exact hb d hd
  | @lexeme x ps cs hx hmax h ih =>
    rw [Piece.tokens] at hp
    obtain ⟨rfl, htail⟩ := List.cons.inj hp
    exact ⟨[], cs, rfl, by simp, h.isBlank_of_tokens htail⟩

end Tiles

/-- The blanks around a name do not matter. -/
theorem Address.parse_congr {s t : String} (h : Text.trim s = Text.trim t) : parse s = parse t := by
  unfold parse
  rw [h]

/-- A single token is the text without the blanks around it. -/
theorem trim_text_of_tokenize {s : String} {t : Token} (h : tokenize s = .ok [t]) :
    Text.trim s = Text.trim t.text := by
  obtain ⟨ps, hps⟩ := Token.exists_tiles_of_scan h
  have hscan := hps.scan_eq 0
  rw [← tokenize, h] at hscan
  obtain ⟨before, after, hs, hb, ha⟩ := hps.exists_blanks_of_tokens (Except.ok.inj hscan).symm
  rw [← String.toList_inj, Text.toList_trim, Text.toList_trim, hs, Text.strip_append hb ha]

/-- Letters and digits with blanks around them are a single token. -/
theorem Address.Form.exists_tokenize {s : String} {letters digits : List Char}
    (h : Form (Text.trim s) letters digits) :
    ∃ position, tokenize s = .ok [⟨⟨.reference, Text.trim s⟩, position⟩] := by
  obtain ⟨before, after, hs, hb, ha⟩ := Text.exists_trim s
  have hname := Lexeme.WellFormed.reference h.letters_ne_nil h.digits_ne_nil h.isAlpha_of_mem
    h.isDigit_of_mem
  rw [← h.toList_eq, String.ofList_toList] at hname
  have hx : ∀ x ∈ [(⟨.reference, Text.trim s⟩ : Lexeme)], x.WellFormed := by
    intro x hx
    rw [List.mem_singleton.1 hx]
    exact hname
  have hscan := Token.scan_flatMap (0 + Text.width before) hx (List.isChain_singleton _)
  rw [List.flatMap_singleton] at hscan
  refine ⟨0 + Text.width before, ?_⟩
  rw [tokenize, hs, Token.scan_append_blanks ha, Token.scan_blanks_append hb, hscan]
  rfl

namespace Formula

variable {s : String} {a : Address} {e : FormulaError}

theorem addressOf_eq_ok_iff {t : Token} : addressOf t = .ok a ↔ Address.parse t.text = .ok a := by
  unfold addressOf
  cases Address.parse t.text <;> simp

theorem parseReference_of_tokenize {t : Token} {rest : List Token} (h : tokenize s = .ok (t :: rest)) :
    parseReference s = if t.kind = .reference ∧ rest.isEmpty then addressOf t
      else .error (.malformed t.position (.notReference (Text.trim s))) := by
  unfold parseReference
  rw [h]
  rfl

/-- What is read as a lone reference is a single token that names the address. -/
theorem exists_tokenize_of_parseReference (h : parseReference s = .ok a) :
    ∃ t, tokenize s = .ok [t] ∧ Address.parse t.text = .ok a := by
  cases hs : tokenize s with
  | error fault =>
    rw [parseReference, hs] at h
    cases h
  | ok ts =>
    cases ts with
    | nil =>
      rw [parseReference, hs] at h
      cases h
    | cons t rest =>
      rw [parseReference_of_tokenize hs] at h
      split at h
      · rename_i hlone
        obtain rfl := List.isEmpty_iff.1 hlone.2
        exact ⟨t, rfl, addressOf_eq_ok_iff.1 h⟩
      · cases h

theorem parseReference_of_parse (h : Address.parse s = .ok a) : parseReference s = .ok a := by
  obtain ⟨letters, digits, hform⟩ := Address.exists_form_of_parse h
  obtain ⟨position, hs⟩ := hform.exists_tokenize
  rw [Address.parse_congr (trim_text_of_tokenize hs)] at h
  rw [parseReference_of_tokenize hs, if_pos ⟨rfl, rfl⟩, addressOf_eq_ok_iff]
  exact h

theorem exists_malformed_of_parseReference (h : parseReference s = .error e) :
    ∃ position fault, e = .malformed position fault := by
  cases hs : tokenize s with
  | error fault =>
    rw [parseReference, hs] at h
    cases h
    exact Token.exists_malformed_of_scan hs
  | ok ts =>
    cases ts with
    | nil =>
      rw [parseReference, hs] at h
      cases h
      exact ⟨_, _, rfl⟩
    | cons t rest =>
      rw [parseReference_of_tokenize hs] at h
      split at h
      · obtain ⟨reason, -, rfl⟩ := exists_malformed_of_addressOf h
        exact ⟨_, _, rfl⟩
      · cases h
        exact ⟨_, _, rfl⟩

/-- A text is read as a lone reference exactly if it names an address, and as that address; every other
text is malformed. So an outcome is looked up at the cell that is set by the same name, which then holds
the text, unless it is blank, while all other cells are as they were. -/
theorem parseReference_eq_parse (s : String) :
    (∀ a, parseReference s = .ok a ↔ Address.parse s = .ok a) ∧
      (∀ e, parseReference s = .error e → ∃ position fault, e = .malformed position fault) ∧
      ∀ (sheet sheet' : Sheet) (text : String), sheet.setAt s text = .ok sheet' →
        ∃ cell, Address.parse s = .ok cell ∧ sheet.set cell text = sheet' ∧
          sheet'.text? cell = Text.kept text ∧
          (∀ c, c ≠ cell → sheet'.text? c = sheet.text? c) ∧
          ∀ r : Results, r.get s = (r.outcomes.get? cell).getD (.error (.undefinedReference cell)) := by
  have hiff : ∀ a, parseReference s = .ok a ↔ Address.parse s = .ok a := by
    intro a
    constructor
    · intro h
      obtain ⟨t, hs, ht⟩ := exists_tokenize_of_parseReference h
      rw [Address.parse_congr (trim_text_of_tokenize hs)]
      exact ht
    · exact parseReference_of_parse
  refine ⟨hiff, fun e => exists_malformed_of_parseReference, fun sheet sheet' text h => ?_⟩
  obtain ⟨cell, hcell, hset⟩ := Sheet.setAt_eq_ok_iff.1 h
  have htext : ∀ c, sheet'.text? c = if c = cell then Text.kept text else sheet.text? c := fun c => by
    rw [← hset, Sheet.text?_set]
  refine ⟨cell, hcell, hset, (htext cell).trans (if_pos rfl), fun c hc => (htext c).trans (if_neg hc),
    fun r => ?_⟩
  rw [Results.get, (hiff cell).2 hcell]

/-- Blanks around a name and the case of its letters do not matter, a second token does. -/
theorem parseReference_eq_parse_of_blanks :
    parseReference " b7 " = .ok ⟨6, 1⟩ ∧
      (∃ position fault, parseReference "A1 B2" = .error (.malformed position fault)) ∧
      ∃ cell sheet, (∅ : Sheet).setAt " b7 " "3" = .ok sheet ∧ (∅ : Sheet).set cell "3" = sheet ∧
        sheet.text? cell = some "3" ∧
        ∀ r : Results, r.get " b7 " = (r.outcomes.get? cell).getD (.error (.undefinedReference cell)) := by
  have hform : Address.Form (Text.trim " b7 ") ['b'] ['7'] := by
    constructor
    · cbv
    · exact List.cons_ne_nil _ _
    · exact List.cons_ne_nil _ _
    · exact List.all_eq_true.1 rfl
    · exact List.all_eq_true.1 rfl
  have hname : Address.parse " b7 " = .ok ⟨6, 1⟩ :=
    hform.parse_eq_ok_iff.2 ⟨rfl, rfl, by decide, by decide⟩
  have hset : (∅ : Sheet).setAt " b7 " "3" = .ok ((∅ : Sheet).set ⟨6, 1⟩ "3") :=
    Sheet.setAt_eq_ok_iff.2 ⟨⟨6, 1⟩, hname, rfl⟩
  refine ⟨((parseReference_eq_parse " b7 ").1 _).2 hname, ?_, ?_⟩
  · cases h : parseReference "A1 B2" with
    | ok a =>
      have hok := ((parseReference_eq_parse "A1 B2").1 a).1 h
      cases hok
    | error e =>
      obtain ⟨position, fault, rfl⟩ := (parseReference_eq_parse "A1 B2").2.1 e h
      exact ⟨position, fault, rfl⟩
  · obtain ⟨cell, -, hcell, htext, -, hget⟩ := (parseReference_eq_parse " b7 ").2.2 _ _ _ hset
    exact ⟨cell, _, hset, hcell, htext, hget⟩

end Formula

end Spreadsheet
