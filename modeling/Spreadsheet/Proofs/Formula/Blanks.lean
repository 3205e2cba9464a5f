import Spreadsheet.Formula.Parse
import Spreadsheet.Proofs.Except
import Spreadsheet.Proofs.Formula.Scan
import Spreadsheet.Proofs.Text.Trim

/-! Blanks in front of a formula move the place of its fault, and blanks after it change nothing. -/
namespace Spreadsheet

variable {w cs rest : List Char} {c : Char}

namespace Lexeme

/-- Whether a lexeme can go on with a character. -/
def joins (c : Char) : Bool := c.isAlpha || continues c

theorem stops_isAlpha (h : Text.Stops joins w) : Text.Stops Char.isAlpha w := by
  intro c hc
  have hstop := h c hc
  unfold joins at hstop
  exact (Bool.or_eq_false_iff.1 hstop).1

theorem stops_continues (h : Text.Stops joins w) : Text.Stops continues w := by
  intro c hc
  have hstop := h c hc
  unfold joins at hstop
  exact (Bool.or_eq_false_iff.1 hstop).2

theorem joins_eq_false_of_isBlank (h : Text.isBlank c = true) : joins c = false := by
  refine Bool.eq_false_iff.2 fun hj => ?_
  have hgraphic : 33 ≤ c.toNat ∧ c.toNat ≤ 126 := by
    unfold joins continues at hj
    simp only [Bool.or_eq_true, beq_iff_eq, Text.isAlpha_iff, Text.isDigit_iff] at hj
    rcases hj with hj | hj | rfl
    · omega
    · omega
    · decide
  rw [Text.isBlank_eq_false_of_graphic hgraphic] at h
  cases h

theorem stops_joins_of_blanks (hw : ∀ c ∈ w, Text.isBlank c = true) : Text.Stops joins w :=
  fun c hc => joins_eq_false_of_isBlank (hw c (List.mem_of_mem_head? hc))

theorem readNumber_append_stops (hw : Text.Stops continues w) (c : Char) (cs : List Char) :
    readNumber c (cs ++ w) = (readNumber c cs).map fun x => (x.1, x.2 ++ w) := by
  have hd := stops_isDigit hw
  unfold readNumber
  simp only [Text.takeWhile_append_stops _ hd, Text.dropWhile_append_stops _ hd]
  cases cs.dropWhile Char.isDigit with
  | nil =>
    -- What follows does not start with a point, so the number ends here.
    cases w with
    | nil => rfl
    | cons d w =>
      have hpoint : d ≠ '.' := by
        rintro rfl
        cases hw '.' rfl
      rw [List.nil_append]
      split
      · rename_i h
        cases h
        exact absurd rfl hpoint
      · rfl
  | cons d rest =>
    rw [List.cons_append]
    by_cases hpoint : d = '.'
    · subst hpoint
      simp only [Text.takeWhile_append_stops _ hd, Text.dropWhile_append_stops _ hd]
      split <;> rfl
    · split
      · rename_i h
        cases h
        exact absurd rfl hpoint
      · split
        · rename_i h
          cases h
          exact absurd rfl hpoint
        · rfl

theorem readReference_append_stops (hw : Text.Stops joins w) (c : Char) (cs : List Char) :
    readReference c (cs ++ w) = (readReference c cs).map fun x => (x.1, x.2 ++ w) := by
  have ha := stops_isAlpha hw
  have hd := stops_isDigit (stops_continues hw)
  unfold readReference
  simp only [Text.takeWhile_append_stops _ ha, Text.dropWhile_append_stops _ ha,
    Text.takeWhile_append_stops _ hd, Text.dropWhile_append_stops _ hd]
  split <;> rfl

/-- What is read at the front does not depend on what follows, unless that goes on with a lexeme. -/
theorem read_append_stops (hw : Text.Stops joins w) (c : Char) (cs : List Char) :
    Lexeme.read c (cs ++ w) = (Lexeme.read c cs).map fun x => (x.1, x.2 ++ w) := by
  unfold Lexeme.read
  split
  · rfl
  · split
    · exact readNumber_append_stops (stops_continues hw) c cs
    · split
      · rfl
      · split
        · exact readReference_append_stops hw c cs
        · rfl

end Lexeme

namespace Token

theorem scan_blanks (hw : ∀ c ∈ w, Text.isBlank c = true) (position : Nat) :
    scan position w = .ok [] := by
  induction w generalizing position with
  | nil => rw [scan]
  | cons c w ih =>
    rw [scan, if_pos (hw c List.mem_cons_self)]
    exact ih (fun d hd => hw d (List.mem_cons_of_mem c hd)) _

/-- Blanks after a text add no token and no fault. -/
theorem scan_append_blanks (hw : ∀ c ∈ w, Text.isBlank c = true) (position : Nat)
    (cs : List Char) : scan position (cs ++ w) = scan position cs := by
  have hread := Lexeme.read_append_stops (Lexeme.stops_joins_of_blanks hw)
  induction position, cs using scan.induct with
  | case1 position => rw [List.nil_append, scan_blanks hw, scan]
  | case2 position c cs hc ih => rw [List.cons_append, scan, if_pos hc, ih, scan, if_pos hc]
  | case3 position c cs hc distance fault hr =>
    rw [List.cons_append, scan_of_error hc hr, scan_of_error hc (by rw [hread, hr]; rfl)]
  | case4 position c cs hc x rest hr hlen e hs ih =>
    rw [List.cons_append, scan_of_ok hc hr, scan_of_ok hc (by rw [hread, hr]; rfl), ih]
  | case5 position c cs hc x rest hr hlen tokens hs ih =>
    rw [List.cons_append, scan_of_ok hc hr, scan_of_ok hc (by rw [hread, hr]; rfl), ih]

end Token

namespace FormulaError

/-- The error without the place of a malformed formula. -/
def withoutPosition : FormulaError → FormulaError
  | malformed _ fault => malformed 0 fault
  | e => e

@[simp] theorem shift_shift (m n : Nat) (e : FormulaError) :
    (e.shift m).shift n = e.shift (m + n) := by
  cases e with
  | malformed position fault => exact congrArg (malformed · fault) (Nat.add_assoc position m n)
  | _ => rfl

@[simp] theorem withoutPosition_shift (offset : Nat) (e : FormulaError) :
    (e.shift offset).withoutPosition = e.withoutPosition := by
  cases e <;> rfl

@[simp] theorem marker_withoutPosition (e : FormulaError) : e.withoutPosition.marker = e.marker := by
  cases e <;> rfl

end FormulaError

namespace Formula

theorem body_of_equals (h : cs.dropWhile Text.isBlank = '=' :: rest) : body cs = rest := by
  unfold body
  split
  · rename_i hcs
    rw [h] at hcs
    exact (List.cons.inj hcs).2.symm
  · rename_i hne
    exact absurd h (hne rest)

theorem body_of_head_ne (h : (cs.dropWhile Text.isBlank).head? ≠ some '=') :
    body cs = cs.dropWhile Text.isBlank := by
  unfold body
  split
  · rename_i hcs
    rw [hcs] at h
    exact absurd rfl h
  · rfl

theorem body_blanks_append (hw : ∀ c ∈ w, Text.isBlank c = true) (cs : List Char) :
    body (w ++ cs) = body cs := by
  unfold body
  rw [List.dropWhile_append_of_pos hw]

theorem body_append (hcs : cs.all Text.isBlank = false) (w : List Char) :
    body (cs ++ w) = body cs ++ w := by
  have hne : cs.dropWhile Text.isBlank ≠ [] := by
    intro h
    rw [List.dropWhile_eq_nil_iff, ← List.all_eq_true, hcs] at h
    cases h
  unfold body
  rw [List.dropWhile_append, if_neg (by rwa [List.isEmpty_iff])]
  generalize cs.dropWhile Text.isBlank = rest at hne
  cases rest with
  | nil => exact absurd rfl hne
  | cons c rest =>
    rw [List.cons_append]
    split
    · rename_i h
      cases h
      rfl
    · split
      · rename_i h _ _ h'
        cases h'
        exact absurd rfl (h _)
      · rfl

theorem body_suffix (cs : List Char) : body cs <:+ cs := by
  unfold body
  split
  · rename_i h
    exact (List.suffix_cons _ _).trans (h ▸ List.dropWhile_suffix _)
  · exact List.dropWhile_suffix _

/-- The number of bytes in front of the body of a formula. -/
def offset (s : String) : Nat := s.utf8ByteSize - (String.ofList (body s.toList)).utf8ByteSize

theorem parse_eq_mapError (s : String) :
    parse s = (Token.scan 0 (body s.toList) >>= ofTokens).mapError (.shift (offset s)) := by
  unfold parse offset
  dsimp only
  cases Token.scan 0 (body s.toList) >>= ofTokens <;> rfl

theorem utf8ByteSize_body_le (s : String) :
    (String.ofList (body s.toList)).utf8ByteSize ≤ s.utf8ByteSize := by
  obtain ⟨front, h⟩ := body_suffix s.toList
  have hs : s = String.ofList front ++ String.ofList (body s.toList) := by
    rw [← String.ofList_append, h, String.ofList_toList]
  have hsize := congrArg String.utf8ByteSize hs
  rw [String.utf8ByteSize_append] at hsize
  omega

/-- Blanks in front of a formula move the place of its fault. -/
theorem parse_blanks_append {b : String} (hb : Text.allBlank b = true) (t : String) :
    parse (b ++ t) = (parse t).mapError (.shift b.utf8ByteSize) := by
  have hbody : body (b ++ t).toList = body t.toList := by
    rw [String.toList_append, body_blanks_append (List.all_eq_true.1 hb)]
  have hoffset : offset (b ++ t) = offset t + b.utf8ByteSize := by
    have hle := utf8ByteSize_body_le t
    unfold offset
    rw [hbody, String.utf8ByteSize_append]
    omega
  have hshift : FormulaError.shift (offset t + b.utf8ByteSize) =
      .shift b.utf8ByteSize ∘ .shift (offset t) := by
    funext e
    exact (FormulaError.shift_shift _ _ e).symm
  rw [parse_eq_mapError, parse_eq_mapError t, hbody, hoffset, mapError_mapError, hshift]

/-- Blanks after a formula change nothing. -/
theorem parse_append_blanks {b t : String} (ht : Text.allBlank t = false)
    (hb : Text.allBlank b = true) : parse (t ++ b) = parse t := by
  have hbody : body (t ++ b).toList = body t.toList ++ b.toList := by
    rw [String.toList_append, body_append ht]
  have hscan : Token.scan 0 (body (t ++ b).toList) = Token.scan 0 (body t.toList) := by
    rw [hbody, Token.scan_append_blanks (List.all_eq_true.1 hb)]
  have hoffset : offset (t ++ b) = offset t := by
    unfold offset
    rw [hbody, String.ofList_append, String.ofList_toList, String.utf8ByteSize_append,
      String.utf8ByteSize_append, Nat.add_sub_add_right]
  rw [parse_eq_mapError, parse_eq_mapError t, hscan, hoffset]

/-- The blanks around a formula have a part in nothing but the place of its fault. -/
theorem exists_parse_eq_shift {s : String} (hs : Text.allBlank s = false) :
    ∃ offset, parse s = (parse (Text.trim s)).mapError (.shift offset) := by
  obtain ⟨before, after, h, hbefore, hafter⟩ := Text.exists_trim s
  have happend : s = String.ofList before ++ (Text.trim s ++ String.ofList after) := by
    rw [← String.toList_inj, String.toList_append, String.toList_append, String.toList_ofList,
      String.toList_ofList, ← List.append_assoc, h]
  have hbefore : Text.allBlank (String.ofList before) = true := by
    rw [Text.allBlank, String.toList_ofList, List.all_eq_true.2 hbefore]
  have hafter : Text.allBlank (String.ofList after) = true := by
    rw [Text.allBlank, String.toList_ofList, List.all_eq_true.2 hafter]
  have hparse := parse_blanks_append hbefore (Text.trim s ++ String.ofList after)
  rw [← happend, parse_append_blanks (by rwa [Text.allBlank_trim]) hafter] at hparse
  exact ⟨_, hparse⟩

theorem mapError_parse_trim {s : String} (hs : Text.allBlank s = false) :
    (parse (Text.trim s)).mapError FormulaError.withoutPosition =
      (parse s).mapError FormulaError.withoutPosition := by
  obtain ⟨offset, h⟩ := exists_parse_eq_shift hs
  rw [h, mapError_mapError]
  congr 1
  funext e
  exact (FormulaError.withoutPosition_shift offset e).symm

end Formula

end Spreadsheet
