import Mathlib
import Spreadsheet.Text.Blank

/-! Classes of characters, and the piece of a text that one class covers. -/
namespace Spreadsheet.Text

variable {c : Char} {p : Char → Bool} {l m : List Char}

theorem isDigit_iff : c.isDigit = true ↔ 48 ≤ c.toNat ∧ c.toNat ≤ 57 := by
  rw [Char.isDigit_iff_toNat]
  rfl

theorem isAlpha_iff : c.isAlpha = true ↔
    65 ≤ c.toNat ∧ c.toNat ≤ 90 ∨ 97 ≤ c.toNat ∧ c.toNat ≤ 122 := by
  simp only [Char.isAlpha, Char.isUpper, Char.isLower, Bool.or_eq_true, Bool.and_eq_true,
    decide_eq_true_eq, UInt32.le_iff_toNat_le, ge_iff_le]
  rfl

theorem isAlpha_eq_false_of_isDigit (h : c.isDigit = true) : c.isAlpha = false := by
  have hd := isDigit_iff.1 h
  refine Bool.eq_false_iff.2 fun ha => ?_
  have ha := isAlpha_iff.1 ha
  omega

theorem isBlank_eq_false_of_graphic (h : 33 ≤ c.toNat ∧ c.toNat ≤ 126) : isBlank c = false := by
  refine Bool.eq_false_iff.2 fun hb => ?_
  simp only [isBlank, blankRanges, List.any_cons, List.any_nil, Bool.or_eq_true, Bool.and_eq_true,
    decide_eq_true_eq, Bool.or_false] at hb
  omega

theorem isBlank_eq_false_of_isDigit (h : c.isDigit = true) : isBlank c = false := by
  have hd := isDigit_iff.1 h
  exact isBlank_eq_false_of_graphic (by omega)

theorem isBlank_eq_false_of_isAlpha (h : c.isAlpha = true) : isBlank c = false := by
  have ha := isAlpha_iff.1 h
  exact isBlank_eq_false_of_graphic (by omega)

/-- Whether a text is at its end or goes on with a character outside the class `p`. -/
def Stops (p : Char → Bool) (l : List Char) : Prop := ∀ c ∈ l.head?, p c = false

theorem stops_dropWhile (p : Char → Bool) (l : List Char) : Stops p (l.dropWhile p) := by
  intro c hc
  have h := List.head?_dropWhile_not p l
  rw [hc] at h
  simpa using h

theorem takeWhile_append_stops (l : List Char) (hm : Stops p m) :
    (l ++ m).takeWhile p = l.takeWhile p := by
  have hnil : m.takeWhile p = [] := by
    cases m with
    | nil => rfl
    | cons c m => simp [hm c rfl]
  rw [List.takeWhile_append, hnil, List.append_nil]
  split
  · rename_i h
    exact ((List.takeWhile_prefix p).eq_of_length h).symm
  · rfl

theorem dropWhile_append_stops (l : List Char) (hm : Stops p m) :
    (l ++ m).dropWhile p = l.dropWhile p ++ m := by
  have hself : m.dropWhile p = m := by
    cases m with
    | nil => rfl
    | cons c m => simp [hm c rfl]
  rw [List.dropWhile_append, hself]
  split
  · rename_i h
    rw [List.isEmpty_iff.1 h, List.nil_append]
  · rfl

theorem takeWhile_append_of_stops (hl : ∀ c ∈ l, p c = true) (hm : Stops p m) :
    (l ++ m).takeWhile p = l := by
  rw [takeWhile_append_stops l hm, List.takeWhile_eq_self_iff.2 hl]

theorem dropWhile_append_of_stops (hl : ∀ c ∈ l, p c = true) (hm : Stops p m) :
    (l ++ m).dropWhile p = m := by
  rw [dropWhile_append_stops l hm, List.dropWhile_eq_nil_iff.2 hl, List.nil_append]

theorem trim_eq_self {s : String} (h : ∀ c ∈ s.toList, isBlank c = false) : trim s = s := by
  have hdrop : ∀ l : List Char, (∀ c ∈ l, isBlank c = false) → l.dropWhile isBlank = l := by
    intro l hl
    cases l with
    | nil => rfl
    | cons c l => simp [hl c List.mem_cons_self]
  have hrev : ∀ c ∈ s.toList.reverse, isBlank c = false := fun c hc => h c (List.mem_reverse.1 hc)
  unfold trim dropEndBlanks
  rw [hdrop _ h, hdrop _ hrev, List.reverse_reverse, String.ofList_toList]

end Spreadsheet.Text
