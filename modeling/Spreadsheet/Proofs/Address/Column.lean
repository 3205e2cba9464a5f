import Spreadsheet.Address.A1
import Spreadsheet.Proofs.Text.Pieces

/-! Column letters and the numbers that they are in bijective base 26. -/
namespace Spreadsheet

/-- What holds of each of the first `n` characters holds of a character among them. -/
@[elab_as_elim]
theorem Text.forall_toNat_lt {P : Char → Prop} {n : Nat} {c : Char} (hc : c.toNat < n)
    (h : ∀ i < n, P (Char.ofNat i)) : P c := by
  rw [← Char.ofNat_toNat c]
  exact h c.toNat hc

/-- A number below the limit is that of a row and of a column. -/
theorem Address.toNat_ofNat_of_lt {n : Nat} (h : n < maxNumber) : (UInt32.ofNat n).toNat = n :=
  UInt32.toNat_ofNat_of_lt' (h.trans (by decide))

namespace Column

/-- The letter of a digit from 0 to 25. -/
theorem ofNat_letter {k : Nat} (hk : k < 26) :
    (Char.ofNat ('A'.toNat + k)).isAlpha = true ∧ letterValue (Char.ofNat ('A'.toNat + k)) = k + 1 := by
  revert k
  decide

theorem isAlpha_of_mem_numberLetters {n : Nat} {c : Char} (h : c ∈ numberLetters n) :
    c.isAlpha = true := by
  induction n using numberLetters.induct with
  | case1 => simp [numberLetters] at h
  | case2 n hn ih =>
    rw [numberLetters, if_neg hn, List.mem_append, List.mem_singleton] at h
    rcases h with h | rfl
    · exact ih h
    · exact (ofNat_letter (Nat.mod_lt _ (by decide))).1

theorem numberLetters_ne_nil {n : Nat} (h : n ≠ 0) : numberLetters n ≠ [] := by
  rw [numberLetters, if_neg h]
  simp

theorem readLetters_append (whole : String) (n : Nat) (l m : List Char) :
    readLetters whole n (l ++ m) = readLetters whole n l >>= fun k => readLetters whole k m := by
  induction l generalizing n with
  | nil => rfl
  | cons c l ih =>
    rw [List.cons_append, readLetters, readLetters]
    split
    · rfl
    · split
      · rfl
      · exact ih _

/-- The number of letters in bijective base 26: the last letter counts once, the letter before it 26
times. -/
def number (cs : List Char) : Nat := Nat.ofDigits 26 (cs.reverse.map letterValue)

variable {c : Char} {cs : List Char} {whole : String}

theorem number_nil : number [] = 0 := rfl

theorem number_concat (cs : List Char) (c : Char) :
    number (cs ++ [c]) = 26 * number cs + letterValue c := by
  rw [number, List.reverse_append, List.reverse_singleton, List.singleton_append, List.map_cons,
    Nat.ofDigits_cons, Nat.add_comm]
  rfl

/-- The value of a letter tells the letter, but not its case. -/
theorem letterValue_bounds (h : c.isAlpha = true) :
    1 ≤ letterValue c ∧ letterValue c ≤ 26 ∧
      Char.ofNat ('A'.toNat + (letterValue c - 1)) = c.toUpper := by
  have hc := Text.isAlpha_iff.1 h
  have hascii : c.toNat < 128 := by omega
  revert h
  refine Text.forall_toNat_lt hascii ?_
  decide

theorem number_ne_zero (hne : cs ≠ []) (h : ∀ c ∈ cs, c.isAlpha = true) : number cs ≠ 0 := by
  have hc := (letterValue_bounds (h _ (List.getLast_mem hne))).1
  rw [← List.dropLast_append_getLast hne, number_concat]
  omega

/-- Letters are read in full, or found to be out of range at some letter. -/
theorem readLetters_eq (h : ∀ c ∈ cs, c.isAlpha = true) :
    readLetters whole 0 cs =
      if number cs ≤ Address.maxNumber then .ok (number cs) else .error (.columnOutOfRange whole) := by
  induction cs using List.reverseRecOn with
  | nil => rw [readLetters, number_nil, if_pos (Nat.zero_le _)]
  | append_singleton cs c ih =>
    have hc : c.isAlpha = true := h c (by simp)
    rw [readLetters_append, ih fun d hd => h d (List.mem_append_left _ hd), number_concat]
    by_cases hle : number cs ≤ Address.maxNumber
    · rw [if_pos hle]
      show readLetters whole (number cs) [c] = _
      rw [readLetters, readLetters, hc, Bool.not_true, if_neg Bool.false_ne_true]
      by_cases hlt : Address.maxNumber < 26 * number cs + letterValue c
      · rw [if_pos hlt, if_neg (Nat.not_le.2 hlt)]
      · rw [if_neg hlt, if_pos (Nat.not_lt.1 hlt)]
    · rw [if_neg hle, if_neg (by omega)]
      rfl

theorem isAlpha_of_readLetters {n m : Nat} (h : readLetters whole n cs = .ok m) :
    ∀ c ∈ cs, c.isAlpha = true := by
  induction cs generalizing n with
  | nil => simp
  | cons c cs ih =>
    rw [readLetters] at h
    split at h
    · cases h
    · rename_i hc
      split at h
      · cases h
      · intro d hd
        rcases List.mem_cons.1 hd with rfl | hd
        · simpa using hc
        · exact ih h d hd

theorem numberLetters_number (h : ∀ c ∈ cs, c.isAlpha = true) :
    numberLetters (number cs) = cs.map Char.toUpper := by
  induction cs using List.reverseRecOn with
  | nil =>
    rw [number_nil, numberLetters]
    rfl
  | append_singleton cs c ih =>
    obtain ⟨hone, hle, hupper⟩ := letterValue_bounds (h c (by simp))
    have hdiv : (26 * number cs + letterValue c - 1) / 26 = number cs := by omega
    have hmod : (26 * number cs + letterValue c - 1) % 26 = letterValue c - 1 := by omega
    rw [number_concat, numberLetters, if_neg (by omega), hdiv, hmod, hupper,
      ih fun d hd => h d (List.mem_append_left _ hd), List.map_append, List.map_singleton]

theorem number_numberLetters (n : Nat) : number (numberLetters n) = n := by
  induction n using numberLetters.induct with
  | case1 => rw [numberLetters, if_pos rfl, number_nil]
  | case2 n hn ih =>
    have hvalue := (ofNat_letter (Nat.mod_lt (n - 1) (by decide : 0 < 26))).2
    rw [numberLetters, if_neg hn, number_concat, ih, hvalue]
    omega

/-- The column that letters name. -/
theorem ofLetters_eq {t : String} (hne : t.toList ≠ []) (h : ∀ c ∈ t.toList, c.isAlpha = true) :
    ofLetters t = if number t.toList ≤ Address.maxNumber then .ok (.ofNat (number t.toList - 1))
      else .error (.columnOutOfRange t) := by
  have hempty : t.isEmpty = false := by
    rw [String.isEmpty_eq_false_iff]
    rintro rfl
    exact hne rfl
  rw [ofLetters, hempty, readLetters_eq h]
  by_cases hle : number t.toList ≤ Address.maxNumber
  · rw [if_pos hle, if_pos hle]
    rfl
  · rw [if_neg hle, if_neg hle]
    rfl

theorem number_of_ofLetters {t : String} {col : UInt32} (h : ofLetters t = .ok col) :
    (∀ c ∈ t.toList, c.isAlpha = true) ∧ number t.toList = col.toNat + 1 ∧
      col.toNat < Address.maxNumber := by
  unfold ofLetters at h
  split at h
  · cases h
  · rename_i hempty
    cases hn : readLetters t 0 t.toList with
    | error fault =>
      rw [hn] at h
      cases h
    | ok n =>
      rw [hn] at h
      cases h
      have halpha := isAlpha_of_readLetters hn
      have hpos := number_ne_zero (by simpa using hempty) halpha
      rw [readLetters_eq halpha] at hn
      split at hn
      · cases hn
        rw [Address.toNat_ofNat_of_lt (by omega)]
        exact ⟨halpha, by omega, by omega⟩
      · cases hn

/-- A column is written with the letters that name it, in upper case. -/
theorem letters_of_ofLetters {t : String} {col : UInt32} (h : ofLetters t = .ok col) :
    col.toNat < Address.maxNumber ∧ letters col = t.toUpper := by
  obtain ⟨halpha, hnumber, hlt⟩ := number_of_ofLetters h
  constructor
  · exact hlt
  · rw [letters, ← hnumber, numberLetters_number halpha, ← String.toList_inj]
    simp [String.toUpper]

theorem ofLetters_letters {col : UInt32} (h : col.toNat < Address.maxNumber) :
    ofLetters (letters col) = .ok col := by
  have htext : (letters col).toList = numberLetters (col.toNat + 1) := String.toList_ofList
  have hne : (letters col).toList ≠ [] := by
    rw [htext]
    exact numberLetters_ne_nil (Nat.succ_ne_zero _)
  have halpha : ∀ c ∈ (letters col).toList, c.isAlpha = true := by
    rw [htext]
    exact fun c => isAlpha_of_mem_numberLetters
  rw [ofLetters_eq hne halpha, htext, number_numberLetters, if_pos (Nat.succ_le_of_lt h),
    Nat.add_sub_cancel, UInt32.ofNat_toNat]

end Column

end Spreadsheet
