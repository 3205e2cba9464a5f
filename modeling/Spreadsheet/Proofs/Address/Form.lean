import Spreadsheet.Proofs.Address.Column

/-!
The texts that name an address: column letters and the digits of a row number, both within the limit.
An address is written as the shortest such text, and read back from it.
-/
namespace Spreadsheet

namespace Address

/-- Whether row and column are within the numbers that a text may name. -/
def Nameable (a : Address) : Prop := a.row.toNat < maxNumber ∧ a.col.toNat < maxNumber

instance (a : Address) : Decidable a.Nameable := inferInstanceAs (Decidable (_ ∧ _))

variable {c : Char} {digits : List Char}

/-- The number of a decimal digit. -/
theorem digitChar_toNat_sub (h : c.isDigit = true) :
    c.toNat - '0'.toNat < 10 ∧ Nat.digitChar (c.toNat - '0'.toNat) = c := by
  have hc := Text.isDigit_iff.1 h
  have hascii : c.toNat < 128 := by omega
  revert h
  refine Text.forall_toNat_lt hascii ?_
  decide

/-- Leading zeros do not count. -/
theorem ofDigitChars_dropWhile (digits : List Char) :
    Nat.ofDigitChars 10 (digits.dropWhile (· == '0')) 0 = Nat.ofDigitChars 10 digits 0 := by
  induction digits with
  | nil => rfl
  | cons c digits ih =>
    by_cases hc : c = '0'
    · subst hc
      rw [List.dropWhile_cons_of_pos rfl, ih]
      rfl
    · rw [List.dropWhile_cons_of_neg (by simpa using hc)]

/-- Digits that go on with a number are written as they are. -/
theorem toDigits_ofDigitChars (h : ∀ c ∈ digits, c.isDigit = true) {n : Nat} (hn : 0 < n) :
    Nat.toDigits 10 (Nat.ofDigitChars 10 digits n) = Nat.toDigits 10 n ++ digits := by
  induction digits generalizing n with
  | nil => rw [Nat.ofDigitChars_nil, List.append_nil]
  | cons c digits ih =>
    obtain ⟨hlt, hchar⟩ := digitChar_toNat_sub (h c List.mem_cons_self)
    have hstep : Nat.ofDigitChars 10 (c :: digits) n =
        Nat.ofDigitChars 10 digits (10 * n + (c.toNat - '0'.toNat)) := rfl
    have happend := Nat.toDigits_append_toDigits (b := 10) (by decide) hn hlt
    rw [Nat.toDigits_of_lt_base hlt, hchar] at happend
    rw [hstep, ih (fun d hd => h d (List.mem_cons_of_mem c hd)) (by omega), ← happend,
      List.append_assoc, List.singleton_append]

/-- A number is written with its digits, without the zeros in front. -/
theorem toDigits_ofDigitChars_zero (h : ∀ c ∈ digits, c.isDigit = true)
    (hne : Nat.ofDigitChars 10 digits 0 ≠ 0) :
    Nat.toDigits 10 (Nat.ofDigitChars 10 digits 0) = digits.dropWhile (· == '0') := by
  have hmem : ∀ c ∈ digits.dropWhile (· == '0'), c.isDigit = true := by
    intro c hc
    exact h c ((List.dropWhile_sublist _).subset hc)
  have hhead := List.head?_dropWhile_not (· == '0') digits
  rw [← ofDigitChars_dropWhile] at hne ⊢
  cases hd : digits.dropWhile (· == '0') with
  | nil =>
    rw [hd] at hne
    exact absurd rfl hne
  | cons c ds =>
    rw [hd] at hmem hhead
    obtain ⟨hlt, hchar⟩ := digitChar_toNat_sub (hmem c List.mem_cons_self)
    have hstep : Nat.ofDigitChars 10 (c :: ds) 0 = Nat.ofDigitChars 10 ds (c.toNat - '0'.toNat) := by
      rw [Nat.ofDigitChars, List.foldl_cons, Nat.mul_zero, Nat.zero_add]
      rfl
    have hpos : 0 < c.toNat - '0'.toNat := by
      apply Nat.pos_of_ne_zero
      intro hzero
      rw [hzero] at hchar
      rw [← hchar] at hhead
      cases hhead
    rw [hstep, toDigits_ofDigitChars (fun d hd => hmem d (List.mem_cons_of_mem c hd)) hpos,
      Nat.toDigits_of_lt_base hlt, hchar, List.singleton_append]

theorem rowOfDigits_eq_ok_iff {row : UInt32} : rowOfDigits digits = .ok row ↔
    Nat.ofDigitChars 10 digits 0 = row.toNat + 1 ∧ row.toNat < maxNumber := by
  unfold rowOfDigits
  dsimp only
  split
  · constructor
    · intro h
      cases h
    · omega
  · split
    · constructor
      · intro h
        cases h
      · omega
    · constructor
      · intro h
        cases h
        rw [toNat_ofNat_of_lt (by omega)]
        omega
      · rintro ⟨h, -⟩
        rw [h, Nat.add_sub_cancel, UInt32.ofNat_toNat]

/-- Whether a text is letters followed by digits. -/
structure Form (text : String) (letters digits : List Char) : Prop where
  toList_eq : text.toList = letters ++ digits
  letters_ne_nil : letters ≠ []
  digits_ne_nil : digits ≠ []
  isAlpha_of_mem : ∀ c ∈ letters, c.isAlpha = true
  isDigit_of_mem : ∀ c ∈ digits, c.isDigit = true

variable {s : String} {a : Address} {letters : List Char}

/-- Letters and digits are read one after the other. -/
theorem Form.parse_eq (h : Form (Text.trim s) letters digits) :
    parse s = do
      let col ← Column.ofLetters (String.ofList letters)
      let row ← rowOfDigits digits
      return { row, col } := by
  have hstops : Text.Stops Char.isAlpha digits := by
    intro c hc
    exact Text.isAlpha_eq_false_of_isDigit (h.isDigit_of_mem c (List.mem_of_mem_head? hc))
  have htake := Text.takeWhile_append_of_stops h.isAlpha_of_mem hstops
  have hdrop := Text.dropWhile_append_of_stops h.isAlpha_of_mem hstops
  have hempty : (Text.trim s).isEmpty = false := by
    rw [String.isEmpty_eq_false_iff, ne_eq, ← String.toList_inj, h.toList_eq]
    exact List.append_ne_nil_of_left_ne_nil h.letters_ne_nil digits
  have hletters : letters.isEmpty = false := List.isEmpty_eq_false_iff.2 h.letters_ne_nil
  have hdigits : digits.isEmpty = false := List.isEmpty_eq_false_iff.2 h.digits_ne_nil
  have hall : digits.all Char.isDigit = true := List.all_eq_true.2 h.isDigit_of_mem
  unfold parse
  simp only [h.toList_eq, htake, hdrop, hempty, hletters, hdigits, hall]
  rfl

/-- No other text names an address. -/
theorem exists_form_of_parse (h : parse s = .ok a) :
    ∃ letters digits, Form (Text.trim s) letters digits := by
  unfold parse at h
  dsimp only at h
  split at h
  · cases h
  · split at h
    · cases h
    · rename_i hletters
      split at h
      · cases h
      · rename_i hdigits
        split at h
        · cases h
        · rename_i hall
          refine ⟨(Text.trim s).toList.takeWhile Char.isAlpha,
            (Text.trim s).toList.dropWhile Char.isAlpha, ?_⟩
          constructor
          · exact List.takeWhile_append_dropWhile.symm
          · exact fun hnil => hletters (List.isEmpty_iff.2 hnil)
          · exact fun hnil => hdigits (List.isEmpty_iff.2 hnil)
          · exact List.all_eq_true.1 List.all_takeWhile
          · simpa using hall

theorem Form.ofLetters_eq (h : Form (Text.trim s) letters digits) :
    Column.ofLetters (String.ofList letters) =
      if Column.number letters ≤ maxNumber then .ok (.ofNat (Column.number letters - 1))
      else .error (.columnOutOfRange (String.ofList letters)) := by
  have hl := Column.ofLetters_eq (t := String.ofList letters)
  rw [String.toList_ofList] at hl
  exact hl h.letters_ne_nil h.isAlpha_of_mem

theorem Form.parse_eq_ok_iff (h : Form (Text.trim s) letters digits) :
    parse s = .ok a ↔ Column.number letters = a.col.toNat + 1 ∧
      Nat.ofDigitChars 10 digits 0 = a.row.toNat + 1 ∧ a.Nameable := by
  constructor
  · intro ha
    rw [h.parse_eq] at ha
    cases hl : Column.ofLetters (String.ofList letters) with
    | error fault =>
      rw [hl] at ha
      cases ha
    | ok col =>
      cases hr : rowOfDigits digits with
      | error fault =>
        rw [hl, hr] at ha
        cases ha
      | ok row =>
        rw [hl, hr] at ha
        cases ha
        obtain ⟨-, hnumber, hcol⟩ := Column.number_of_ofLetters hl
        obtain ⟨hdigits, hrow⟩ := rowOfDigits_eq_ok_iff.1 hr
        rw [String.toList_ofList] at hnumber
        exact ⟨hnumber, hdigits, hrow, hcol⟩
  · rintro ⟨hcol, hrow, hname⟩
    have hle : a.col.toNat + 1 ≤ maxNumber := hname.2
    rw [h.parse_eq, h.ofLetters_eq, hcol, if_pos hle, rowOfDigits_eq_ok_iff.2 ⟨hrow, hname.1⟩,
      Nat.add_sub_cancel, UInt32.ofNat_toNat]
    rfl

/-- A text names no address beyond the greatest numbers. -/
theorem nameable_of_parse (h : parse s = .ok a) : a.Nameable := by
  obtain ⟨letters, digits, hform⟩ := exists_form_of_parse h
  exact (hform.parse_eq_ok_iff.1 h).2.2

/-- A text names an address if its two numbers are within the limit. -/
theorem exists_parse_eq_ok_iff : (∃ a, parse s = .ok a) ↔
    ∃ letters digits, Form (Text.trim s) letters digits ∧
      Column.number letters ∈ Set.Icc 1 maxNumber ∧
      Nat.ofDigitChars 10 digits 0 ∈ Set.Icc 1 maxNumber := by
  constructor
  · rintro ⟨a, ha⟩
    obtain ⟨letters, digits, h⟩ := exists_form_of_parse ha
    obtain ⟨hcol, hrow, hname⟩ := h.parse_eq_ok_iff.1 ha
    refine ⟨letters, digits, h, ?_, ?_⟩
    · rw [hcol]
      exact ⟨Nat.le_add_left 1 _, hname.2⟩
    · rw [hrow]
      exact ⟨Nat.le_add_left 1 _, hname.1⟩
  · rintro ⟨letters, digits, h, ⟨hcol, hcol'⟩, ⟨hrow, hrow'⟩⟩
    have hr := toNat_ofNat_of_lt (Nat.sub_one_lt_of_le hrow hrow')
    have hc := toNat_ofNat_of_lt (Nat.sub_one_lt_of_le hcol hcol')
    refine ⟨⟨.ofNat (Nat.ofDigitChars 10 digits 0 - 1), .ofNat (Column.number letters - 1)⟩, ?_⟩
    apply h.parse_eq_ok_iff.2
    refine ⟨?_, ?_, ?_, ?_⟩ <;> dsimp only <;> omega

theorem toList_text (a : Address) :
    a.text.toList = Column.numberLetters (a.col.toNat + 1) ++ Nat.toDigits 10 (a.row.toNat + 1) := by
  simp [text, Column.letters]

/-- An address is written with the letters that name it in upper case, and without zeros in front of
its row number. -/
theorem Form.text_eq (h : Form (Text.trim s) letters digits) (ha : parse s = .ok a) :
    a.text = String.ofList (letters.map Char.toUpper ++ digits.dropWhile (· == '0')) := by
  obtain ⟨hcol, hrow, -⟩ := h.parse_eq_ok_iff.1 ha
  have hne : Nat.ofDigitChars 10 digits 0 ≠ 0 := by omega
  rw [← String.toList_inj, toList_text, String.toList_ofList, ← hcol, ← hrow,
    Column.numberLetters_number h.isAlpha_of_mem, toDigits_ofDigitChars_zero h.isDigit_of_mem hne]

theorem form_text (a : Address) : Form (Text.trim a.text) (Column.numberLetters (a.col.toNat + 1))
    (Nat.toDigits 10 (a.row.toNat + 1)) := by
  have halpha : ∀ c ∈ Column.numberLetters (a.col.toNat + 1), c.isAlpha = true :=
    fun c => Column.isAlpha_of_mem_numberLetters
  have hdigit : ∀ c ∈ Nat.toDigits 10 (a.row.toNat + 1), c.isDigit = true :=
    fun c => Nat.isDigit_of_mem_toDigits (by decide) (by decide)
  have htrim : Text.trim a.text = a.text := by
    apply Text.trim_eq_self
    intro c hc
    rw [toList_text, List.mem_append] at hc
    rcases hc with hc | hc
    · exact Text.isBlank_eq_false_of_isAlpha (halpha c hc)
    · exact Text.isBlank_eq_false_of_isDigit (hdigit c hc)
  constructor
  · rw [htrim, toList_text]
  · exact Column.numberLetters_ne_nil (Nat.succ_ne_zero _)
  · exact Nat.toDigits_ne_nil
  · exact halpha
  · exact hdigit

/-- An address is read back as it was. -/
theorem parse_text (h : a.Nameable) : parse a.text = .ok a :=
  (form_text a).parse_eq_ok_iff.2
    ⟨Column.number_numberLetters _, Nat.ofDigitChars_ten_toDigits, h⟩

end Address

end Spreadsheet
