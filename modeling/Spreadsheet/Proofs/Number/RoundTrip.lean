import Spreadsheet.Number.Text
import Spreadsheet.Proofs.Number.Bits
import Spreadsheet.Proofs.Number.Nearest
import Spreadsheet.Proofs.Text.Pieces

/-! Numbers written out and read again. -/
namespace Spreadsheet

/-- A fraction after its point; no digits stand without a point. -/
def pointed : List Char → List Char
  | [] => []
  | c :: cs => '.' :: c :: cs

/-- The digits of a number before and after its point. -/
structure Numeral where
  whole : List Char
  fraction : List Char
  whole_ne_nil : whole ≠ []
  isDigit_whole : ∀ c ∈ whole, c.isDigit = true
  isDigit_fraction : ∀ c ∈ fraction, c.isDigit = true

namespace Numeral

def chars (n : Numeral) : List Char := n.whole ++ pointed n.fraction

theorem stops_pointed (n : Numeral) (rest : List Char) (h : Text.Stops Char.isDigit rest) :
    Text.Stops Char.isDigit (pointed n.fraction ++ rest) := by
  cases hf : n.fraction with
  | nil => exact h
  | cons c cs =>
    intro d hd
    obtain rfl : '.' = d := by simpa [pointed] using hd
    rfl

theorem chars_eq_cons (n : Numeral) : ∃ c cs, n.chars = c :: cs ∧ c.isDigit = true := by
  unfold chars
  cases hw : n.whole with
  | nil => exact absurd hw n.whole_ne_nil
  | cons c cs => exact ⟨c, _, rfl, n.isDigit_whole c (hw ▸ List.mem_cons_self)⟩

theorem isDigit_or_eq_point_of_mem (n : Numeral) {c : Char} (h : c ∈ n.chars) :
    c.isDigit = true ∨ c = '.' := by
  rcases List.mem_append.1 h with h | h
  · exact .inl (n.isDigit_whole c h)
  · cases hf : n.fraction with
    | nil =>
      rw [hf] at h
      cases h
    | cons d ds =>
      rw [hf] at h
      rcases List.mem_cons.1 h with rfl | h
      · exact .inr rfl
      · exact .inl (n.isDigit_fraction c (hf ▸ h))

end Numeral

namespace Number

theorem splitSign_of_isDigit {c : Char} {cs : List Char} (h : c.isDigit = true) :
    splitSign (c :: cs) = (false, c :: cs) := by
  unfold splitSign
  split
  · rename_i hc
    cases hc
    cases h
  · rename_i hc
    cases hc
    cases h
  · rfl

theorem read?_chars (n : Numeral) : read? (String.ofList n.chars) =
    ofDigits? false (n.whole ++ n.fraction) (-n.fraction.length) := by
  have hstop : Text.Stops Char.isDigit (pointed n.fraction) := by
    have h := n.stops_pointed [] (by simp [Text.Stops])
    rwa [List.append_nil] at h
  have htake : n.chars.takeWhile Char.isDigit = n.whole :=
    Text.takeWhile_append_of_stops n.isDigit_whole hstop
  have hdrop : n.chars.dropWhile Char.isDigit = pointed n.fraction :=
    Text.dropWhile_append_of_stops n.isDigit_whole hstop
  have hsign : splitSign n.chars = (false, n.chars) := by
    obtain ⟨c, cs, hc, hd⟩ := n.chars_eq_cons
    rw [hc, splitSign_of_isDigit hd]
  have hne : n.whole.isEmpty = false := by
    rw [List.isEmpty_eq_false_iff]
    exact n.whole_ne_nil
  unfold read?
  simp only [String.toList_ofList, hsign, htake, hdrop]
  cases hf : n.fraction with
  | nil => simp [pointed, hne, exponent?]
  | cons c cs =>
    have hd : ∀ x ∈ c :: cs, x.isDigit = true := hf ▸ n.isDigit_fraction
    simp only [pointed, List.takeWhile_eq_self_iff.2 hd, List.dropWhile_eq_nil_iff.2 hd]
    simp [hne, exponent?]

/-- The digits of a fraction with that many places are rounded to the nearest magnitude. -/
theorem ofDigits?_neg {digits : List Char} {d : Decimal} (hlen : d.places ≤ digits.length)
    (hdigits : Nat.ofDigitChars 10 digits 0 = d.digits) :
    ofDigits? false digits (-d.places) =
      if Binary64.infinity ≤ d.nearest then none
      else some (Float.ofBits (UInt64.ofNat d.nearest)) := by
  have hbits : (if d.digits = 0 then 0
      else if 400 < -(d.places : Int) then Binary64.infinity
      else if -(d.places : Int) + digits.length < -400 then 0
      else Binary64.nearest (d.digits * Decimal.tens (-(d.places : Int)).toNat)
        (Decimal.tens (- -(d.places : Int)).toNat)) = d.nearest := by
    unfold Decimal.nearest
    by_cases h0 : d.digits = 0
    · rw [if_pos h0, h0, Binary64.nearest_zero]
    · have hnum : (-(d.places : Int)).toNat = 0 := by omega
      have hden : (- -(d.places : Int)).toNat = d.places := by omega
      have htens : Decimal.tens 0 = 1 := rfl
      rw [if_neg h0, if_neg (by omega), if_neg (by omega), hnum, hden, htens, Nat.mul_one]
  unfold ofDigits?
  simp only [hdigits, hbits]
  rfl

end Number

namespace Decimal

/-- The digits that a decimal is written with. -/
def numeral (d : Decimal) : Numeral where
  whole := Nat.toDigits 10 (d.digits / tens d.places)
  fraction :=
    if d.places = 0 then []
    else (Nat.toDigits 10 (d.digits % tens d.places)).leftpad d.places '0'
  whole_ne_nil := Nat.toDigits_ne_nil
  isDigit_whole c hc := Nat.isDigit_of_mem_toDigits (by decide) (by decide) hc
  isDigit_fraction := by
    intro c hc
    split at hc
    · cases hc
    · rcases List.mem_append.1 hc with hc | hc
      · rw [List.eq_of_mem_replicate hc]
        rfl
      · exact Nat.isDigit_of_mem_toDigits (by decide) (by decide) hc

theorem length_fraction (d : Decimal) : d.numeral.fraction.length = d.places := by
  unfold numeral
  dsimp only
  split
  · rename_i h
    rw [h]
    rfl
  · rename_i h
    have hlt : d.digits % tens d.places < tens d.places := Nat.mod_lt _ (tens_pos d.places)
    have hlen := (Nat.length_toDigits_le_iff (by decide) (Nat.pos_of_ne_zero h)).2 hlt
    rw [List.length_leftpad]
    omega

theorem ofDigitChars_numeral (d : Decimal) :
    Nat.ofDigitChars 10 (d.numeral.whole ++ d.numeral.fraction) 0 = d.digits := by
  have hfraction : Nat.ofDigitChars 10 d.numeral.fraction 0 = d.digits % tens d.places := by
    unfold numeral
    dsimp only
    split
    · rename_i h
      have htens : tens 0 = 1 := rfl
      rw [h, htens, Nat.mod_one]
      rfl
    · rw [List.leftpad, Nat.ofDigitChars_append, Nat.ofDigitChars_replicate_zero, Nat.mul_zero,
        Nat.ofDigitChars_ten_toDigits]
  have hwhole : Nat.ofDigitChars 10 d.numeral.whole 0 = d.digits / tens d.places :=
    Nat.ofDigitChars_ten_toDigits
  rw [Nat.ofDigitChars_append, Nat.ofDigitChars_eq_ofDigitChars_zero, length_fraction, hfraction,
    hwhole]
  exact Nat.div_add_mod _ _

theorem toList_text (d : Decimal) : d.text.toList = d.numeral.chars := by
  have hlen := length_fraction d
  unfold text Numeral.chars
  by_cases h : d.places = 0
  · rw [h] at hlen
    rw [if_pos h, List.eq_nil_of_length_eq_zero hlen]
    have htens : tens 0 = 1 := rfl
    simp [numeral, pointed, h, htens]
  · have hpointed : pointed d.numeral.fraction = '.' :: d.numeral.fraction := by
      cases hf : d.numeral.fraction with
      | nil =>
        rw [hf] at hlen
        exact absurd hlen.symm h
      | cons c cs => rfl
    rw [if_neg h, hpointed]
    simp [numeral, h]

/-- The number that a decimal is read back as. -/
theorem read?_text (d : Decimal) : Number.read? d.text =
    if Binary64.infinity ≤ d.nearest then none
    else some (Float.ofBits (UInt64.ofNat d.nearest)) := by
  have htext : d.text = String.ofList d.numeral.chars := by
    rw [← toList_text, String.ofList_toList]
  have hlen : d.places ≤ (d.numeral.whole ++ d.numeral.fraction).length := by
    rw [List.length_append, length_fraction]
    omega
  rw [htext, Number.read?_chars, length_fraction,
    Number.ofDigits?_neg hlen (ofDigitChars_numeral d)]

end Decimal

namespace Number

theorem text_of_unsigned {x : Float} (h : Unsigned x) :
    text x = (Decimal.shortest x.toBits.toNat).text := by
  have hlt : x.toBits.toNat < Binary64.infinity := h
  have hsign : ¬ Binary64.signBit ≤ x.toBits.toNat := by
    unfold Binary64.infinity at hlt
    unfold Binary64.signBit
    omega
  have hmod : x.toBits.toNat % Binary64.signBit = x.toBits.toNat :=
    Nat.mod_eq_of_lt (Nat.not_le.1 hsign)
  have hfinite : x.toBits.toNat ≠ Binary64.infinity := Nat.ne_of_lt hlt
  unfold text
  simp only [h.isNaN, hmod, if_neg hsign, if_neg hfinite, String.empty_append]
  rfl

/-- A number without a sign is read back as it was. -/
theorem read?_text {x : Float} (h : Unsigned x) : read? (text x) = some x := by
  have hlt : ¬ Binary64.infinity ≤ x.toBits.toNat := Nat.not_le.2 h
  rw [text_of_unsigned h, Decimal.read?_text, Decimal.nearest_shortest, if_neg hlt]
  rw [UInt64.ofNat_toNat, ofBits_toBits]

theorem unsigned_of_read? {n : Numeral} {x : Float} (h : read? (String.ofList n.chars) = some x) :
    Unsigned x := by
  have hlen : n.fraction.length ≤ (n.whole ++ n.fraction).length := by
    rw [List.length_append]
    omega
  rw [read?_chars, ofDigits?_neg (d := ⟨_, n.fraction.length⟩) hlen rfl] at h
  split at h
  · cases h
  · rename_i hlt
    cases h
    exact unsigned_ofBits (Nat.not_le.1 hlt)

end Number

end Spreadsheet
