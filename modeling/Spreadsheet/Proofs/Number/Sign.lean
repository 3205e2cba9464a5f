import Spreadsheet.Proofs.Number.RoundTrip

/-!
Numbers with a sign. What has the sign bit set is the negation of a number without it, and is written
as that number is, with a minus in front.
-/
namespace Spreadsheet.Number

open Float.Model (Format UnpackedFloat)
open Float.Model.UnpackedFloat

section Bits

variable {b b' : BitVec Format.binary64.numBits}

theorem toNat_unpackMantissa (b : BitVec Format.binary64.numBits) :
    (unpackMantissa b).toNat = b.toNat % 2 ^ 52 := by
  unfold unpackMantissa
  rw [BitVec.toNat_cast, BitVec.extractLsb_toNat, Nat.shiftRight_zero]
  rfl

theorem toNat_unpackSign (b : BitVec Format.binary64.numBits) :
    (unpackSign b).toNat = b.toNat / 2 ^ 63 := by
  have hlt : b.toNat < 2 ^ 64 := b.isLt
  unfold unpackSign
  rw [BitVec.toNat_cast, BitVec.extractLsb_toNat, Nat.shiftRight_eq_div_pow]
  show b.toNat / 2 ^ 63 % 2 ^ 1 = b.toNat / 2 ^ 63
  omega

theorem ofBitVec_unpackSign (b : BitVec Format.binary64.numBits) :
    Sign.ofBitVec (unpackSign b) = if b.toNat < Binary64.signBit then .positive else .negative := by
  have hbit : Binary64.signBit = 2 ^ 63 := rfl
  have hlt : b.toNat < 2 ^ 64 := b.isLt
  have hsign := toNat_unpackSign b
  have hzero : unpackSign b = 0#1 ↔ b.toNat < Binary64.signBit := by
    rw [← BitVec.toNat_inj, hsign]
    show b.toNat / 2 ^ 63 = 0 ↔ _
    omega
  unfold Sign.ofBitVec
  simp only [hzero]

/-- Bits that differ in their sign stand for a number and its negation. -/
theorem unpack_eq_neg (h : b'.toNat = Binary64.signBit + b.toNat) :
    unpack .binary64 b' = (unpack .binary64 b).neg := by
  have hlt : b'.toNat < 2 ^ 64 := b'.isLt
  have hbit : Binary64.signBit = 2 ^ 63 := rfl
  have he : unpackExponent b' = unpackExponent b := by
    apply BitVec.eq_of_toNat_eq
    rw [toNat_unpackExponent, toNat_unpackExponent]
    omega
  have hm : unpackMantissa b' = unpackMantissa b := by
    apply BitVec.eq_of_toNat_eq
    rw [toNat_unpackMantissa, toNat_unpackMantissa]
    omega
  have hs : Sign.ofBitVec (unpackSign b') = -Sign.ofBitVec (unpackSign b) := by
    rw [ofBitVec_unpackSign, ofBitVec_unpackSign, if_neg (by omega), if_pos (by omega)]
    rfl
  unfold unpack
  simp only [he, hm, hs]
  split
  · split <;> rfl
  · split
    · split <;> rfl
    · rfl

/-- What infinity and the magnitudes above it stand for. -/
theorem unpack_of_infinity_le (h : Binary64.infinity ≤ b.toNat % Binary64.signBit) :
    unpack .binary64 b =
      if b.toNat % Binary64.signBit = Binary64.infinity then
        .infinity (Sign.ofBitVec (unpackSign b))
      else .notANumber := by
  have h : 2047 * 2 ^ 52 ≤ b.toNat % 2 ^ 63 := h
  have he : unpackExponent b = -1#_ := by
    apply BitVec.eq_of_toNat_eq
    rw [toNat_unpackExponent]
    show _ = 2047
    omega
  have hm : unpackMantissa b = 0#_ ↔ b.toNat % Binary64.signBit = Binary64.infinity := by
    rw [← BitVec.toNat_inj, toNat_unpackMantissa]
    show b.toNat % 2 ^ 52 = 0 ↔ b.toNat % 2 ^ 63 = 2047 * 2 ^ 52
    omega
  unfold unpack
  simp only [he, hm, if_true]

/-- What is zero has no bit set but the sign bit. -/
theorem unpack_eq_zero_iff : (∃ s, unpack .binary64 b = .zero s) ↔ b.toNat % Binary64.signBit = 0 := by
  have he : unpackExponent b = 0#_ ↔ b.toNat / 2 ^ 52 % 2 ^ 11 = 0 := by
    rw [← BitVec.toNat_inj, toNat_unpackExponent]
    rfl
  have hm : unpackMantissa b = 0#_ ↔ b.toNat % 2 ^ 52 = 0 := by
    rw [← BitVec.toNat_inj, toNat_unpackMantissa]
    rfl
  have hbits : b.toNat % Binary64.signBit = 0 ↔ unpackExponent b = 0#_ ∧ unpackMantissa b = 0#_ := by
    rw [he, hm]
    show b.toNat % 2 ^ 63 = 0 ↔ _
    omega
  rw [hbits]
  unfold unpack
  dsimp only
  split
  · rename_i h
    have hne : ¬ unpackExponent b = 0#_ := by
      rw [h]
      decide
    split <;> simp [hne]
  · split
    · rename_i h
      split <;> rename_i h' <;> simp [h, h']
    · rename_i h
      simp [h]

end Bits

variable {x : Float} {m : Nat}

/-- The negation of a magnitude has the sign bit set. -/
theorem neg_ofBits (hm : m < Binary64.infinity) :
    -Float.ofBits (UInt64.ofNat m) = Float.ofBits (UInt64.ofNat (Binary64.signBit + m)) := by
  have hlt : Binary64.signBit + m < 2 ^ 64 := by
    unfold Binary64.infinity at hm
    unfold Binary64.signBit
    omega
  have hnat : (UInt64.ofNat (Binary64.signBit + m)).toBitVec.toNat = Binary64.signBit + m :=
    UInt64.toNat_ofNat_of_lt' hlt
  have hneg : unpack .binary64 (UInt64.ofNat (Binary64.signBit + m)).toBitVec =
      (unpack .binary64 (UInt64.ofNat m).toBitVec).neg := by
    apply unpack_eq_neg
    rw [toNat_ofNat_of_lt_infinity hm, hnat]
  show Float.ofModel (Float.Model.pack (unpack .binary64
    (pack .binary64 (unpack .binary64 (UInt64.ofNat m).toBitVec))).neg) = _
  rw [pack_unpack (valid_ofNat hm), ← hneg]
  rfl

/-- The bits of a number without the sign bit. -/
def magnitude (x : Float) : Nat := x.toBits.toNat % Binary64.signBit

/-- A zero compares equal to zeros of either sign and to nothing else. -/
theorem beq_zero_eq_true_iff {u : UnpackedFloat} {s : Sign} :
    u.beq (.zero s) = true ↔ ∃ s', u = .zero s' := by
  cases u with
  | zero s' => simp [UnpackedFloat.beq, UnpackedFloat.compare]
  | notANumber => simp [UnpackedFloat.beq, UnpackedFloat.compare]
  | infinity s' => cases s' <;> simp [UnpackedFloat.beq, UnpackedFloat.compare]
  | finite s' m e hm => cases s' <;> simp [UnpackedFloat.beq, UnpackedFloat.compare]

theorem beq_zero_iff : (x == 0) = true ↔ magnitude x = 0 := by
  have hbits : (0 : Float).toBits.toBitVec.toNat % Binary64.signBit = 0 := by decide
  obtain ⟨s, hs⟩ := unpack_eq_zero_iff.2 hbits
  show (unpack .binary64 x.toBits.toBitVec).beq (unpack .binary64 (0 : Float).toBits.toBitVec) = true ↔ _
  rw [hs, beq_zero_eq_true_iff, unpack_eq_zero_iff]
  rfl

theorem isFinite_eq_false_of_infinity_le (h : Binary64.infinity ≤ magnitude x) : x.isFinite = false := by
  have hunpack := unpack_of_infinity_le (b := x.toBits.toBitVec) h
  show (unpack .binary64 x.toBits.toBitVec).isFinite = false
  rw [hunpack]
  split <;> rfl

theorem magnitude_le_of_isNaN (h : x.isNaN = false) : magnitude x ≤ Binary64.infinity := by
  by_contra hlt
  have hlt := Nat.not_le.1 hlt
  have hunpack := unpack_of_infinity_le (b := x.toBits.toBitVec) (Nat.le_of_lt hlt)
  have hne : ¬ x.toBits.toBitVec.toNat % Binary64.signBit = Binary64.infinity := Nat.ne_of_gt hlt
  rw [if_neg hne] at hunpack
  have hnan : (unpack .binary64 x.toBits.toBitVec).isNaN = false := h
  rw [hunpack] at hnan
  cases hnan

theorem isFinite_eq_false_of_isNaN (h : x.isNaN = true) : x.isFinite = false := by
  have hunpack : ∀ u : UnpackedFloat, u.isNaN = true → u.isFinite = false := by
    intro u hu
    cases u <;> first | rfl | cases hu
  exact hunpack _ h

theorem text_of_isNaN_eq_false (h : x.isNaN = false) : text x =
    (if Binary64.signBit ≤ x.toBits.toNat then "-" else "") ++
      if magnitude x = Binary64.infinity then "inf" else (Decimal.shortest (magnitude x)).text := by
  rw [text, if_neg (Bool.eq_false_iff.1 h)]
  rfl

/-- The texts of what is not finite. -/
def notFinite : List String := ["inf", "-inf", "NaN"]

/-- A number with the sign bit set is a negation, and is written as one. -/
theorem exists_eq_neg (hlt : magnitude x < Binary64.infinity) (hnan : x.isNaN = false)
    (hsign : Binary64.signBit ≤ x.toBits.toNat) :
    ∃ y, Unsigned y ∧ x = -y ∧ text x = "-" ++ text y := by
  have hbits := toBits_ofBits hlt
  have hy := unsigned_ofBits hlt
  exists Float.ofBits (UInt64.ofNat (magnitude x))
  constructor
  · exact hy
  · constructor
    · have hall : Binary64.signBit + magnitude x = x.toBits.toNat := by
        have hx : x.toBits.toNat < 2 ^ 64 := x.toBits.toNat_lt
        have hbit : Binary64.signBit = 2 ^ 63 := rfl
        unfold magnitude
        rw [hbit] at hsign ⊢
        omega
      rw [neg_ofBits hlt, hall, UInt64.ofNat_toNat, ofBits_toBits]
    · rw [text_of_isNaN_eq_false hnan, if_pos hsign, if_neg (Nat.ne_of_lt hlt), text_of_unsigned hy,
        hbits]

/-- What is not finite has one of three texts. All else has no sign, or is the negation of what has
none and is written with a minus in front. -/
theorem text_cases (x : Float) :
    x.isFinite = false ∧ text x ∈ notFinite ∨ Unsigned x ∨
      ∃ y, Unsigned y ∧ x = -y ∧ text x = "-" ++ text y := by
  by_cases hnan : x.isNaN = true
  · left
    constructor
    · exact isFinite_eq_false_of_isNaN hnan
    · rw [text, if_pos hnan]
      decide
  · have hnan := Bool.eq_false_iff.2 hnan
    rcases Nat.lt_or_eq_of_le (magnitude_le_of_isNaN hnan) with hlt | heq
    · right
      by_cases hsign : Binary64.signBit ≤ x.toBits.toNat
      · right
        exact exists_eq_neg hlt hnan hsign
      · left
        have hmagnitude : magnitude x = x.toBits.toNat := Nat.mod_eq_of_lt (Nat.not_le.1 hsign)
        rwa [hmagnitude] at hlt
    · left
      constructor
      · exact isFinite_eq_false_of_infinity_le (Nat.le_of_eq heq.symm)
      · rw [text_of_isNaN_eq_false hnan, if_pos heq]
        split <;> decide

/-- The characters that a number without a sign is written with. -/
theorem isDigit_or_eq_point (h : Unsigned x) :
    ∀ c ∈ (text x).toList, c.isDigit = true ∨ c = '.' := by
  intro c hc
  rw [text_of_unsigned h, Decimal.toList_text] at hc
  exact Numeral.isDigit_or_eq_point_of_mem _ hc

end Spreadsheet.Number
