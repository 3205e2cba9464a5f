import Mathlib
import Spreadsheet.Number.Binary64

/-! Numbers and their bits: a number is made from its bits, and the bits of a finite magnitude stay
what they are. -/
namespace Spreadsheet.Number

open Float.Model (Format UnpackedFloat)
open Float.Model.UnpackedFloat

variable {b : BitVec Format.binary64.numBits}

theorem toBitVec_ofBitVec (s : BitVec 1) : (Sign.ofBitVec s).toBitVec = s := by
  have hs := s.isLt
  unfold Sign.ofBitVec
  split
  · rename_i h
    exact h.symm
  · rename_i h
    have hne : s.toNat ≠ 0 := fun h0 => h (BitVec.eq_of_toNat_eq h0)
    have h1 : s.toNat = 1 := by omega
    exact (BitVec.eq_of_toNat_eq h1).symm

/-- Sign, exponent and mantissa put together again. -/
theorem packComponents_unpack (b : BitVec Format.binary64.numBits) :
    packComponents .binary64 (Sign.ofBitVec (unpackSign b)) (unpackExponent b) (unpackMantissa b) =
      b := by
  unfold packComponents
  rw [toBitVec_ofBitVec]
  apply BitVec.eq_of_getLsbD_eq
  intro i hi
  unfold unpackSign unpackExponent unpackMantissa
  simp only [BitVec.getLsbD_append, BitVec.getLsbD_cast, BitVec.getLsbD_extractLsb]
  grind

theorem pack_subnormal {s : Sign} {m : BitVec 52} {e : Int} (he : e = -1074) (hm : 0 < m.toNat) :
    pack .binary64 (.finite s m.toNat e hm) = packComponents .binary64 s 0#11 m := by
  have hlog : m.toNat.log2 < 52 := (Nat.log2_lt (Nat.ne_of_gt hm)).2 m.isLt
  have hbits : Format.binary64.mantissaBits = 53 := rfl
  have hexp : (e + Format.binary64.exponentBias +
      Format.binary64.mantissaBitsWithoutImplicit).toNat = 1 := by
    rw [he]
    decide
  unfold pack
  simp only [hexp]
  rw [if_neg (by decide), if_neg (by omega), BitVec.ofNat_toNat, BitVec.setWidth_eq]

theorem pack_normal {s : Sign} {m : BitVec 52} {x : BitVec 11} {e : Int}
    (he : e = (x.toNat : Int) - 1075) (hx : x.toNat < 2047) (hm : 0 < (1#1 ++ m).toNat) :
    pack .binary64 (.finite s (1#1 ++ m).toNat e hm) = packComponents .binary64 s x m := by
  have hlt := m.isLt
  have hval : (1#1 ++ m).toNat = 2 ^ 52 + m.toNat := by
    rw [BitVec.toNat_append, ← Nat.shiftLeft_add_eq_or_of_lt hlt, Nat.shiftLeft_eq]
    rfl
  have hlo : 52 ≤ (1#1 ++ m).toNat.log2 := (Nat.le_log2 (Nat.ne_of_gt hm)).2 (by omega)
  have hhi : (1#1 ++ m).toNat.log2 < 53 := (Nat.log2_lt (Nat.ne_of_gt hm)).2 (by omega)
  have hbits : Format.binary64.mantissaBits = 53 := rfl
  have hexp : (e + Format.binary64.exponentBias +
      Format.binary64.mantissaBitsWithoutImplicit).toNat = x.toNat := by
    have hbias : (Format.binary64.exponentBias : Int) = 1023 := rfl
    have hwidth : (Format.binary64.mantissaBitsWithoutImplicit : Int) = 52 := rfl
    rw [he, hbias, hwidth]
    omega
  have hmant : BitVec.ofNat 52 (1#1 ++ m).toNat = m := by
    apply BitVec.eq_of_toNat_eq
    rw [BitVec.toNat_ofNat, hval]
    omega
  unfold pack
  simp only [hexp]
  rw [if_neg (by omega), if_pos (by omega), BitVec.ofNat_toNat, BitVec.setWidth_eq]
  exact congrArg _ hmant

/-- Packing takes back unpacking, unless the bits are a NaN other than the one in use. -/
theorem pack_unpack (hb : Format.binary64.Valid b) : pack .binary64 (unpack .binary64 b) = b := by
  have hall := packComponents_unpack b
  have hlt : (unpackExponent b).toNat < 2 ^ 11 := (unpackExponent b).isLt
  have hbias : (Format.binary64.exponentBias : Int) = 1023 := rfl
  have hwidth : (Format.binary64.mantissaBitsWithoutImplicit : Int) = 52 := rfl
  unfold unpack
  dsimp only
  split
  · rename_i he
    split
    · rename_i hm
      rw [he, hm] at hall
      exact hall
    · rename_i hm
      exact (hb.eq_packedNaN he hm).symm
  · rename_i hne
    split
    · rename_i he
      split
      · rename_i hm
        rw [he, hm] at hall
        exact hall
      · rw [he] at hall
        exact (pack_subnormal (by rw [he]; rfl) _).trans hall
    · have hx : (unpackExponent b).toNat ≠ 2047 := fun h => hne (BitVec.eq_of_toNat_eq h)
      exact (pack_normal (by rw [hbias, hwidth]; rfl) (by omega) _).trans hall

theorem ofBits_toBits (x : Float) : Float.ofBits x.toBits = x := by
  obtain ⟨⟨bits, hb⟩⟩ := x
  have h : (⟨UInt64.ofBitVec (pack .binary64 (unpack .binary64 bits.toBitVec)), by simp⟩ :
      Float.Model) = ⟨bits, hb⟩ := by
    simp only [pack_unpack hb]
  exact congrArg Float.ofModel h

/-- Whether the number is finite and has no sign. -/
def Unsigned (x : Float) : Prop := x.toBits.toNat < Binary64.infinity

theorem toNat_unpackExponent (b : BitVec Format.binary64.numBits) :
    (unpackExponent b).toNat = b.toNat / 2 ^ 52 % 2 ^ 11 := by
  unfold unpackExponent
  rw [BitVec.toNat_cast, BitVec.extractLsb_toNat, Nat.shiftRight_eq_div_pow]
  rfl

theorem unpackExponent_ne (hb : b.toNat < Binary64.infinity) : unpackExponent b ≠ -1#_ := by
  intro h
  have he := congrArg BitVec.toNat h
  have hones : (-1#_ : BitVec Format.binary64.exponentBits).toNat = 2047 := rfl
  rw [toNat_unpackExponent, hones] at he
  unfold Binary64.infinity at hb
  omega

section Finite

variable {n : Nat}

theorem toNat_ofNat_of_lt_infinity (hn : n < Binary64.infinity) :
    (UInt64.ofNat n).toBitVec.toNat = n := by
  have hlt : n < 2 ^ 64 := by
    unfold Binary64.infinity at hn
    omega
  rw [UInt64.toNat_toBitVec, UInt64.toNat_ofNat_of_lt' hlt]

/-- The bits of a finite magnitude are those of no NaN. -/
theorem valid_ofNat (hn : n < Binary64.infinity) :
    Format.binary64.Valid (UInt64.ofNat n).toBitVec := by
  have hb : (UInt64.ofNat n).toBitVec.toNat < Binary64.infinity := by
    rw [toNat_ofNat_of_lt_infinity hn]
    exact hn
  exact ⟨fun h => absurd h (unpackExponent_ne hb)⟩

theorem toBits_ofBits (hn : n < Binary64.infinity) :
    (Float.ofBits (UInt64.ofNat n)).toBits.toNat = n := by
  have hbits : (Float.ofBits (UInt64.ofNat n)).toBits =
      UInt64.ofBitVec (pack .binary64 (unpack .binary64 (UInt64.ofNat n).toBitVec)) := rfl
  rw [hbits, pack_unpack (valid_ofNat hn)]
  exact toNat_ofNat_of_lt_infinity hn

theorem unsigned_ofBits (hn : n < Binary64.infinity) :
    Unsigned (Float.ofBits (UInt64.ofNat n)) := by
  unfold Unsigned
  rw [toBits_ofBits hn]
  exact hn

end Finite

theorem Unsigned.isNaN {x : Float} (h : Unsigned x) : x.isNaN = false := by
  obtain ⟨⟨bits, hb⟩⟩ := x
  have hne : @unpackExponent .binary64 bits.toBitVec ≠ -1#_ := unpackExponent_ne h
  have hnan : (unpack .binary64 bits.toBitVec).isNaN = false := by
    unfold unpack
    dsimp only
    rw [if_neg hne]
    split
    · split <;> rfl
    · rfl
  exact hnan

end Spreadsheet.Number
