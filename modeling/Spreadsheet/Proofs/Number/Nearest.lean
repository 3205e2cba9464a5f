import Mathlib
import Spreadsheet.Number.Decimal

/-! Rounding to the nearest magnitude depends on the value of a fraction only, and the shortest
decimal of a magnitude rounds to it. -/
namespace Spreadsheet

namespace Binary64

theorem roundEven_mul_right {num den k : Nat} (hk : 0 < k) :
    roundEven (num * k) (den * k) = roundEven num den := by
  unfold roundEven
  simp only [Nat.mul_div_mul_right _ _ hk, Nat.mul_mod_mul_right]
  have hlt : ∀ a b : Nat, 2 * (a * k) < b * k ↔ 2 * a < b := by
    intro a b
    rw [← Nat.mul_assoc, Nat.mul_lt_mul_right hk]
  have hgt : ∀ a b : Nat, b * k < 2 * (a * k) ↔ b < 2 * a := by
    intro a b
    rw [← Nat.mul_assoc, Nat.mul_lt_mul_right hk]
  simp only [hlt, hgt]

theorem roundEven_mul_self {q den : Nat} (hd : 0 < den) : roundEven (q * den) den = q := by
  unfold roundEven
  have hq : q * den / den = q := Nat.mul_div_cancel q hd
  have hr : q * den % den = 0 := Nat.mul_mod_left q den
  simp only [hq, hr]
  rw [if_pos (by omega)]

theorem shiftLeft_mul (n m k : Nat) : (n * m) <<< k = n <<< k * m := by
  rw [Nat.shiftLeft_eq, Nat.shiftLeft_eq, Nat.mul_right_comm]

theorem shiftLeft_div_one_shiftLeft (n k : Nat) : n <<< k / 1 <<< k = n := by
  rw [Nat.shiftLeft_eq, Nat.shiftLeft_eq, Nat.one_mul, Nat.mul_div_cancel n (Nat.two_pow_pos k)]

/-- Equal fractions round alike. -/
theorem nearest_mul_right {num den k : Nat} (hk : 0 < k) :
    nearest (num * k) (den * k) = nearest num den := by
  unfold nearest
  simp only [shiftLeft_mul, Nat.mul_div_mul_right _ _ hk, roundEven_mul_right hk]

theorem nearest_zero (den : Nat) : nearest 0 den = 0 := by
  have hlog : (0 : Nat).log2 - 52 = 0 := rfl
  unfold nearest
  simp only [Nat.zero_shiftLeft, Nat.zero_div, hlog, Nat.zero_add]
  unfold roundEven
  simp

theorem significand_eq (b : Nat) :
    significand b = if b < 2 ^ 52 then b else 2 ^ 52 + b % 2 ^ 52 := rfl

theorem scale_eq (b : Nat) : scale b = b / 2 ^ 52 - 1 := by
  unfold scale
  rw [Nat.shiftRight_eq_div_pow]

theorem significand_lt (b : Nat) : significand b < 2 ^ 53 := by
  rw [significand_eq]
  split <;> omega

/-- A magnitude has its 53 bits, unless it is below the normal magnitudes. -/
theorem log2_significand_sub (b : Nat) : (significand b <<< scale b).log2 - 52 = scale b := by
  rw [Nat.shiftLeft_eq]
  by_cases hb : b < 2 ^ 52
  · have hs : scale b = 0 := by
      rw [scale_eq]
      omega
    have hm : significand b = b := if_pos hb
    rw [hs, hm, Nat.pow_zero, Nat.mul_one]
    by_cases h0 : b = 0
    · subst h0
      rfl
    · have := (Nat.log2_lt h0).2 hb
      omega
  · have hm : significand b = 2 ^ 52 + b % 2 ^ 52 := if_neg hb
    have hpos : significand b ≠ 0 := by omega
    have hne : significand b * 2 ^ scale b ≠ 0 :=
      Nat.mul_ne_zero hpos (Nat.ne_of_gt (Nat.two_pow_pos _))
    have hlo : 52 + scale b ≤ (significand b * 2 ^ scale b).log2 := by
      rw [Nat.le_log2 hne, Nat.pow_add]
      exact Nat.mul_le_mul_right _ (by omega)
    have hhi : (significand b * 2 ^ scale b).log2 < 53 + scale b := by
      rw [Nat.log2_lt hne, Nat.pow_add]
      exact Nat.mul_lt_mul_of_pos_right (significand_lt b) (Nat.two_pow_pos _)
    omega

theorem roundEven_shiftLeft (n s k : Nat) :
    roundEven ((n <<< s) <<< k) ((1 <<< k) <<< s) = n := by
  have hnum : (n <<< s) <<< k = n * (1 <<< k) <<< s := by
    simp only [Nat.shiftLeft_eq, Nat.one_mul]
    rw [Nat.mul_assoc, Nat.mul_comm (2 ^ s)]
  have hpos : 0 < (1 <<< k) <<< s := by
    rw [Nat.shiftLeft_eq, Nat.shiftLeft_eq, Nat.one_mul]
    exact Nat.mul_pos (Nat.two_pow_pos k) (Nat.two_pow_pos s)
  rw [hnum, roundEven_mul_self hpos]

/-- A magnitude is the nearest one to itself. -/
theorem nearest_significand (b : Nat) :
    nearest (significand b <<< scale b) (1 <<< 1074) = b := by
  unfold nearest
  simp only [shiftLeft_div_one_shiftLeft, log2_significand_sub, roundEven_shiftLeft]
  rw [Nat.shiftLeft_eq, scale_eq, significand_eq]
  split <;> omega

end Binary64

namespace Decimal

open Binary64

theorem tens_pos (n : Nat) : 0 < tens n := Nat.pow_pos (by decide)

theorem tens_succ (n : Nat) : tens (n + 1) = tens n * 10 := rfl

theorem nearest_dropZeros (d : Decimal) : (dropZeros d.digits d.places).nearest = d.nearest := by
  obtain ⟨digits, places⟩ := d
  induction places generalizing digits with
  | zero => rfl
  | succ places ih =>
    rw [dropZeros]
    split
    · rename_i h
      have hd : digits / 10 * 10 = digits := Nat.div_mul_cancel (Nat.dvd_of_mod_eq_zero h)
      rw [ih]
      unfold Decimal.nearest
      rw [← nearest_mul_right (by decide : 0 < 10), hd, tens_succ]
    · rfl

theorem nearest_of_withDigits? {b num den n : Nat} {order : Int} {d : Decimal}
    (h : withDigits? b num den order n = some d) : d.nearest = b := by
  unfold withDigits? at h
  dsimp only at h
  split at h
  · rename_i hbelow
    split at h
    · rename_i habove
      cases h
      exact habove.1
    · cases h
      exact hbelow
  · split at h
    · rename_i habove
      cases h
      exact habove
    · cases h

/-- The nearest magnitude to a binary fraction that is written as a decimal one. -/
theorem nearest_mul_tens (n k : Nat) :
    (⟨(n * tens k) >>> k, k⟩ : Decimal).nearest = Binary64.nearest n (1 <<< k) := by
  have htens : tens k = 2 ^ k * 5 ^ k := Nat.mul_pow 2 5 k
  have hdigits : (n * tens k) >>> k = n * 5 ^ k := by
    rw [htens, Nat.mul_left_comm, Nat.shiftRight_eq_div_pow,
      Nat.mul_div_cancel_left _ (Nat.two_pow_pos k)]
  have hplaces : tens k = 1 <<< k * 5 ^ k := by
    rw [Nat.shiftLeft_eq, Nat.one_mul, htens]
  unfold Decimal.nearest
  rw [hdigits, hplaces]
  exact nearest_mul_right (Nat.pow_pos (by decide))

theorem nearest_exact (b : Nat) : (exact b).nearest = b := by
  rw [exact, nearest_mul_tens, numerator, nearest_significand]

theorem nearest_getD_exact (b num den : Nat) (order : Int) (l : List Nat) :
    ((l.findSome? (withDigits? b num den order)).getD (exact b)).nearest = b := by
  cases h : l.findSome? (withDigits? b num den order) with
  | none => exact nearest_exact b
  | some d =>
    obtain ⟨n, -, hn⟩ := List.exists_of_findSome?_eq_some h
    exact nearest_of_withDigits? hn

/-- The shortest decimal of a magnitude identifies it. -/
theorem nearest_shortest (b : Nat) : (shortest b).nearest = b := by
  unfold shortest
  split
  · rename_i h
    subst h
    exact nearest_zero _
  · dsimp only
    rw [nearest_dropZeros, nearest_getD_exact]

end Decimal

end Spreadsheet
