/-!
Binary64 magnitudes by their bits, and rounding a fraction to the nearest of them.

The finite magnitude with bits `b` is `significand b * 2 ^ scale b / 2 ^ 1074`, and greater bits
mean a greater magnitude.
-/
namespace Spreadsheet.Binary64

/-- The bits of infinity. Those of a finite magnitude are below. -/
def infinity : Nat := 2047 <<< 52

def signBit : Nat := 1 <<< 63

/-- The integer that a magnitude is in units of `2 ^ scale b / 2 ^ 1074`. -/
def significand (b : Nat) : Nat := if b < 1 <<< 52 then b else 1 <<< 52 + b % (1 <<< 52)

/-- The power of two in the unit of a magnitude, over the least unit. -/
def scale (b : Nat) : Nat := b >>> 52 - 1

/-- Rounds `num / den` to an integer, a half to the even neighbour. -/
def roundEven (num den : Nat) : Nat :=
  let q := num / den
  let r := num % den
  if 2 * r < den then q
  else if den < 2 * r then q + 1
  else q + q % 2

/-- The bits of the magnitude nearest to `num / den`, a half to the even neighbour. The answer is
`infinity` or more when the fraction is too great for a finite magnitude. -/
def nearest (num den : Nat) : Nat :=
  let least := num <<< 1074
  let scale := (least / den).log2 - 52
  scale <<< 52 + roundEven least (den <<< scale)

end Spreadsheet.Binary64
