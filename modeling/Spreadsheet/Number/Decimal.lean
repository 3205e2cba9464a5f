import Spreadsheet.Number.Binary64

/-! Decimal fractions, and the shortest one that identifies a binary64 magnitude. -/
namespace Spreadsheet

/-- The fraction `digits / 10 ^ places`. -/
structure Decimal where
  digits : Nat
  places : Nat
deriving DecidableEq, Repr

namespace Decimal

def tens (n : Nat) : Nat := Nat.pow 10 n

def nearest (d : Decimal) : Nat := Binary64.nearest d.digits (tens d.places)

/-- The fraction `digits / 10 ^ places` without zeros at the end of its places. -/
def dropZeros (digits : Nat) : Nat → Decimal
  | 0 => ⟨digits, 0⟩
  | places + 1 =>
    if digits % 10 = 0 then dropZeros (digits / 10) places else ⟨digits, places + 1⟩

def digitCount (n : Nat) : Nat := (Nat.toDigits 10 n).length

/-- The least `k` with `num / den < 10 ^ k`, for a positive fraction that is no negative power of
ten. -/
def decimalOrder (num den : Nat) : Int :=
  if den ≤ num then digitCount (num / den) else 1 - digitCount (den / num)

/-- Of the two multiples of `10 ^ (order - n)` around `num / den`, the one that rounds to the
magnitude with bits `b`; of two such the nearer, and the greater if they are equally near. -/
def withDigits? (b num den : Nat) (order : Int) (n : Nat) : Option Decimal :=
  let places := (n - order).toNat
  let step := tens (order - n).toNat
  let low := num * tens places / (den * step)
  let below : Decimal := ⟨low * step, places⟩
  let above : Decimal := ⟨(low + 1) * step, places⟩
  if below.nearest = b then
    if above.nearest = b ∧ (2 * low + 1) * den * step ≤ 2 * num * tens places then some above
    else some below
  else if above.nearest = b then some above
  else none

/-- The numerator of the magnitude with bits `b`, over `2 ^ 1074`. -/
def numerator (b : Nat) : Nat := Binary64.significand b <<< Binary64.scale b

/-- The exact value of the magnitude with bits `b`. -/
def exact (b : Nat) : Decimal := ⟨(numerator b * tens 1074) >>> 1074, 1074⟩

/-- The fraction with the fewest digits that rounds to the magnitude with bits `b`. -/
def shortest (b : Nat) : Decimal :=
  if b = 0 then ⟨0, 0⟩
  else
    let num := numerator b
    let den := 1 <<< 1074
    let order := decimalOrder num den
    let d := ((List.range' 1 17).findSome? (withDigits? b num den order)).getD (exact b)
    dropZeros d.digits d.places

/-- The digits with a point before the last `places`, and at least one digit before the point. -/
def text (d : Decimal) : String :=
  if d.places = 0 then toString d.digits
  else
    let fraction := (Nat.toDigits 10 (d.digits % tens d.places)).leftpad d.places '0'
    toString (d.digits / tens d.places) ++ "." ++ String.ofList fraction

end Decimal

end Spreadsheet
