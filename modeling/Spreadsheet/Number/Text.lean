import Spreadsheet.Number.Decimal

/-! Numbers as text: the shortest decimal that reads back, never with an exponent. -/
namespace Spreadsheet.Number

/-- The shortest decimal that reads back as the same number. -/
def text (x : Float) : String :=
  if x.isNaN then "NaN"
  else
    let bits := x.toBits.toNat
    let magnitude := bits % Binary64.signBit
    let sign := if Binary64.signBit ≤ bits then "-" else ""
    sign ++ if magnitude = Binary64.infinity then "inf" else (Decimal.shortest magnitude).text

/-- The text shown in a cell: as `text`, but zero never has a sign. -/
def display (x : Float) : String := if x == 0 then "0" else text x

/-- The finite number nearest to `digits * 10 ^ exponent`, if there is one. The number of digits
bounds the work for an exponent far below zero. -/
def ofDigits? (negative : Bool) (digits : List Char) (exponent : Int) : Option Float :=
  let n := Nat.ofDigitChars 10 digits 0
  let bits :=
    if n = 0 then 0
    else if 400 < exponent then Binary64.infinity
    else if exponent + digits.length < -400 then 0
    else Binary64.nearest (n * Decimal.tens exponent.toNat) (Decimal.tens (-exponent).toNat)
  if Binary64.infinity ≤ bits then none
  else some (Float.ofBits (UInt64.ofNat (if negative then Binary64.signBit + bits else bits)))

/-- Splits off a sign; `true` means minus. -/
def splitSign : List Char → Bool × List Char
  | '-' :: cs => (true, cs)
  | '+' :: cs => (false, cs)
  | cs => (false, cs)

/-- The exponent written after the digits: nothing, or `e` or `E`, a sign and digits. -/
def exponent? : List Char → Option Int
  | [] => some 0
  | c :: cs =>
    if c = 'e' ∨ c = 'E' then
      let (negative, digits) := splitSign cs
      if digits.isEmpty || !digits.all Char.isDigit then none
      else
        let n : Int := Nat.ofDigitChars 10 digits 0
        some (if negative then -n else n)
    else none

/-- Reads a decimal with an optional sign, digits on at least one side of an optional point, and
an optional exponent. There is no answer for a number that is not finite. -/
def read? (s : String) : Option Float := do
  let (negative, cs) := splitSign s.toList
  let whole := cs.takeWhile Char.isDigit
  let rest := cs.dropWhile Char.isDigit
  let (fraction, rest) := match rest with
    | '.' :: rest => (rest.takeWhile Char.isDigit, rest.dropWhile Char.isDigit)
    | _ => ([], rest)
  if whole.isEmpty && fraction.isEmpty then none
  else
    let exponent ← exponent? rest
    ofDigits? negative (whole ++ fraction) (exponent - fraction.length)

end Spreadsheet.Number
