/-
**The fewest digits that read back.**

Every real number near enough to a double is read as that double.  Among the decimal numbers that
are, this module takes one with the fewest digits, and of those the nearest to the double.  For
`1, 2, …, 17` digits it looks at the two neighbours of the double on the grid of that many digits;
the first grid on which one of them reads back wins.  All arithmetic is exact.
-/

import BindScript.Decimal.Binary64

namespace BindScript.Decimal

/-- The decimal number `digits · 10 ^ exponent`. -/
structure Digits where
  /-- The significant digits as a number. -/
  digits : Nat
  /-- The power of ten of the last digit. -/
  exponent : Int
  deriving DecidableEq

/-- Which of two equally near decimal numbers is taken. -/
inductive Tie where
  | up
  | even
  deriving DecidableEq

def digitsOf (n : Nat) : List Char := Nat.toDigits 10 n

/-- Removes up to `fuel` zeros at the end of the digits. -/
def Digits.stripZeros : Nat → Digits → Digits
  | 0, d => d
  | fuel + 1, d =>
    if d.digits % 10 = 0 ∧ d.digits ≠ 0 then stripZeros fuel ⟨d.digits / 10, d.exponent + 1⟩
    else d

/-- The number of digits before the point of `mantissa · 2 ^ exponent`, negative for the zeros
after it: the `e` with `10 ^ (e - 1) ≤ mantissa · 2 ^ exponent < 10 ^ e`. The number is scaled by
`10 ^ 400` first, which makes every positive double greater than one. -/
def magnitude (mantissa : Nat) (exponent : Int) : Int :=
  let scaled := mantissa * Nat.pow 2 exponent.toNat * Nat.pow 10 400 / Nat.pow 2 (-exponent).toNat
  (digitsOf scaled).length - 400

/-- The neighbour on the grid `10 ^ unit` that reads back as `mantissa · 2 ^ exponent`, if there is
one. In quarters of the last binary place the number is `4 · mantissa`, and what reads back lies
between `4 · mantissa - below` and `4 · mantissa + 2`, ends included if the mantissa is even. -/
def onGrid? (tie : Tie) (below mantissa : Nat) (exponent unit : Int) : Option Digits :=
  let scale := Nat.pow 2 (exponent - 2).toNat * Nat.pow 10 (-unit).toNat
  let unitSize := Nat.pow 2 (2 - exponent).toNat * Nat.pow 10 unit.toNat
  let value := 4 * mantissa * scale
  let low := (4 * mantissa - below) * scale
  let high := (4 * mantissa + 2) * scale
  let floor := value / unitSize
  let ends := mantissa % 2 = 0
  let lowerFits := low < floor * unitSize ∨ (ends ∧ low = floor * unitSize)
  let upperFits := (floor + 1) * unitSize < high ∨ (ends ∧ (floor + 1) * unitSize = high)
  let lowerGap := value - floor * unitSize
  let upperGap := (floor + 1) * unitSize - value
  let takeLower :=
    lowerGap < upperGap ∨ (lowerGap = upperGap ∧ tie = .even ∧ floor % 2 = 0)
  if lowerFits ∧ (takeLower ∨ ¬ upperFits) then some ⟨floor, unit⟩
  else if upperFits then some ⟨floor + 1, unit⟩
  else none

/-- Tries the grids of `count, count + 1, …` digits, `fuel` of them. -/
def shortestFrom (tie : Tie) (below mantissa : Nat) (exponent top : Int) :
    Nat → Nat → Option Digits
  | 0, _ => none
  | fuel + 1, count =>
    match onGrid? tie below mantissa exponent (top - count) with
    | some d => some d
    | none => shortestFrom tie below mantissa exponent top fuel (count + 1)

/-- The fewest digits that read back as the positive number `mantissa · 2 ^ exponent`. The gap below
a power of two is half the gap above it, the smallest exponent apart. -/
def shortest (tie : Tie) (mantissa : Nat) (exponent : Int) : Digits :=
  let below := if mantissa = 0x10000000000000 ∧ exponent ≠ -1074 then 1 else 2
  let top := magnitude mantissa exponent
  ((shortestFrom tie below mantissa exponent top 17 1).getD ⟨mantissa, 0⟩).stripZeros 20

end BindScript.Decimal
