/-
**Reading numbers.**

Readers of whole texts: a natural number is a non-empty run of ASCII digits, an integer may have a
sign, a floating-point number may have a sign, a point with digits on at least one side of it and
an exponent, or be the word for an infinity or for what is no number, in any case of letters.
-/

import BindScript.Decimal.Shortest
import BindScript.Text.Search

namespace BindScript.Decimal

/-- The number that a run of ASCII digits denotes. -/
def natOfDigits (digits : List Char) : Nat :=
  digits.foldl (fun n c => 10 * n + (c.toNat - 48)) 0

/-- Takes a sign off the front; `true` is a minus sign. -/
def takeSign : List Char → Bool × List Char
  | '-' :: cs => (true, cs)
  | '+' :: cs => (false, cs)
  | cs => (false, cs)

def readNat? (cs : List Char) : Option Nat :=
  if cs.isEmpty || !cs.all Char.isDigit then none else some (natOfDigits cs)

/-- Digits with an optional sign. -/
def readInt? (cs : List Char) : Option Int :=
  let (negative, digits) := takeSign cs
  (readNat? digits).map fun n => if negative then -(n : Int) else n

/-- An integer as a 64-bit word, if it fits. -/
def toInt64? (n : Int) : Option Int64 :=
  if -0x8000000000000000 ≤ n ∧ n < 0x8000000000000000 then some (Int64.ofInt n) else none

/-- Digits with an optional sign that denote a 64-bit word. -/
def readInt64? (cs : List Char) : Option Int64 := (readInt? cs).bind toInt64?

/-- Digits with an optional plus sign that denote a position, a number below `2 ^ 64`. -/
def readIndex? (cs : List Char) : Option Nat :=
  let digits := match cs with
    | '+' :: rest => rest
    | _ => cs
  (readNat? digits).filter (· < 0x10000000000000000)

/-- The double nearest to `digits · 10 ^ exponent`. Magnitudes far outside the range of doubles are
settled by their number of digits. -/
def floatOfDigits (digits : Nat) (exponent : Int) : Float :=
  let top : Int := (digitsOf digits).length + exponent
  if digits = 0 ∨ top < -330 then 0.0
  else if 310 < top then 1.0 / 0.0
  else Float.ofScientific digits (exponent < 0) exponent.natAbs

/-- An exponent mark with its digits, or nothing. -/
def readExponent? : List Char → Option Int
  | [] => some 0
  | c :: cs => if c = 'e' ∨ c = 'E' then readInt? cs else none

/-- Digits with an optional point and an optional exponent. -/
def readMagnitude? (cs : List Char) : Option Float :=
  let whole := cs.takeWhile Char.isDigit
  let rest := cs.dropWhile Char.isDigit
  let (part, rest) := match rest with
    | '.' :: after => (after.takeWhile Char.isDigit, after.dropWhile Char.isDigit)
    | _ => ([], rest)
  if whole.isEmpty && part.isEmpty then none
  else (readExponent? rest).map fun e =>
    floatOfDigits (natOfDigits (whole ++ part)) (e - part.length)

/-- The words for an infinity and for what is no number. -/
def readSpecial? (cs : List Char) : Option Float :=
  if Text.eqIgnoringCase cs "inf".toList || Text.eqIgnoringCase cs "infinity".toList then
    some (1.0 / 0.0)
  else if Text.eqIgnoringCase cs "nan".toList then some (0.0 / 0.0)
  else none

/-- A floating-point number with an optional sign. -/
def readFloat? (cs : List Char) : Option Float :=
  let (negative, rest) := takeSign cs
  ((readMagnitude? rest).or (readSpecial? rest)).map fun x => if negative then -x else x

end BindScript.Decimal
