/-
**Spellings of floating-point numbers.**

A spelling turns the fewest digits that read back into text.  What varies is kept in one record: the
range of magnitudes that are written without an exponent, whether an integer ends in `.0`, whether
a positive exponent has a sign, and which of two equally near decimal numbers is taken.  The three
spellings of the language are values of that record.
-/

import BindScript.Decimal.Shortest

namespace BindScript.Decimal

/-- The decisions that make the text of a number out of its digits. -/
structure Spelling where
  /-- Least power of ten of the first digit that is written without an exponent, if there is one. -/
  plainFrom : Option Int
  /-- First power of ten of the first digit that needs an exponent, if there is one. -/
  plainTo : Option Int
  /-- Whether an integer written without an exponent ends in `.0`. -/
  pointZero : Bool
  /-- Whether a positive exponent has a plus sign. -/
  plusSign : Bool
  /-- Which of two equally near decimal numbers is taken. -/
  tie : Tie

namespace Spelling

/-- Literals: positional from `0.0001` up to `10 ^ 16`, integers with `.0`, no plus sign. -/
def literal : Spelling := ⟨some (-4), some 16, true, false, .up⟩

/-- Text for readers: always positional, integers without a point. -/
def display : Spelling := ⟨none, none, false, false, .up⟩

/-- JSON: positional from `0.00001` up to `10 ^ 16`, integers with `.0`, a sign on every
exponent. -/
def json : Spelling := ⟨some (-5), some 16, true, true, .even⟩

/-- Whether a number whose first digit stands at the power `lead` is written without an exponent. -/
def isPlain (s : Spelling) (lead : Int) : Bool :=
  (s.plainFrom.all fun least => decide (least ≤ lead))
    && (s.plainTo.all fun limit => decide (lead < limit))

/-- Positional text of `digits · 10 ^ exponent`. -/
def plain (s : Spelling) (digits : List Char) (exponent : Int) : List Char :=
  if 0 ≤ exponent then
    digits ++ List.replicate exponent.toNat '0' ++ (if s.pointZero then ['.', '0'] else [])
  else
    let point : Int := digits.length + exponent
    if 0 < point then digits.take point.toNat ++ '.' :: digits.drop point.toNat
    else ['0', '.'] ++ List.replicate (-point).toNat '0' ++ digits

/-- Text with an exponent, one digit before the point. -/
def scientific (s : Spelling) (digits : List Char) (lead : Int) : List Char :=
  let point := if digits.length ≤ 1 then digits else digits.take 1 ++ '.' :: digits.drop 1
  let sign := if lead < 0 then ['-'] else if s.plusSign then ['+'] else []
  point ++ 'e' :: sign ++ digitsOf lead.natAbs

/-- Text of the magnitude of a finite number. -/
def writeMagnitude (s : Spelling) (mantissa : Nat) (exponent : Int) : List Char :=
  if mantissa = 0 then s.plain ['0'] 0
  else
    let d := shortest s.tie mantissa exponent
    let digits := digitsOf d.digits
    let lead : Int := digits.length - 1 + d.exponent
    if s.isPlain lead then s.plain digits d.exponent else s.scientific digits lead

def write (s : Spelling) (x : Float) : List Char :=
  match Binary64.ofFloat x with
  | .nan => "NaN".toList
  | .infinite false => "inf".toList
  | .infinite true => "-inf".toList
  | .finite false mantissa exponent => s.writeMagnitude mantissa exponent
  | .finite true mantissa exponent => '-' :: s.writeMagnitude mantissa exponent

end Spelling

end BindScript.Decimal
