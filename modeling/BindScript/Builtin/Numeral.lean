/-
**Numbers in strings.**

Two kinds of functions look at the same texts.  The tests tell whether a whole string is a numeral,
in the decimal digits of any script.  The converters read the longest leading numeral in ASCII
digits, after blanks, and take a string without one for zero.
-/

import BindScript.Decimal.Reader
import BindScript.Text.Blank
import BindScript.Text.Digit

namespace BindScript.Numeral

/-- The text without a leading sign. -/
def dropSign : List Char → List Char
  | '+' :: cs => cs
  | '-' :: cs => cs
  | cs => cs

/-- Whether the text is one or more decimal digits. -/
def isDigits (cs : List Char) : Bool := !cs.isEmpty && cs.all Text.isDecimalDigit

/-- Whether the text is an integer: a sign or none, and digits. -/
def isInteger (cs : List Char) : Bool := isDigits (dropSign cs)

/-- Whether the text is nothing, or an exponent. -/
def isExponent : List Char → Bool
  | [] => true
  | c :: cs => (c == 'e' || c == 'E') && isInteger cs

/-- Whether the text is a number: a sign or none, digits with a point among them or around them, and
an exponent or none. -/
def isNumeric (cs : List Char) : Bool :=
  let cs := dropSign cs
  let whole := cs.takeWhile Text.isDecimalDigit
  match cs.dropWhile Text.isDecimalDigit with
  | '.' :: rest =>
    let part := rest.takeWhile Text.isDecimalDigit
    !(whole.isEmpty && part.isEmpty) && isExponent (rest.dropWhile Text.isDecimalDigit)
  | rest => !whole.isEmpty && isExponent rest

/-- The integer that the text begins with, after blanks; zero when it begins with none. -/
def leadingInt (cs : List Char) : Int :=
  let (negative, rest) := Decimal.takeSign (Text.trimStart cs)
  let n := Decimal.natOfDigits (rest.takeWhile Char.isDigit)
  if negative then -(n : Int) else n

/-- The digits with at most one point that a text begins with. -/
def leadingDigits (cs : List Char) : List Char :=
  let whole := cs.takeWhile Char.isDigit
  match cs.dropWhile Char.isDigit with
  | '.' :: rest => whole ++ '.' :: rest.takeWhile Char.isDigit
  | _ => whole

/-- The number without exponent that the text begins with, after blanks; zero when it begins with
none. -/
def leadingFloat (cs : List Char) : Float :=
  let (negative, rest) := Decimal.takeSign (Text.trimStart cs)
  match Decimal.readMagnitude? (leadingDigits rest) with
  | some x => if negative then -x else x
  | none => 0.0

end BindScript.Numeral
