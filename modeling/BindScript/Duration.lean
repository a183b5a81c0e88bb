/-
**Spans of time.**

A span is a number of milliseconds.  It is written in seconds when it has any, with the milliseconds
after a point and no zeros at the end, in milliseconds when it is shorter, and as `0ns` when it is
nothing.
-/

import BindScript.Decimal.Shortest

namespace BindScript

/-- A span of time in whole milliseconds. -/
structure Duration where
  milliseconds : Nat
  deriving DecidableEq

namespace Duration

/-- The digits of a thousandth without the zeros at the end. -/
def thousandths (n : Nat) : List Char :=
  let digits := (Decimal.digitsOf (1000 + n)).drop 1
  (digits.reverse.dropWhile (· == '0')).reverse

def text (d : Duration) : String :=
  let seconds := d.milliseconds / 1000
  let rest := d.milliseconds % 1000
  if d.milliseconds = 0 then "0ns"
  else if seconds = 0 then s!"{rest}ms"
  else if rest = 0 then s!"{seconds}s"
  else toString seconds ++ "." ++ String.ofList (thousandths rest) ++ "s"

end Duration

end BindScript
