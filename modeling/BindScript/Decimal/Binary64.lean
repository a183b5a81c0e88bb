/-
**Floating-point numbers as exact dyadic numbers.**

A finite double is `± mantissa · 2 ^ exponent`; this module reads the two off the bits and gives the
integers next to such a number in exact arithmetic, so that no rounding mode enters.
-/

namespace BindScript.Decimal

/-- What a double stands for. -/
inductive Binary64 where
  | nan
  | infinite (negative : Bool)
  /-- The number `mantissa · 2 ^ exponent`, negated if `negative`. -/
  | finite (negative : Bool) (mantissa : Nat) (exponent : Int)
  deriving DecidableEq

namespace Binary64

/-- The reading of a double's bits: a sign bit, eleven bits of exponent, fifty-two of fraction. -/
def ofFloat (x : Float) : Binary64 :=
  let bits := x.toBits.toNat
  let negative := decide (0x8000000000000000 ≤ bits)
  let biased : Nat := bits / 0x10000000000000 % 0x800
  let fraction : Nat := bits % 0x10000000000000
  if biased = 2047 then if fraction = 0 then .infinite negative else .nan
  else if biased = 0 then .finite negative fraction (-1074)
  else .finite negative (0x10000000000000 + fraction) ((biased : Int) - 1075)

end Binary64

/-- How a number is brought to an integer. -/
inductive Rounding where
  | down
  | up
  | towardZero
  /-- To the nearest integer, halves away from zero. -/
  | nearest
  deriving DecidableEq

/-- The magnitude `num / den` brought to a natural number. Rounding down a magnitude is rounding
toward zero; for a negative number `down` and `up` change places. -/
def Rounding.magnitude (mode : Rounding) (negative : Bool) (num den : Nat) : Nat :=
  match mode, negative with
  | .down, false | .up, true | .towardZero, _ => num / den
  | .down, true | .up, false => (num + (den - 1)) / den
  | .nearest, _ => (2 * num + den) / (2 * den)

/-- The integer next to a number under a rounding; none for infinities and what is no number. -/
def Binary64.toInt? (mode : Rounding) : Binary64 → Option Int
  | .nan | .infinite _ => none
  | .finite negative mantissa exponent =>
    let magnitude :=
      mode.magnitude negative (mantissa * Nat.pow 2 exponent.toNat) (Nat.pow 2 (-exponent).toNat)
    some (if negative then -(magnitude : Int) else magnitude)

def roundToInt? (mode : Rounding) (x : Float) : Option Int := (Binary64.ofFloat x).toInt? mode

/-- The double nearest to an integer of at most 64 bits. -/
def floatOfInt (n : Int) : Float :=
  if n < 0 then -(UInt64.ofNat n.natAbs).toFloat else (UInt64.ofNat n.natAbs).toFloat

/-- The fractional part of a double, with its sign; zero for integers, and not a number for
infinities. -/
def fraction (x : Float) : Float :=
  match Binary64.ofFloat x with
  | .nan | .infinite _ => 0.0 / 0.0
  | .finite negative mantissa exponent =>
    let whole := mantissa * Nat.pow 2 exponent.toNat / Nat.pow 2 (-exponent).toNat
    if whole * Nat.pow 2 (-exponent).toNat = mantissa * Nat.pow 2 exponent.toNat then 0.0
    else x - floatOfInt (if negative then -(whole : Int) else whole)

/-- Whether a double brought to the nearest integer is odd. -/
def isOddNearest (x : Float) : Bool :=
  match roundToInt? .nearest x with
  | some n => n % 2 != 0
  | none => false

end BindScript.Decimal
