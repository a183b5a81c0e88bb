/-
**Reading JSON text.**

The reader accepts one value with blanks around it.  An integer that fits 64 bits is kept as it is;
every other number is a double, made from as many leading digits as fit 64 bits, scaled by a power
of ten.  Infinite numbers, strings with one half of a surrogate pair, objects with such a name, and
arrays and objects that are nested more than `maxDepth` deep cannot be used.
-/

import BindScript.Decimal.Reader
import BindScript.Json.Draft

namespace BindScript.Json

/-- The four blanks of JSON. -/
def isSpace (c : Char) : Bool := c == ' ' || c == '\n' || c == '\t' || c == '\r'

def skipSpace (cs : List Char) : List Char := cs.dropWhile isSpace

/-! ### Numbers -/

def powerOfTen (n : Nat) : Float := Float.ofScientific 1 false n

/-- The double `x / 10 ^ n`, in steps of `10 ^ 308`, the greatest power of ten that is a double. -/
def scaleDown (x : Float) : Nat → Nat → Float
  | 0, _ => 0.0
  | fuel + 1, n =>
    if n ≤ 308 then x / powerOfTen n
    else if x == 0.0 then x
    else scaleDown (x / powerOfTen 308) fuel (n - 308)

/-- The double `significand · 10 ^ exponent`; it is infinite when that is too great. -/
def scaled (significand : Nat) (exponent : Int) : Float :=
  let x := (UInt64.ofNat significand).toFloat
  if exponent < 0 then scaleDown x 4 exponent.natAbs
  else if exponent ≤ 308 then x * powerOfTen exponent.natAbs
  else if x == 0.0 then x
  else 1.0 / 0.0

/-- The digits of a number read so far: what fits 64 bits, the power of ten that stands for the
digits left out, and whether any were. -/
structure Significand where
  digits : Nat
  /-- The power of ten they are scaled by. -/
  exponent : Int
  /-- Whether digits have been left out. -/
  full : Bool

/-- One more digit before the point. -/
def Significand.addWhole (s : Significand) (c : Char) : Significand :=
  let digits := 10 * s.digits + (c.toNat - 48)
  if s.full then { s with exponent := s.exponent + 1 }
  else if digits < 0x10000000000000000 then { s with digits }
  else { s with exponent := s.exponent + 1, full := true }

/-- One more digit after the point; once one does not fit, it and all after it are dropped. -/
def Significand.addPart (s : Significand) (c : Char) : Significand :=
  let digits := 10 * s.digits + (c.toNat - 48)
  if s.full then s
  else if digits < 0x10000000000000000 then { s with digits, exponent := s.exponent - 1 }
  else { s with full := true }

/-- The digits after a point, if there is one; a point needs a digit after it. -/
def readPart? : List Char → Option (List Char × List Char)
  | '.' :: cs =>
    let digits := cs.takeWhile Char.isDigit
    if digits.isEmpty then none else some (digits, cs.dropWhile Char.isDigit)
  | cs => some ([], cs)

def readPower? : List Char → Option (Option Int × List Char)
  | [] => some (none, [])
  | c :: cs =>
    if c = 'e' ∨ c = 'E' then
      let (negative, rest) := Decimal.takeSign cs
      let digits := rest.takeWhile Char.isDigit
      let n : Int := Decimal.natOfDigits digits
      if digits.isEmpty then none
      else some (some (if negative then -n else n), rest.dropWhile Char.isDigit)
    else some (none, c :: cs)

/-- The number that a sign, the digits before and after the point and an exponent denote. -/
def assemble (negative : Bool) (whole part : List Char) (power : Option Int) : Number :=
  let w := whole.foldl Significand.addWhole ⟨0, 0, false⟩
  let isInteger := part.isEmpty && power.isNone && !w.full
  if isInteger && !negative then .int w.digits
  else if isInteger && w.digits ≠ 0 && w.digits ≤ 0x8000000000000000 then .int (-(w.digits : Int))
  else
    let s := part.foldl Significand.addPart { w with full := false }
    let x := scaled s.digits (s.exponent + power.getD 0)
    .float (if negative then -x else x)

def readNumber? (cs : List Char) : Option (Number × List Char) :=
  let (negative, cs) := match cs with
    | '-' :: rest => (true, rest)
    | _ => (false, cs)
  let whole := cs.takeWhile Char.isDigit
  if whole.isEmpty || (whole.head? == some '0' && whole.length ≠ 1) then none
  else
    (readPart? (cs.dropWhile Char.isDigit)).bind fun (part, rest) =>
      (readPower? rest).map fun (power, rest) => (assemble negative whole part power, rest)

/-! ### Strings -/

def hexValue? (c : Char) : Option Nat :=
  if c.isDigit then some (c.toNat - 48)
  else if 'a' ≤ c ∧ c ≤ 'f' then some (c.toNat - 87)
  else if 'A' ≤ c ∧ c ≤ 'F' then some (c.toNat - 55)
  else none

def hexValue4? (a b c d : Char) : Option Nat := do
  return ((← hexValue? a) * 16 + (← hexValue? b)) * 256 + (← hexValue? c) * 16 + (← hexValue? d)

def simpleEscape? (c : Char) : Option Char :=
  if c = '"' ∨ c = '\\' ∨ c = '/' then some c
  else if c = 'b' then some (Char.ofNat 8)
  else if c = 'f' then some (Char.ofNat 12)
  else if c = 'n' then some '\n'
  else if c = 'r' then some '\r'
  else if c = 't' then some '\t'
  else none

/-- Puts a code unit in front of those of a string that has been read. -/
def pushFront (n : Nat) : List Nat × List Char → List Nat × List Char
  | (units, rest) => (n :: units, rest)

/-- The code units of a string up to its closing quote, and the text after it. A character above the
basic plane is one unit if it stands for itself, but two escapes are needed for it. -/
def readUnits? : List Char → Option (List Nat × List Char)
  | [] => none
  | '"' :: rest => some ([], rest)
  | '\\' :: 'u' :: a :: b :: c :: d :: rest =>
    (hexValue4? a b c d).bind fun n => (readUnits? rest).map (pushFront n)
  | '\\' :: c :: rest => (simpleEscape? c).bind fun e => (readUnits? rest).map (pushFront e.toNat)
  | c :: rest => if c.toNat < 32 ∨ c = '\\' then none else (readUnits? rest).map (pushFront c.toNat)

def isHighHalf (n : Nat) : Bool := 0xD800 ≤ n && n < 0xDC00

def isLowHalf (n : Nat) : Bool := 0xDC00 ≤ n && n < 0xE000

/-- The characters of code units, where the halves of pairs stand together. -/
def joinPairs? : List Nat → Option (List Char)
  | [] => some []
  | n :: rest =>
    if isLowHalf n then none
    else if isHighHalf n then
      match rest with
      | [] => none
      | low :: rest =>
        if isLowHalf low then
          let code := 0x10000 + (n - 0xD800) * 0x400 + (low - 0xDC00)
          (joinPairs? rest).map (Char.ofNat code :: ·)
        else none
    else (joinPairs? rest).map (Char.ofNat n :: ·)

/-! ### Values -/

/-- How deep arrays and objects may be nested. -/
def maxDepth : Nat := 127

def numberDraft (n : Number) : Draft := if n.isFinite then .number n else .unusable

def stringDraft (units : List Nat) : Draft :=
  match joinPairs? units with
  | some s => .string (String.ofList s)
  | none => .unusable

/-- The draft of an array, where arrays may be nested so deep. -/
def arrayDraft : Nat → List Draft → Draft
  | 0, _ => .unusable
  | _ + 1, items => .array items

/-- The draft of an object, where objects may be nested so deep. -/
def objectDraft : Nat → Option (List (String × Draft)) → Draft
  | _ + 1, some members => .object members
  | _, _ => .unusable

/-- The members with one more in front, if all names denote texts. -/
def consMember (name : List Nat) (value : Draft) (members : Option (List (String × Draft))) :
    Option (List (String × Draft)) :=
  match joinPairs? name, members with
  | some name, some members => some ((String.ofList name, value) :: members)
  | _, _ => none

mutual

/-- A value at the start of a text, after blanks. The second argument is the depth of nesting that
is left. -/
def readValue? : Nat → Nat → List Char → Option (Draft × List Char)
  | 0, _, _ => none
  | fuel + 1, depth, cs =>
    match skipSpace cs with
    | [] => none
    | '"' :: rest => (readUnits? rest).map fun (units, rest) => (stringDraft units, rest)
    | '[' :: rest =>
      match skipSpace rest with
      | ']' :: rest => some (arrayDraft depth [], rest)
      | rest =>
        (readItems? fuel (depth - 1) rest).map fun (v, rest) => (arrayDraft depth v, rest)
    | '{' :: rest =>
      match skipSpace rest with
      | '}' :: rest => some (objectDraft depth (some []), rest)
      | rest =>
        (readMembers? fuel (depth - 1) rest).map fun (v, rest) => (objectDraft depth v, rest)
    | 'n' :: 'u' :: 'l' :: 'l' :: rest => some (.null, rest)
    | 't' :: 'r' :: 'u' :: 'e' :: rest => some (.bool true, rest)
    | 'f' :: 'a' :: 'l' :: 's' :: 'e' :: rest => some (.bool false, rest)
    | c :: rest =>
      if c = '-' ∨ c.isDigit then
        (readNumber? (c :: rest)).map fun (n, rest) => (numberDraft n, rest)
      else none

/-- The items of an array up to its closing bracket; there is at least one. -/
def readItems? : Nat → Nat → List Char → Option (List Draft × List Char)
  | 0, _, _ => none
  | fuel + 1, depth, cs =>
    match readValue? fuel depth cs with
    | none => none
    | some (item, rest) =>
      match skipSpace rest with
      | ']' :: rest => some ([item], rest)
      | ',' :: rest =>
        (readItems? fuel depth rest).map fun (items, rest) => (item :: items, rest)
      | _ => none

/-- The members of an object up to its closing brace; there is at least one. -/
def readMembers? : Nat → Nat → List Char → Option (Option (List (String × Draft)) × List Char)
  | 0, _, _ => none
  | fuel + 1, depth, cs =>
    match skipSpace cs with
    | '"' :: rest =>
      match readUnits? rest with
      | none => none
      | some (name, rest) =>
        match skipSpace rest with
        | ':' :: rest =>
          match readValue? fuel depth rest with
          | none => none
          | some (value, rest) =>
            match skipSpace rest with
            | '}' :: rest => some (consMember name value (some []), rest)
            | ',' :: rest =>
              (readMembers? fuel depth rest).map fun (members, rest) =>
                (consMember name value members, rest)
            | _ => none
        | _ => none
    | _ => none

end

/-- The draft of a whole text. Every step of the reader takes a character or goes one level down, so
twice the length of the text bounds its depth. -/
def readChars? (cs : List Char) : Option Draft :=
  match readValue? (2 * cs.length + 2) maxDepth cs with
  | some (d, rest) => if (skipSpace rest).isEmpty then some d else none
  | none => none

def readDraft? (text : String) : Option Draft := readChars? text.toList

def read? (text : String) : Option Json := (readDraft? text).bind Draft.value?

/-- The value of a whole text with its objects as maps. -/
def readCanonical? (text : String) : Option Json := (read? text).map canonical

end BindScript.Json
