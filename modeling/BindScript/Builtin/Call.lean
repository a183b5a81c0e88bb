/-
**What the built-in functions do.**

The functions that need neither a variable nor a host.  Arguments are read from the left, each with
the kind that the function wants; arguments that are left over are ignored.  Output and chance are
kept in a console.
-/

import BindScript.Builtin.Catalog
import BindScript.Builtin.Numeral
import BindScript.RuntimeError
import BindScript.Tape
import BindScript.Text.Case

namespace BindScript

/-- What a program has written, and what it will draw. -/
structure Console where
  output : String
  draws : Tape Nat

namespace Console

/-- The console for functions that neither write nor draw. -/
def empty : Console := ⟨"", ⟨fun _ => 0, 0⟩⟩

def write (c : Console) (text : String) : Console := { c with output := c.output ++ text }

/-- A number below `bound`, and the console after drawing it. -/
def draw (c : Console) (bound : Nat) : Nat × Console :=
  (c.draws.next % bound, { c with draws := c.draws.rest })

end Console

namespace Builtin

/-! ### Reading arguments -/

/-- The next argument. -/
def takeValue (b : Builtin) : List Value → Except RuntimeError (Value × List Value)
  | [] => .error (.arity b.name 1 0)
  | v :: rest => .ok (v, rest)

def takeInt (b : Builtin) (args : List Value) : Except RuntimeError (Int64 × List Value) := do
  match ← b.takeValue args with
  | (.int n, rest) => .ok (n, rest)
  | (v, _) => .error (.wrongKind .int v.kind)

def takeFloat (b : Builtin) (args : List Value) : Except RuntimeError (Float × List Value) := do
  match ← b.takeValue args with
  | (.float x, rest) => .ok (x, rest)
  | (v, _) => .error (.wrongKind .float v.kind)

def takeString (b : Builtin) (args : List Value) : Except RuntimeError (String × List Value) := do
  match ← b.takeValue args with
  | (.string s, rest) => .ok (s, rest)
  | (v, _) => .error (.wrongKind .string v.kind)

def takeBool (b : Builtin) (args : List Value) : Except RuntimeError (Bool × List Value) := do
  match ← b.takeValue args with
  | (.bool t, rest) => .ok (t, rest)
  | (v, _) => .error (.wrongKind .bool v.kind)

/-! ### The functions -/

/-- A function of one double that gives a value. -/
def onFloat (b : Builtin) (args : List Value) (f : Float → Except RuntimeError Value) :
    Except RuntimeError Value := do
  f (← b.takeFloat args).1

def onInt (b : Builtin) (args : List Value) (f : Int64 → Except RuntimeError Value) :
    Except RuntimeError Value := do
  f (← b.takeInt args).1

def onString (b : Builtin) (args : List Value) (f : String → Except RuntimeError Value) :
    Except RuntimeError Value := do
  f (← b.takeString args).1

/-- A string made from the characters of another one. -/
def mapChars (f : List Char → List Char) (s : String) : Value :=
  .string (String.ofList (f s.toList))

/-- A double brought to an integer, if that fits 64 bits. -/
def roundBy (b : Builtin) (mode : Decimal.Rounding) (x : Float) : Except RuntimeError Value :=
  match (Decimal.roundToInt? mode x).bind Decimal.toInt64? with
  | some n => .ok (.int n)
  | none => .error (.invalidArgument b.name (.doesNotFit x))

/-- The integer that a string begins with, if it fits 64 bits. -/
def stringToInt (s : String) : Except RuntimeError Value :=
  match Decimal.toInt64? (Numeral.leadingInt s.toList) with
  | some n => .ok (.int n)
  | none => .error (.invalidArgument strToInt.name (.outOfRange s))

/-- The character with a code point. -/
def character (code : Int) : Except RuntimeError Value :=
  if 0 ≤ code ∧ code.toNat.isValidChar then .ok (.string (String.singleton (Char.ofNat code.toNat)))
  else .error (.invalidArgument chr.name (.notCharacter code))

def joinStrings : List Value → Except RuntimeError String
  | [] => .ok ""
  | .string s :: rest => (joinStrings rest).map (s ++ ·)
  | v :: _ => .error (.wrongKind .string v.kind)

/-- Whether a string is a word in any case. -/
def isWord (word s : String) : Bool := Text.eqIgnoringCase s.toList word.toList

def count (n : Nat) : Value := .int (Int64.ofInt n)

/-- The functions that depend on their arguments alone. The others are not known here. -/
def compute (b : Builtin) (args : List Value) : Except RuntimeError Value :=
  match b with
  | .round => b.onFloat args (b.roundBy .nearest)
  | .floor => b.onFloat args (b.roundBy .down)
  | .ceil => b.onFloat args (b.roundBy .up)
  | .floatToInt => b.onFloat args (b.roundBy .towardZero)
  | .frac => b.onFloat args fun x => .ok (.float (Decimal.fraction x))
  | .intToFloat => b.onInt args fun n => .ok (.float (Decimal.floatOfInt n.toInt))
  | .strToInt => b.onString args stringToInt
  | .strToFloat => b.onString args fun s => .ok (.float (Numeral.leadingFloat s.toList))
  | .intToStr => b.onInt args fun n => .ok (.string (toString n.toInt))
  | .floatToStr => b.onFloat args fun x => .ok (.string (Value.float x).display)
  | .boolToStr => do
      let (t, _) ← b.takeBool args
      .ok (.string (toString t))
  | .strToBool => b.onString args fun s => .ok (.bool (isWord "true" s || s == "1"))
  | .uppercase => b.onString args fun s => .ok (mapChars Text.uppercase s)
  | .lowercase => b.onString args fun s => .ok (mapChars Text.lowercase s)
  | .trim => b.onString args fun s => .ok (mapChars Text.trim s)
  | .pos => do
      let (haystack, args) ← b.takeString args
      let (needle, args) ← b.takeString args
      let (offset, _) ← b.takeInt args
      .ok (.int (Int64.ofInt (Text.position haystack.toList needle.toList offset.toInt)))
  | .copy => do
      let (text, args) ← b.takeString args
      let (start, args) ← b.takeInt args
      let (count, _) ← b.takeInt args
      .ok (mapChars (fun cs => Text.substring cs start.toInt count.toInt) text)
  | .length => b.onString args fun s => .ok (count s.length)
  | .strReplace => do
      let (search, args) ← b.takeString args
      let (replacement, args) ← b.takeString args
      let (subject, _) ← b.takeString args
      .ok (mapChars (Text.replaceAll search.toList replacement.toList) subject)
  | .chr => b.onInt args fun n => character n.toInt
  | .ord => b.onString args fun s =>
    .ok (match s.toList with
      | [] => .int 0
      | c :: _ => count c.toNat)
  | .concat => (joinStrings args).map .string
  | .isNumeric => b.onString args fun s => .ok (.bool (Numeral.isNumeric s.toList))
  | .isInteger => b.onString args fun s => .ok (.bool (Numeral.isInteger s.toList))
  | .isBool => b.onString args fun s =>
    .ok (.bool (isWord "true" s || isWord "false" s || s == "1" || s == "0"))
  | .odd => b.onFloat args fun x => .ok (.bool (Decimal.isOddNearest x))
  | .random | .inc | .dec | .write | .writeLn | .selectedOptionId | .selectedOptionExtraValue
  | .setValue => .error (.unsupported b.name)

/-- The call of a function that needs neither a variable nor a host. -/
def call (b : Builtin) (args : List Value) (console : Console) :
    Except RuntimeError Value × Console :=
  match b with
  | .write =>
    match b.takeString args with
    | .ok (s, _) => (.ok .void, console.write s)
    | .error e => (.error e, console)
  | .writeLn =>
    match b.takeString args with
    | .ok (s, _) => (.ok .void, console.write (s ++ "\n"))
    | .error e => (.error e, console)
  | .random =>
    match b.takeInt args with
    | .ok (n, _) =>
      if n.toInt ≤ 0 then
        (.error (.invalidArgument b.name (.nonPositiveBound n.toInt)), console)
      else
        let (drawn, console) := console.draw n.toInt.toNat
        (.ok (count drawn), console)
    | .error e => (.error e, console)
  | b => (b.compute args, console)

def callByName (name : String) (args : List Value) (console : Console) :
    Except RuntimeError Value × Console :=
  match ofName? name with
  | some b => b.call args console
  | none => (.error (.unknownFunction name), console)

end Builtin

end BindScript
