/-
**Values.**

What programs compute with.  A record is flat: a table from dotted leaf paths to values.
-/

import BindScript.Decimal.Spelling
import BindScript.Ty

namespace BindScript

inductive Value where
  /-- What a statement yields. -/
  | void
  | null
  | int (n : Int64)
  | float (x : Float)
  | string (s : String)
  | bool (b : Bool)
  /-- A record as a table from leaf paths to values. -/
  | record (leaves : List (String × Value))

namespace Value

inductive Kind where
  | void
  | null
  | int
  | float
  | string
  | bool
  | record
  deriving DecidableEq

def Kind.name : Kind → String
  | .void => "void"
  | .null => "null"
  | .int => "int"
  | .float => "float"
  | .string => "string"
  | .bool => "bool"
  | .record => "record"

def kind : Value → Kind
  | .void => .void
  | .null => .null
  | .int _ => .int
  | .float _ => .float
  | .string _ => .string
  | .bool _ => .bool
  | .record _ => .record

/-- The static type of a value. `null` has none of its own, and a record does not know its name. -/
def ty : Value → Ty
  | .void | .null => .void
  | .int _ => .int
  | .float _ => .float
  | .string _ => .string
  | .bool _ => .bool
  | .record _ => .record ""

/-- What a variable of a primitive type starts as. -/
def zero : Ty → Value
  | .int => .int 0
  | .float => .float 0.0
  | .string => .string ""
  | .bool => .bool false
  | .void | .record _ => .void

/-- What a variable of a record type starts as: zero in every leaf. -/
def zeroRecord (fields : Fields) : Value := .record (fields.map fun (path, ty) => (path, zero ty))

/-- Whether a condition holds of a value: everything but `false`, zero and what is empty. -/
def isTruthy : Value → Bool
  | .bool b => b
  | .int n => n != 0
  | .float x => !(x == 0.0)
  | .string s => !s.isEmpty
  | .record leaves => !leaves.isEmpty
  | .void | .null => false

def asInt? : Value → Option Int64
  | .int n => some n
  | _ => none

/-- The double of a number; an integer is rounded to the nearest. -/
def asFloat? : Value → Option Float
  | .float x => some x
  | .int n => some (Decimal.floatOfInt n.toInt)
  | _ => none

def asString? : Value → Option String
  | .string s => some s
  | _ => none

def asBool? : Value → Option Bool
  | .bool b => some b
  | _ => none

mutual

/-- Equality as programs see it: doubles by their order, so that nothing equals what is no number
and the two zeros are equal, and records as maps. -/
def agrees : Value → Value → Bool
  | .void, .void => true
  | .null, .null => true
  | .int m, .int n => m == n
  | .float x, .float y => x == y
  | .string s, .string t => s == t
  | .bool b, .bool c => b == c
  | .record l, .record r => l.length == r.length && leavesAgree l r
  | _, _ => false

/-- Whether every leaf of the first record is in the second one, with an agreeing value. -/
def leavesAgree : List (String × Value) → List (String × Value) → Bool
  | [], _ => true
  | (path, v) :: rest, r =>
    (match r.lookup path with
      | some w => agrees v w
      | none => false) && leavesAgree rest r

end

mutual

def displayChars : Value → List Char
  | .void => []
  | .null => "null".toList
  | .int n => (toString n.toInt).toList
  | .float x => Decimal.Spelling.display.write x
  | .string s => s.toList
  | .bool b => (toString b).toList
  | .record leaves => '{' :: (displayLeaves leaves ++ ['}'])

/-- The leaves of a record with commas between them. -/
def displayLeaves : List (String × Value) → List Char
  | [] => []
  | [(path, v)] => path.toList ++ ':' :: ' ' :: displayChars v
  | (path, v) :: rest =>
    path.toList ++ ':' :: ' ' :: displayChars v ++ ',' :: ' ' :: displayLeaves rest

end

def display (v : Value) : String := String.ofList v.displayChars

end Value

end BindScript
