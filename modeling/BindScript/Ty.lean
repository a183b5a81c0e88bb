/-
**Static types.**

The five primitive types and records, which are known by name.  A record is laid out flat: its
fields are the dotted paths to primitive leaves, in the order of declaration.
-/

import BindScript.Table

namespace BindScript

inductive Ty where
  /-- The type of what has no value, and of ill-typed expressions until they are reported. -/
  | void
  | int
  | float
  | string
  | bool
  /-- A record declared under this name. -/
  | record (name : String)
  deriving DecidableEq

/-- The layout of a record: its leaf paths with their types. -/
abbrev Fields := Table Ty

namespace Ty

/-- The types that need no declaration. -/
def primitives : List Ty := [.void, .int, .float, .string, .bool]

def name : Ty → String
  | .void => "void"
  | .int => "int"
  | .float => "float"
  | .string => "string"
  | .bool => "bool"
  | .record n => n

def ofKeyword? (word : String) : Option Ty := primitives.find? fun t => t.name == word

/-- The letter of a primitive type in compact signatures. -/
def letter? : Ty → Option Char
  | .void => some 'v'
  | .int => some 'i'
  | .float => some 'f'
  | .string => some 's'
  | .bool => some 'b'
  | .record _ => none

def ofLetter? (c : Char) : Option Ty := primitives.find? fun t => t.letter? == some c

/-- Whether a type is one of the two of numbers. -/
def isNumeric : Ty → Bool
  | .int | .float => true
  | _ => false

/-- Whether a value of type `value` can be stored in a variable of type `target`: the types are
equal and not void, or both are numeric. -/
def assignable (target value : Ty) : Bool :=
  (target == value && target != .void) || (target.isNumeric && value.isNumeric)

end Ty

end BindScript
