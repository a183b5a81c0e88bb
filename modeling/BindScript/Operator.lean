/-
**Binary operators.**
-/

import BindScript.Ty

namespace BindScript

inductive Operator where
  | add
  | sub
  | mul
  | div
  | eq
  | ne
  | gt
  | lt
  | ge
  | le
  | and
  | or
  deriving DecidableEq

namespace Operator

def all : List Operator := [.add, .sub, .mul, .div, .eq, .ne, .gt, .lt, .ge, .le, .and, .or]

/-- The spelling of an operator in instructions and messages. -/
def symbol : Operator → String
  | .add => "+"
  | .sub => "-"
  | .mul => "*"
  | .div => "/"
  | .eq => "=="
  | .ne => "!="
  | .gt => ">"
  | .lt => "<"
  | .ge => ">="
  | .le => "<="
  | .and => "and"
  | .or => "or"

def ofSymbol? (s : String) : Option Operator := all.find? fun op => op.symbol == s

def isComparison : Operator → Bool
  | .eq | .ne | .gt | .lt | .ge | .le => true
  | _ => false

/-- Whether the operator joins truth values. -/
def isLogical : Operator → Bool
  | .and | .or => true
  | _ => false

/-- The type of the result. A comparison takes two operands of one primitive type, a logical
operator two truth values, arithmetic two numbers of one type, and `+` also two strings; what does
not fit is void. -/
def infer (op : Operator) (left right : Ty) : Ty :=
  if op.isComparison then
    match left, right with
    | .record _, _ | .void, _ | _, .record _ | _, .void => .void
    | l, r => if l = r then .bool else .void
  else
    match op, left, right with
    | .and, .bool, .bool | .or, .bool, .bool => .bool
    | .add, .string, .string => .string
    | .add, .int, .int | .sub, .int, .int | .mul, .int, .int | .div, .int, .int => .int
    | .add, .float, .float | .sub, .float, .float | .mul, .float, .float | .div, .float, .float =>
      .float
    | _, _, _ => .void

end Operator

end BindScript
