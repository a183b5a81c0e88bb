/-
**Operators on values.**

Integers never wrap: a result that does not fit 64 bits is an error.  An integer and a double meet
as doubles.  Comparison with what is no number is false.
-/

import BindScript.Decimal.Reader
import BindScript.RuntimeError

namespace BindScript.Value

/-- An integer result of an operation, if it fits 64 bits. -/
def checkedInt (operation : String) (n : Int) : Except RuntimeError Value :=
  match Decimal.toInt64? n with
  | some m => .ok (.int m)
  | none => .error (.overflow operation)

/-- The negation of a truth value (`logical`) or of a number. -/
def negate (logical : Bool) : Value → Except RuntimeError Value
  | .bool b => if logical then .ok (.bool !b) else .error (.wrongKind .number .bool)
  | .int n => if logical then .error (.wrongKind .bool .int) else checkedInt "-" (-n.toInt)
  | .float x => if logical then .error (.wrongKind .bool .float) else .ok (.float (-x))
  | v => .error (.wrongKind (if logical then .bool else .number) v.kind)

/-- The negation that the operand itself decides on. -/
def negateAny (v : Value) : Except RuntimeError Value := negate (v.kind == .bool) v

/-- Arithmetic on integers. Division truncates toward zero. -/
def intArithmetic (op : Operator) (m n : Int) : Except RuntimeError Value :=
  match op with
  | .add => checkedInt op.symbol (m + n)
  | .sub => checkedInt op.symbol (m - n)
  | .mul => checkedInt op.symbol (m * n)
  | _ => if n = 0 then .error .divisionByZero else checkedInt op.symbol (m.tdiv n)

def floatArithmetic (op : Operator) (x y : Float) : Float :=
  match op with
  | .add => x + y
  | .sub => x - y
  | .mul => x * y
  | _ => x / y

/-- The four arithmetic operators. `+` also joins strings. -/
def arithmetic (op : Operator) (left right : Value) : Except RuntimeError Value :=
  match left, right with
  | .int m, .int n => intArithmetic op m.toInt n.toInt
  | l, r =>
    match l.asFloat?, r.asFloat? with
    | some x, some y => .ok (.float (floatArithmetic op x y))
    | _, _ =>
      match op, l, r with
      | .add, .string s, .string t => .ok (.string (s ++ t))
      | _, _, _ => .error (.wrongOperands op l.kind r.kind)

/-- Equality. Two integers are compared exactly, an integer and a double as doubles. -/
def equals (left right : Value) : Bool :=
  match left, right with
  | .int m, .int n => m == n
  | l, r =>
    match l.asFloat?, r.asFloat? with
    | some x, some y => x == y
    | _, _ => l.agrees r

/-- The order of two values of one kind, and of two numbers; none for what is no number. -/
def ordering? : Value → Value → Option (Option Ordering)
  | .int m, .int n => some (some (Ord.compare m.toInt n.toInt))
  | .string s, .string t => some (some (if s < t then .lt else if s = t then .eq else .gt))
  | .bool b, .bool c => some (some (Ord.compare b c))
  | l, r =>
    match l.asFloat?, r.asFloat? with
    | some x, some y =>
      some (if x < y then some .lt else if x == y then some .eq else if y < x then some .gt
        else none)
    | _, _ => none

def compare (op : Operator) (left right : Value) : Except RuntimeError Value :=
  match ordering? left right with
  | none => .error (.wrongOperands op left.kind right.kind)
  | some none => .ok (.bool false)
  | some (some o) =>
    .ok (.bool (match op with
      | .gt => o == .gt
      | .lt => o == .lt
      | .ge => o != .lt
      | _ => o != .gt))

/-- The logical operators, on truth values that have both been computed. -/
def logical (op : Operator) (left right : Value) : Except RuntimeError Value :=
  match left, right with
  | .bool b, .bool c => .ok (.bool (if op = .and then b && c else b || c))
  | l, r => .error (.wrongOperands op l.kind r.kind)

def binary (op : Operator) (left right : Value) : Except RuntimeError Value :=
  match op with
  | .add | .sub | .mul | .div => arithmetic op left right
  | .eq => .ok (.bool (equals left right))
  | .ne => .ok (.bool !(equals left right))
  | .gt | .lt | .ge | .le => compare op left right
  | .and | .or => logical op left right

end BindScript.Value
