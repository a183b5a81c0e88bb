/-
**Instructions.**

A program is a flat list of instructions in prefix order: an operator stands before its operands, a
call before its arguments.  Jumps name positions in the list.
-/

import BindScript.Tree.Basic

namespace BindScript

inductive Instruction where
  | int (n : Int64)
  | float (x : Float)
  | string (s : String)
  | bool (b : Bool)
  | null
  /-- The value of a variable or of a leaf of a record. -/
  | load (name : String)
  /-- The value that the host has under a name. -/
  | loadHost (name : String)
  /-- Assigns the value of the next expression. -/
  | assign (name : String)
  /-- Brings a variable into sight; `init` says that the next expression is its value. -/
  | declare (name : String) (init : Bool)
  /-- Calls a function with the values of the next `argc` expressions. -/
  | call (name : String) (argc : Nat)
  /-- Evaluates the next expression and jumps if it does not hold. -/
  | jumpIfFalse (target : Nat)
  | jump (target : Nat)
  /-- A choice: condition, then the one value up to `otherwise`, then the other up to `stop`. -/
  | select (otherwise stop : Nat)
  /-- A block of the next `count` instructions, with its slots. -/
  | block (count : Nat) (slots : List Slot)
  | negate
  | binary (op : Operator)

/-- Whether two slots are the same, values compared as programs compare them. -/
def Slot.agrees (s t : Slot) : Bool :=
  s.name == t.name && s.ty == t.ty && s.value.agrees t.value && s.bound == t.bound

/-- Whether two lists have the same length and agree place by place. -/
def allAgree {α : Type} (agree : α → α → Bool) : List α → List α → Bool
  | [], [] => true
  | a :: as, b :: bs => agree a b && allAgree agree as bs
  | _, _ => false

/-- Whether two instructions are the same, values compared as programs compare them. -/
def Instruction.agrees : Instruction → Instruction → Bool
  | .int m, .int n => m == n
  | .float x, .float y => x == y
  | .string s, .string t => s == t
  | .bool b, .bool c => b == c
  | .null, .null => true
  | .load a, .load b => a == b
  | .loadHost a, .loadHost b => a == b
  | .assign a, .assign b => a == b
  | .declare a i, .declare b j => a == b && i == j
  | .call a m, .call b n => a == b && m == n
  | .jumpIfFalse m, .jumpIfFalse n => m == n
  | .jump m, .jump n => m == n
  | .select m n, .select m' n' => m == m' && n == n'
  | .block m s, .block n t => m == n && allAgree Slot.agrees s t
  | .negate, .negate => true
  | .binary a, .binary b => a == b
  | _, _ => false

abbrev Code := List Instruction

/-- The position that lies so many instructions further on. Positions are words of 64 bits. -/
def Code.advance (position count : Nat) : Nat := (position + count) % 0x10000000000000000

/-- Whether two programs are the same, values compared as programs compare them. -/
def Code.agrees (c d : Code) : Bool := allAgree Instruction.agrees c d

end BindScript
