/-
**Trees of programs.**

The elaborated form of a source text: names are resolved, implicit conversions and omitted arguments
are written out, and every expression carries its type.  A block lists the slots of the variables
and the record types that are declared directly in it.
-/

import BindScript.Builtin.Catalog
import BindScript.Operator

namespace BindScript

/-- A variable of a block and the value that it starts with. A slot that is bound can be seen as
soon as the block is entered; the others come into sight when their declaration runs. -/
structure Slot where
  name : String
  ty : Ty
  value : Value
  bound : Bool

/-- A variable, or a leaf of a record variable. -/
structure Place where
  line : Nat
  name : String
  /-- The dotted path of the leaf. -/
  path : Option String
  ty : Ty

/-- The name by which instructions know a place. -/
def Place.fullName (p : Place) : String :=
  match p.path with
  | none => p.name
  | some path => p.name ++ "." ++ path

inductive Expr where
  | literal (line : Nat) (value : Value)
  | load (place : Place)
  | host (line : Nat) (name : String)
  /-- `!` if `logical`, `-` if not. -/
  | negate (line : Nat) (logical : Bool) (operand : Expr)
  | binary (line : Nat) (op : Operator) (ty : Ty) (left right : Expr)
  | select (line : Nat) (ty : Ty) (condition yes no : Expr)
  | call (line : Nat) (function : Builtin) (ty : Ty) (args : List Expr)

mutual

inductive Stmt where
  | branch (line : Nat) (condition : Expr) (yes : Block) (no : Option Block)
  | loop (line : Nat) (condition : Expr) (body : Block)
  | block (line : Nat) (body : Block)
  | declare (line : Nat) (name : String) (ty : Ty) (init : Option Expr)
  | assign (line : Nat) (target : Place) (value : Expr)
  /-- A call for its effect. -/
  | perform (call : Expr)

/-- The statements of a block, and what is declared directly in it. -/
inductive Block where
  | mk (slots : List Slot) (types : Table Fields) (statements : List Stmt)

end

namespace Block

def slots : Block → List Slot
  | .mk slots _ _ => slots

def types : Block → Table Fields
  | .mk _ types _ => types

def statements : Block → List Stmt
  | .mk _ _ statements => statements

end Block

namespace Expr

/-- The type of an expression. Negation keeps the type of its operand. -/
def ty : Expr → Ty
  | .literal _ v => v.ty
  | .load p => p.ty
  | .host _ _ => .string
  | .negate _ _ e => e.ty
  | .binary _ _ t _ _ => t
  | .select _ t _ _ _ => t
  | .call _ _ t _ => t

/-- The line of an expression: that of its operator, or of its first token. -/
def line : Expr → Nat
  | .literal l _ => l
  | .load p => p.line
  | .host l _ => l
  | .negate l _ _ => l
  | .binary l _ _ _ _ => l
  | .select l _ _ _ _ => l
  | .call l _ _ _ => l

/-- The place that an expression reads, if it does nothing else. -/
def place? : Expr → Option Place
  | .load p => some p
  | _ => none

end Expr

end BindScript
