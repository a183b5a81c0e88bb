/-
**Scopes.**

The variables and record types in sight while a source text is read, as a stack of scopes with the
innermost on top.  Names are looked up from the inside out.  A variable may be declared once in a
scope and may not have the name of a type that is in sight; a record type may be declared once in a
scope and may not have the name of a variable that is in sight.
-/

import BindScript.CompileError
import BindScript.Tree.Basic

namespace BindScript

/-- The variables and record types declared directly in one block. -/
structure Scope where
  slots : List Slot
  types : Table Fields

namespace Scope

def empty : Scope := ⟨[], []⟩

def slot? (s : Scope) (name : String) : Option Slot := s.slots.find? fun v => v.name == name

def type? (s : Scope) (name : String) : Option Fields := s.types.lookup name

end Scope

/-- The open scopes, the innermost first. -/
abbrev Scopes := List Scope

namespace Scopes

/-- Enters a block, in which the given variables are declared from the start. -/
def push (scopes : Scopes) (initial : List Slot) : Scopes := ⟨initial, []⟩ :: scopes

/-- The innermost scope, an empty one if there is none. -/
def top (scopes : Scopes) : Scope := scopes.headD Scope.empty

/-- Leaves the innermost block. -/
def pop (scopes : Scopes) : Scopes := scopes.drop 1

/-- The innermost variable of this name. -/
def slot? (scopes : Scopes) (name : String) : Option Slot :=
  scopes.findSome? fun s => s.slot? name

/-- The innermost record type of this name. -/
def type? (scopes : Scopes) (name : String) : Option Fields :=
  scopes.findSome? fun s => s.type? name

/-- Whether a variable of this name is declared in the innermost scope. -/
def declaredHere (scopes : Scopes) (name : String) : Bool := (scopes.top.slot? name).isSome

/-- Whether the name is that of a primitive type or of a record type in sight. -/
def isTypeName (scopes : Scopes) (name : String) : Bool :=
  (Ty.ofKeyword? name).isSome || (scopes.type? name).isSome

/-- The names of the primitive types, and of the record types from the outermost scope inwards. -/
def typeNames (scopes : Scopes) : List String :=
  Ty.primitives.map Ty.name ++ scopes.reverse.flatMap fun s => s.types.map (·.1)

/-- What a variable of a type starts as. -/
def zeroValue (scopes : Scopes) (ty : Ty) (line : Nat) : Except CompileError Value :=
  match ty with
  | .record name =>
    match scopes.type? name with
    | some fields => .ok (Value.zeroRecord fields)
    | none => .error ⟨.unknownType name, line⟩
  | ty => .ok (Value.zero ty)

/-- Declares a variable in the innermost scope, at the value its type starts with. -/
def addVariable (scopes : Scopes) (ty : Ty) (name : String) (line : Nat) :
    Except CompileError Unit × Scopes :=
  if scopes.isTypeName name then (.error ⟨.typeNameTaken name, line⟩, scopes)
  else if scopes.declaredHere name then (.error ⟨.repeatedVariable name, line⟩, scopes)
  else
    match scopes.zeroValue ty line with
    | .error e => (.error e, scopes)
    | .ok value =>
      match scopes with
      | [] => (.error ⟨.noScope, line⟩, [])
      | s :: outer => (.ok (), { s with slots := s.slots ++ [⟨name, ty, value, false⟩] } :: outer)

/-- Declares a record type in the innermost scope. -/
def addType (scopes : Scopes) (name : String) (fields : Fields) (line : Nat) :
    Except CompileError Unit × Scopes :=
  if (Ty.ofKeyword? name).isSome || (scopes.slot? name).isSome then
    (.error ⟨.variableNameTaken name, line⟩, scopes)
  else
    match scopes with
    | [] => (.error ⟨.noScope, line⟩, [])
    | s :: outer =>
      if (s.type? name).isSome then (.error ⟨.repeatedType name, line⟩, s :: outer)
      else (.ok (), { s with types := s.types ++ [(name, fields)] } :: outer)

end Scopes

end BindScript
