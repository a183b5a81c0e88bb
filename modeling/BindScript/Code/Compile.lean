/-
**Compiling trees.**

| tree | code at position `at` |
|---|---|
| literal | one instruction; what is neither a number, a string nor a truth value is `null` |
| negation, operator, call | the instruction, then the code of the operands |
| choice | `select E T`, condition, first value, and at `E` the second, up to `T` |
| branch | `jumpIfFalse E`, condition, block; else also `jump T`, and at `E` a block, up to `T` |
| loop | `jumpIfFalse T`, condition, block, `jump` back to the start; `T` is what follows |
| block | the header with the number of instructions in it, then the statements |
| declaration, assignment | the instruction, then the code of the value |
-/

import BindScript.Code.Instruction

namespace BindScript

def Value.instruction : Value → Instruction
  | .int n => .int n
  | .float x => .float x
  | .string s => .string s
  | .bool b => .bool b
  | .void | .null | .record _ => .null

namespace Expr

mutual

/-- The code of an expression, for the position at which it will stand. -/
def codeAt (position : Nat) : Expr → Code
  | .literal _ v => [v.instruction]
  | .load p => [.load p.fullName]
  | .host _ name => [.loadHost name]
  | .negate _ _ operand => .negate :: operand.codeAt (position + 1)
  | .binary _ op _ left right =>
    let l := left.codeAt (position + 1)
    let r := right.codeAt (position + 1 + l.length)
    .binary op :: (l ++ r)
  | .select _ _ condition yes no =>
    let c := condition.codeAt (position + 1)
    let y := yes.codeAt (position + 1 + c.length)
    let otherwise := position + 1 + c.length + y.length
    let n := no.codeAt otherwise
    .select otherwise (otherwise + n.length) :: (c ++ y ++ n)
  | .call _ function _ args => .call function.name args.length :: codeOfAll (position + 1) args

def codeOfAll (position : Nat) : List Expr → Code
  | [] => []
  | e :: es =>
    let c := e.codeAt position
    c ++ codeOfAll (position + c.length) es

end

def code (e : Expr) : Code := e.codeAt 0

end Expr

/-- The code of an initializer, if there is one. -/
def initCode (position : Nat) : Option Expr → Code
  | none => []
  | some e => e.codeAt position

mutual

/-- The code of a statement, for the position at which it will stand. -/
def Stmt.codeAt (position : Nat) : Stmt → Code
  | .branch _ condition yes none =>
    let c := condition.codeAt (position + 1)
    let y := yes.codeAt (position + 1 + c.length)
    .jumpIfFalse (position + 1 + c.length + y.length) :: (c ++ y)
  | .branch _ condition yes (some no) =>
    let c := condition.codeAt (position + 1)
    let y := yes.codeAt (position + 1 + c.length)
    let otherwise := position + 1 + c.length + y.length + 1
    let n := no.codeAt otherwise
    .jumpIfFalse otherwise :: (c ++ y ++ .jump (otherwise + n.length) :: n)
  | .loop _ condition body =>
    let c := condition.codeAt (position + 1)
    let b := body.codeAt (position + 1 + c.length)
    .jumpIfFalse (position + 1 + c.length + b.length + 1) :: (c ++ b ++ [.jump position])
  | .block _ body => body.codeAt position
  | .declare _ name _ init => .declare name init.isSome :: initCode (position + 1) init
  | .assign _ target value => .assign target.fullName :: value.codeAt (position + 1)
  | .perform call => call.codeAt position

/-- The code of a block, for the position at which it will stand. -/
def Block.codeAt (position : Nat) : Block → Code
  | .mk slots _ statements =>
    let body := codeOfStatements (position + 1) statements
    .block body.length slots :: body

def codeOfStatements (position : Nat) : List Stmt → Code
  | [] => []
  | s :: ss =>
    let c := s.codeAt position
    c ++ codeOfStatements (position + c.length) ss

end

def Block.code (b : Block) : Code := b.codeAt 0

end BindScript
