/-
**The type check.**

The check walks a finished tree and reports, from the left, what elaboration marked as void or let
pass: operators and choices whose operands do not fit, conditions that are not truth values, and
values that their variable does not take.
-/

import BindScript.CompileError
import BindScript.Tree.Basic

namespace BindScript

/-- Passes if a condition holds, and fails with a cause at a line if not. -/
def require (holds : Bool) (cause : CompileError.Cause) (line : Nat) : Except CompileError Unit :=
  if holds then .ok () else .error ⟨cause, line⟩

namespace Expr

mutual

/-- The first error in an expression. -/
def check : Expr → Except CompileError Unit
  | .literal _ _ | .load _ | .host _ _ => .ok ()
  | .negate line logical operand => do
      operand.check
      if logical then require (operand.ty == .bool) (.notBool operand.ty) line
      else require operand.ty.isNumeric (.notNumeric operand.ty) line
  | .binary line op ty left right => do
      left.check
      right.check
      require (ty != .void) (.operands op left.ty right.ty) line
  | .select line ty condition yes no => do
      condition.check
      require (condition.ty == .bool) (.condition "?:" condition.ty) condition.line
      yes.check
      no.check
      require (ty != .void) (.branches yes.ty no.ty) line
  | .call _ _ _ args => checkAll args

def checkAll : List Expr → Except CompileError Unit
  | [] => .ok ()
  | e :: es => do
      e.check
      checkAll es

end

/-- The first error in the condition of a statement. -/
def checkCondition (construct : String) (e : Expr) : Except CompileError Unit := do
  e.check
  require (e.ty == .bool) (.condition construct e.ty) e.line

end Expr

/-- Whether a variable takes a value, as an error if not. -/
def checkAssignable (name : String) (target value : Ty) (line : Nat) : Except CompileError Unit :=
  require (target.assignable value) (.assignment name target value) line

mutual

def Stmt.check : Stmt → Except CompileError Unit
  | .branch _ condition yes no => do
      condition.checkCondition "if"
      yes.check
      checkOption no
  | .loop _ condition body => do
      condition.checkCondition "while"
      body.check
  | .block _ body => body.check
  | .declare _ _ _ none => .ok ()
  | .declare line name ty (some init) => do
      init.check
      checkAssignable name ty init.ty line
  | .assign line target value => do
      value.check
      checkAssignable target.fullName target.ty value.ty line
  | .perform call => call.check

def Block.check : Block → Except CompileError Unit
  | .mk _ _ statements => checkStatements statements

/-- The first error in the other branch of a statement, if it has one. -/
def checkOption : Option Block → Except CompileError Unit
  | none => .ok ()
  | some b => b.check

def checkStatements : List Stmt → Except CompileError Unit
  | [] => .ok ()
  | s :: ss => do
      s.check
      checkStatements ss

end

end BindScript
