/-
**Constant expressions.**

The value of an expression that needs no running program: literals, operators, choices and functions
of their arguments alone.  Variables, names of the host, and functions with effects are refused.
-/

import BindScript.Builtin.Call
import BindScript.Tree.Basic
import BindScript.Value.Arithmetic

namespace BindScript

namespace Expr

mutual

def evaluate : Expr → Except RuntimeError Value
  | .literal _ v => .ok v
  | .load p => .error (.notConstant p.fullName)
  | .host _ name => .error (.notConstant ("@" ++ name))
  | .negate _ logical operand => do
      (← operand.evaluate).negate logical
  | .binary _ op _ left right => do
      let l ← left.evaluate
      let r ← right.evaluate
      Value.binary op l r
  | .select _ _ condition yes no => do
      if (← condition.evaluate).isTruthy then yes.evaluate else no.evaluate
  | .call _ function _ args =>
    if function.isPure then do
      let values ← evaluateAll args
      (function.call values Console.empty).1
    else .error (.notConstant function.name)

def evaluateAll : List Expr → Except RuntimeError (List Value)
  | [] => .ok []
  | e :: es => do
      let v ← e.evaluate
      let vs ← evaluateAll es
      return v :: vs

end

end Expr

/-- The value of a statement: that of a call, and otherwise none. -/
def Stmt.evaluate : Stmt → Except RuntimeError Value
  | .perform call => call.evaluate
  | _ => .error (.notConstant "statement")

end BindScript
