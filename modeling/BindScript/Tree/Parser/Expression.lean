/-
**Parsing expressions.**

The grammar, loosest first; the two logical operators share one level, and comparisons do not chain:

* `logical := relational (('&&' | '||') relational)*`
* `relational := term (cmp term)? ('?' logical ':' logical)?`
* `term := factor (('+' | '-') factor)*`
* `factor := unary (('*' | '/') unary)*`
* `unary := ('-' | '!') unary | primary`
* `primary := literal | '@' name | '(' logical ')' | name '(' arguments ')' | name ('.' name)*`

Every level is a function of the parser for the expressions nested in it, and `Parse.expression`
ties the knot: a nested expression stands after a token of its own, so there are at most as many
levels of nesting as there are tokens.
-/

import BindScript.Tree.Check
import BindScript.Tree.Elaborate
import BindScript.Tree.Parser.Basic

namespace BindScript

namespace Parse

/-! ### Operators -/

def logicalOp? : Token → Option Operator
  | .mark .and => some .and
  | .mark .or => some .or
  | _ => none

def comparisonOp? : Token → Option Operator
  | .mark .eqEq => some .eq
  | .mark .ne => some .ne
  | .mark .gt => some .gt
  | .mark .lt => some .lt
  | .mark .ge => some .ge
  | .mark .le => some .le
  | _ => none

def additiveOp? : Token → Option Operator
  | .mark .plus => some .add
  | .mark .minus => some .sub
  | _ => none

def multiplicativeOp? : Token → Option Operator
  | .mark .star => some .mul
  | .mark .slash => some .div
  | _ => none

/-- The rest of a chain of operators of one level, after its left part. -/
def leftAssocRest (op? : Token → Option Operator) (operand : Parse Expr) :
    Nat → Expr → Parse Expr
  | 0, _ => exhausted
  | rounds + 1, left => do
      match op? (← peek).token with
      | none => return left
      | some op =>
        let line := (← advance).line
        let right ← operand
        leftAssocRest op? operand rounds (Expr.mkBinary line op left right)

/-- Operands joined by operators of one level, from the left. -/
def leftAssoc (op? : Token → Option Operator) (operand : Parse Expr) : Parse Expr := do
  let left ← operand
  bounded fun rounds => leftAssocRest op? operand rounds left

/-! ### Variables -/

/-- The names after points. -/
def segments : Nat → Parse (List String)
  | 0 => exhausted
  | rounds + 1 => do
      if ← optionalMatch (.mark .dot) then
        let (name, _) ← expectIdent
        return name :: (← segments rounds)
      else return []

/-- The variable of a name that has been read, or, if points follow, a leaf of it. -/
def place (name : String) (line : Nat) : Parse Place := do
  match (← scopes).slot? name with
  | none => fail (.undefinedVariable name) line
  | some slot =>
    if (← peek).token ≠ .mark .dot then return ⟨line, name, none, slot.ty⟩
    match slot.ty with
    | .record record =>
      let path := ".".intercalate (← bounded segments)
      match ((← scopes).type? record).bind (List.lookup path) with
      | some ty => return ⟨line, name, some path, ty⟩
      | none => fail (.noField record path) line
    | ty => fail (.notRecord name ty) line

/-! ### The levels -/

/-- Arguments up to the closing parenthesis; there is at least one. -/
def arguments (expr : Parse Expr) : Nat → Parse (List Expr)
  | 0 => exhausted
  | rounds + 1 => do
      let arg ← expr
      if ← optionalMatch (.mark .comma) then return arg :: (← arguments expr rounds)
      let _ ← expect (.mark .closeParen)
      return [arg]

/-- The call of a function whose name has been read. -/
def call (expr : Parse Expr) (name : String) (line : Nat) : Parse Expr := do
  let _ ← expect (.mark .openParen)
  let args ← if ← optionalMatch (.mark .closeParen) then pure [] else bounded (arguments expr)
  match Expr.mkCall line name args with
  | .ok e => return e
  | .error e => throw e

/-- A literal, a name, a call, or an expression in parentheses. -/
def primary (expr : Parse Expr) : Parse Expr := do
  let t ← advance
  match t.token with
  | .int n => return .literal t.line (.int n)
  | .float x => return .literal t.line (.float x)
  | .string s => return .literal t.line (.string s)
  | .bool b => return .literal t.line (.bool b)
  | .null => return .literal t.line .null
  | .hostName name => return .host t.line name
  | .mark .openParen =>
    let inner ← expr
    let _ ← expect (.mark .closeParen)
    return inner
  | .ident name =>
    if (← peek).token = .mark .openParen then call expr name t.line
    else return .load (← place name t.line)
  | other => fail (.inExpression other) t.line

/-- A primary expression after any number of negations. -/
def unaryRounds (expr : Parse Expr) : Nat → Parse Expr
  | 0 => exhausted
  | rounds + 1 => do
      match (← peek).token with
      | .mark .minus =>
        let line := (← advance).line
        return .negate line false (← unaryRounds expr rounds)
      | .mark .bang =>
        let line := (← advance).line
        return .negate line true (← unaryRounds expr rounds)
      | _ => primary expr

def unary (expr : Parse Expr) : Parse Expr := bounded (unaryRounds expr)

/-- Products and quotients. -/
def factor (expr : Parse Expr) : Parse Expr := leftAssoc multiplicativeOp? (unary expr)

/-- Sums and differences. -/
def term (expr : Parse Expr) : Parse Expr := leftAssoc additiveOp? (factor expr)

/-- A sum, or the comparison of two. -/
def comparison (expr : Parse Expr) : Parse Expr := do
  let left ← term expr
  match comparisonOp? (← peek).token with
  | none => return left
  | some op =>
    let line := (← advance).line
    return Expr.mkBinary line op left (← term expr)

/-- A comparison, or a choice that it decides. -/
def relational (expr : Parse Expr) : Parse Expr := do
  let condition ← comparison expr
  if (← peek).token ≠ .mark .question then return condition
  let line := (← advance).line
  let yes ← expr
  let _ ← expect (.mark .colon)
  let no ← expr
  return Expr.mkSelect line condition yes no

/-- Choices and comparisons joined by logical operators. -/
def logical (expr : Parse Expr) : Parse Expr := leftAssoc logicalOp? (relational expr)

/-- Expressions with at most this many levels of nesting. -/
def nested : Nat → Parse Expr
  | 0 => exhausted
  | levels + 1 => logical (nested levels)

def expression : Parse Expr := bounded nested

/-- An expression that passes the type check. -/
def checkedExpression : Parse Expr := do
  let e ← expression
  match e.check with
  | .ok () => return e
  | .error err => throw err

end Parse

/-- The expression that a text is, with no variable in sight. It is checked when the whole text has
been read. -/
def parseExpression (source : String) : Except CompileError Expr := do
  let e ← Parse.onText (do
    let e ← Parse.expression
    Parse.expectEnd
    return e) source []
  e.check
  return e

end BindScript
