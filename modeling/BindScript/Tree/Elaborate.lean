/-
**Building typed expressions.**

Operands of different numeric types are brought together by widening the integer, a value is
converted to the type of the variable that takes it, and a call is checked against the catalog and
completed with the defaults of the arguments that were left out.  What does not fit an operator is
given the type void and reported later.
-/

import BindScript.CompileError
import BindScript.Tree.Basic

namespace BindScript.Expr

/-- The call of a conversion, at the line of what it converts. -/
def convert (function : Builtin) (e : Expr) : Expr :=
  .call e.line function function.signature.ret [e]

/-- The expression with the conversion that brings it to the numeric type `target`, if it needs
one. -/
def coerce (target : Ty) (e : Expr) : Expr :=
  match e.ty, target with
  | .int, .float => convert .intToFloat e
  | .float, .int => convert .floatToInt e
  | _, _ => e

/-- Two operands, the integer of a mixed pair widened. -/
def widen (left right : Expr) : Expr × Expr :=
  match left.ty, right.ty with
  | .int, .float => (convert .intToFloat left, right)
  | .float, .int => (left, convert .intToFloat right)
  | _, _ => (left, right)

def mkBinary (line : Nat) (op : Operator) (left right : Expr) : Expr :=
  let (l, r) := if op.isLogical then (left, right) else widen left right
  .binary line op (op.infer l.ty r.ty) l r

def mkSelect (line : Nat) (condition yes no : Expr) : Expr :=
  let (y, n) := widen yes no
  .select line (if y.ty = n.ty then y.ty else .void) condition y n

/-- The arguments of a call with the defaults of those that were left out, or none if one of these
has no default. -/
def fillDefaults (line : Nat) : List Expr → List Param → Option (List Expr)
  | args, [] => some args
  | [], p :: params =>
    match p.default with
    | none => none
    | some v => (fillDefaults line [] params).map (.literal line v :: ·)
  | arg :: args, _ :: params => (fillDefaults line args params).map (arg :: ·)

/-- The error of the first argument whose type is not that of its parameter. -/
def checkTypes (function : Builtin) (place : Nat) :
    List Expr → List Param → Except CompileError Unit
  | arg :: args, p :: params =>
    if arg.ty = p.ty then checkTypes function (place + 1) args params
    else .error ⟨.parameter place function.name p.ty arg.ty, arg.line⟩
  | _, _ => .ok ()

def isEmptyString : Expr → Bool
  | .literal _ (.string s) => s.isEmpty
  | _ => false

/-- The arguments without the empty strings at the end, down to the first `keep`. -/
def dropEmptyStrings (keep : Nat) (args : List Expr) : List Expr :=
  args.take keep ++ ((args.drop keep).reverse.dropWhile isEmptyString).reverse

/-- A call by name. Omitted arguments are filled in, except that the empty strings at the end of a
`Concat` are left out again. -/
def mkCall (line : Nat) (name : String) (args : List Expr) : Except CompileError Expr :=
  match Builtin.ofName? name with
  | none => .error ⟨.unknownFunction name, line⟩
  | some f =>
    let s := f.signature
    if s.params.length < args.length then
      .error ⟨.tooMany name s.params.length args.length, line⟩
    else
      match fillDefaults line args s.params with
      | none => .error ⟨.tooFew name s.required args.length, line⟩
      | some args =>
        match checkTypes f 1 args s.params with
        | .error e => .error e
        | .ok () =>
          if f.takesReference && args.any fun a => a.place?.isNone then
            .error ⟨.variableNeeded name, line⟩
          else
            let args := if f = .concat then dropEmptyStrings s.required args else args
            .ok (.call line f s.ret args)

end BindScript.Expr
