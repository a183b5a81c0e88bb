/-
**Parsing bindings.**

* `bindings := (clause (',' clause)*)?`
* `clause := kind ':' '{' body '}'`
* `body := expression`, or, for a kind with entries, `(entry (',' entry)*)?`
* `entry := string ':' expression`

No kind may be bound twice, and no entry listed twice.  Every expression is checked as soon as it
has been read, with no variable in sight.
-/

import BindScript.Binding.Kind
import BindScript.Code.Compile
import BindScript.Tree.Parser.Expression

namespace BindScript

namespace Parse

/-- Entries up to the last, after those in `done`. -/
def entriesAfter : Nat → Table Expr → Parse (Table Expr)
  | 0, _ => exhausted
  | rounds + 1, done => do
      let t ← advance
      match t.token with
      | .string name =>
        if (done.lookup name).isSome then fail (.repeatedEntry name) t.line
        let _ ← expect (.mark .colon)
        let e ← checkedExpression
        let done := done ++ [(name, e)]
        if ← optionalMatch (.mark .comma) then entriesAfter rounds done else return done
      | other => fail (.quotedNameExpected other) t.line

/-- The entries of a body, if any, up to the closing brace. -/
def entries : Parse (Table Expr) := do
  if (← peek).token = .mark .closeBrace then return []
  bounded fun rounds => entriesAfter rounds []

/-- The body of a binding of a kind. -/
def bindingBody (kind : Binding.Kind) : Parse (Binding.Body Expr) := do
  if kind.hasEntries then return .entries (← entries)
  return .expr (← checkedExpression)

/-- Clauses up to the last, after those in `done`. -/
def clausesAfter : Nat → Bindings Expr → Parse (Bindings Expr)
  | 0, _ => exhausted
  | rounds + 1, done => do
      let (name, line) ← expectIdent
      match Binding.Kind.ofName? name with
      | none => fail (.unknownBinding name) line
      | some kind =>
        if (done.find? kind).isSome then fail (.repeatedBinding name) line
        let _ ← expect (.mark .colon)
        let _ ← expect (.mark .openBrace)
        let body ← bindingBody kind
        let _ ← expect (.mark .closeBrace)
        let done := done ++ [(kind, body)]
        if ← optionalMatch (.mark .comma) then clausesAfter rounds done else return done

/-- Clauses, if any, up to the end of the text. -/
def clauses : Parse (Bindings Expr) := do
  if (← peek).token = .eof then return []
  let bindings ← bounded fun rounds => clausesAfter rounds []
  expectEnd
  return bindings

end Parse

def parseBindings (source : String) : Except CompileError (Bindings Expr) :=
  Parse.onText Parse.clauses source []

def compileBindings (source : String) : Except CompileError (Bindings Code) :=
  (parseBindings source).map (Bindings.map Expr.code)

end BindScript
