/-
**Parsing programs.**

A program is a sequence of statements in a scope that holds the globals.  A block opens a scope of
its own and closes it at its brace.  A record declaration is no statement that runs: it only adds a
type.  A variable is declared after its initializer has been read, so that the initializer sees an
outer variable of the same name.
-/

import BindScript.Tree.Parser.Expression

namespace BindScript

/-- Named values that a program sees from its first statement on. -/
abbrev Globals := Table Value

namespace Parse

/-! ### Records -/

/-- The leaves of a field: one for a primitive type, those of the record for a record type, each
under the name of the field. -/
def fieldLeaves (type : Token) (field : String) (line : Nat) : Parse Fields := do
  match type with
  | .keyword k =>
    match k.ty? with
    | some .void => fail (.voidField field) line
    | some ty => return [(field, ty)]
    | none => fail (.fieldType type) line
  | .ident name =>
    match (← scopes).type? name with
    | some fields => return fields.map fun (path, ty) => (field ++ "." ++ path, ty)
    | none => fail (.unknownType name) line
  | other => fail (.fieldType other) line

/-- Adds leaves to a layout, in which none of them may be yet. -/
def addLeaves (record : String) (line : Nat) : Fields → Fields → Except CompileError Fields
  | fields, [] => .ok fields
  | fields, (path, ty) :: leaves =>
    if (fields.lookup path).isSome then .error ⟨.repeatedField path record, line⟩
    else addLeaves record line (fields ++ [(path, ty)]) leaves

/-- The fields up to the closing brace, after those that have been read. -/
def recordFields (record : String) : Nat → Fields → Parse Fields
  | 0, _ => exhausted
  | rounds + 1, fields => do
      if ← optionalMatch (.mark .closeBrace) then return fields
      let type ← advance
      let (field, _) ← expectIdent
      let leaves ← fieldLeaves type.token field type.line
      match addLeaves record type.line fields leaves with
      | .error e => throw e
      | .ok fields =>
        let _ ← expect (.mark .semicolon)
        recordFields record rounds fields

/-- The declaration of a record type. A semicolon may follow it. -/
def recordDeclaration : Parse Unit := do
  let line := (← expect (.keyword .record)).line
  let (name, nameLine) ← expectIdent
  let _ ← expect (.mark .openBrace)
  let fields ← bounded fun rounds => recordFields name rounds []
  if fields.isEmpty then fail (.emptyRecord name) line
  let _ ← optionalMatch (.mark .semicolon)
  updateScopes fun s => s.addType name fields nameLine

/-! ### Simple statements -/

/-- The initializer of a declaration, converted to the type of the variable, if there is one. -/
def initializer (ty : Ty) (name : String) (line : Nat) : Parse (Option Expr) := do
  if ← optionalMatch (.mark .eq) then
    match ty with
    | .record _ => fail (.recordInitializer name) line
    | ty => return some ((← expression).coerce ty)
  else return none

/-- A declaration whose type has been read. -/
def declaration (ty : Ty) (line : Nat) : Parse Stmt := do
  let (name, nameLine) ← expectIdent
  let init ← initializer ty name nameLine
  let _ ← expect (.mark .semicolon)
  updateScopes fun s => s.addVariable ty name nameLine
  return .declare line name ty init

def assignment : Parse Stmt := do
  let (name, line) ← expectIdent
  let target ← place name line
  let _ ← expect (.mark .eq)
  let value ← expression
  let _ ← expect (.mark .semicolon)
  return .assign line target (value.coerce target.ty)

/-- A statement that begins with a name: a call, a declaration of a record variable, or an
assignment. -/
def namedStatement (name : String) (line : Nat) : Parse Stmt := do
  match (← lookahead 1).token with
  | .mark .openParen =>
    let _ ← advance
    let call ← call expression name line
    let _ ← expect (.mark .semicolon)
    return .perform call
  | .ident _ =>
    match (← scopes).type? name with
    | some _ =>
      let _ ← advance
      declaration (.record name) line
    | none =>
      match (← lookahead 2).token with
      | .mark .semicolon | .mark .eq => fail (.unknownType name) line
      | _ => fail (.identAfter name) line
  | _ => assignment

/-! ### Statements -/

/-- The statements up to the closing brace. -/
def statementsToBrace (statement : Parse (Option Stmt)) : Nat → Parse (List Stmt)
  | 0 => exhausted
  | rounds + 1 => do
      let t ← peek
      match t.token with
      | .mark .closeBrace =>
        let _ ← advance
        return []
      | .eof => fail .unclosedBlock t.line
      | _ =>
        let s ← statement
        return s.toList ++ (← statementsToBrace statement rounds)

/-- Closes the innermost scope around statements. -/
def closeBlock (statements : List Stmt) : Parse Block := do
  let s ← get
  set { s with scopes := s.scopes.pop }
  return .mk s.scopes.top.slots s.scopes.top.types statements

/-- A block in braces, in a scope of its own. -/
def block (statement : Parse (Option Stmt)) : Parse Block := do
  let _ ← expect (.mark .openBrace)
  modify fun s => { s with scopes := s.scopes.push [] }
  let statements ← bounded (statementsToBrace statement)
  closeBlock statements

/-- A branch. The block after `else` may be another branch, without braces and without a scope. -/
def branchRounds (statement : Parse (Option Stmt)) : Nat → Parse Stmt
  | 0 => exhausted
  | rounds + 1 => do
      let line := (← expect (.keyword .ifThen)).line
      let condition ← expression
      let yes ← block statement
      if ← optionalMatch (.keyword .orElse) then
        if (← peek).token = .keyword .ifThen then
          let other ← branchRounds statement rounds
          return .branch line condition yes (some (.mk [] [] [other]))
        else return .branch line condition yes (some (← block statement))
      else return .branch line condition yes none

def branch (statement : Parse (Option Stmt)) : Parse Stmt := bounded (branchRounds statement)

def loop (statement : Parse (Option Stmt)) : Parse Stmt := do
  let line := (← expect (.keyword .whileLoop)).line
  let condition ← expression
  return .loop line condition (← block statement)

/-- A statement, given the parser for statements in blocks; none for the declaration of a record. -/
def statementWith (statement : Parse (Option Stmt)) : Parse (Option Stmt) := do
  let t ← peek
  match t.token with
  | .keyword .ifThen => return some (← branch statement)
  | .keyword .whileLoop => return some (← loop statement)
  | .keyword .record =>
    recordDeclaration
    return none
  | .mark .openBrace => return some (.block t.line (← block statement))
  | .keyword .void => fail .voidVariable t.line
  | .keyword k =>
    match k.ty? with
    | some ty =>
      let _ ← advance
      return some (← declaration ty t.line)
    | none => fail (.statementStart t.token) t.line
  | .ident name => return some (← namedStatement name t.line)
  | other => fail (.statementStart other) t.line

/-- Statements with at most this many levels of blocks. -/
def nestedStatement : Nat → Parse (Option Stmt)
  | 0 => exhausted
  | levels + 1 => statementWith (nestedStatement levels)

def statement : Parse (Option Stmt) := bounded nestedStatement

/-- The statements up to the end of the text. -/
def statementsToEnd : Nat → Parse (List Stmt)
  | 0 => exhausted
  | rounds + 1 => do
      if (← peek).token = .eof then return []
      let s ← statement
      return s.toList ++ (← statementsToEnd rounds)

end Parse

/-- The slots of the globals, which are bound from the start. They are primitive. -/
def globalSlots : Globals → Except CompileError (List Slot)
  | [] => .ok []
  | (name, value) :: rest =>
    match value with
    | .int _ | .float _ | .string _ | .bool _ =>
      (globalSlots rest).map (⟨name, value.ty, value, true⟩ :: ·)
    | _ => .error ⟨.globalType name, 0⟩

/-- The program that a text is, as its outermost block. It is checked when the whole text has been
read. -/
def parseProgram (source : String) (globals : Globals) : Except CompileError Block := do
  let slots ← globalSlots globals
  let root ← Parse.onText (do
    let statements ← Parse.bounded Parse.statementsToEnd
    Parse.closeBlock statements) source slots
  root.check
  return root

end BindScript
