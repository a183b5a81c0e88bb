/-
**Reading tokens while a tree is built.**

A parser runs on the tokens that are left and the scopes that are open, and fails with an error of
compilation.  A token that could not be scanned is an error only for the parser that wants to look
at it.  Repetitions are bounded by the number of tokens that are left, since each round takes one.
-/

import BindScript.Scope
import BindScript.Token.Scanner

namespace BindScript

/-- The tokens that are left, how they end, and the open scopes. -/
structure ParseState where
  tokens : List Token.Located
  ending : Except CompileError Nat
  scopes : Scopes

/-- The state at the start of a text, with no scope open. -/
def ParseState.start (source : String) : ParseState :=
  let run := TokenRun.ofText source
  ⟨run.tokens, run.ending, []⟩

abbrev Parse := StateT ParseState (Except CompileError)

namespace Parse

def fail {α : Type} (cause : CompileError.Cause) (line : Nat) : Parse α :=
  throw ⟨cause, line⟩

/-- The token `n` places ahead of the next one. After the last token there is the end of the text,
or the error that scanning ended with. -/
def lookahead (n : Nat) : Parse Token.Located := fun s =>
  match s.tokens[n]?, s.ending with
  | some t, _ => .ok (t, s)
  | none, .ok line => .ok (⟨.eof, line⟩, s)
  | none, .error e => .error e

def peek : Parse Token.Located := lookahead 0

/-- Takes the next token. The end of the text can be taken any number of times. -/
def advance : Parse Token.Located := do
  let t ← peek
  modify fun s => { s with tokens := s.tokens.drop 1 }
  return t

/-- Takes the next token, which has to be `wanted`. -/
def expect (wanted : Token) : Parse Token.Located := do
  let t ← advance
  if t.token = wanted then return t else fail (.expected wanted t.token) t.line

/-- Takes the next token if it is `wanted`, and tells whether it was. -/
def optionalMatch (wanted : Token) : Parse Bool := do
  let t ← peek
  if t.token = wanted then
    let _ ← advance
    return true
  else return false

/-- Takes an identifier; gives its name and line. -/
def expectIdent : Parse (String × Nat) := do
  let t ← advance
  match t.token with
  | .ident name => return (name, t.line)
  | other => fail (.identExpected other) t.line

/-- Passes at the end of the text. -/
def expectEnd : Parse Unit := do
  let t ← peek
  if t.token = .eof then return () else fail (.afterExpression t.token) t.line

/-- Fails because more rounds were wanted than there are tokens. -/
def exhausted {α : Type} : Parse α := do
  let t ← peek
  fail .unexpectedEnd t.line

/-- A parser given one round for every token that is left, and one more. -/
def bounded {α : Type} (p : Nat → Parse α) : Parse α := do
  let s ← get
  p (s.tokens.length + 1)

def scopes : Parse Scopes := return (← get).scopes

/-- Changes the open scopes, which may fail. -/
def updateScopes (f : Scopes → Except CompileError Unit × Scopes) : Parse Unit := do
  let s ← get
  match f s.scopes with
  | (.ok (), scopes) => set { s with scopes }
  | (.error e, _) => throw e

/-- Runs a parser on a text, with the given variables in an outermost scope. -/
def onText {α : Type} (p : Parse α) (source : String) (initial : List Slot) :
    Except CompileError α :=
  let s := ParseState.start source
  (p.run { s with scopes := Scopes.push [] initial }).map (·.1)

end Parse

end BindScript
