/-
**Reading tokens one by one, with lookahead.**

A lookahead reader keeps the tokens that it has looked at but not given out.  Looking ahead changes
nothing that a later call returns, and a failure to scan a token leaves the reader where the scanner
stopped.
-/

import BindScript.Token.Scanner

namespace BindScript

/-- A scanner with the tokens that have been scanned ahead. -/
structure Lookahead where
  buffer : List Token.Located
  scanner : Scanner

namespace Lookahead

def start (source : String) : Lookahead := ⟨[], Scanner.start source⟩

/-- Scans `count` more tokens into the buffer, up to the first failure. -/
def fill : Nat → Lookahead → Except CompileError Unit × Lookahead
  | 0, r => (.ok (), r)
  | count + 1, r =>
    match r.scanner.next with
    | (.ok t, scanner) => fill count ⟨r.buffer ++ [t], scanner⟩
    | (.error e, scanner) => (.error e, { r with scanner })

/-- The token `n` places ahead of the next one. -/
def nth (n : Nat) (r : Lookahead) : Except CompileError Token.Located × Lookahead :=
  match fill (n + 1 - r.buffer.length) r with
  | (.error e, r) => (.error e, r)
  | (.ok (), r) =>
    match r.buffer[n]? with
    | some t => (.ok t, r)
    | none => (.error ⟨.unexpectedEnd, r.scanner.line⟩, r)

def peek (r : Lookahead) : Except CompileError Token.Located × Lookahead := r.nth 0

/-- The line of the next token; the current line when it cannot be scanned. -/
def line (r : Lookahead) : Nat × Lookahead :=
  match r.peek with
  | (.ok t, r') => (t.line, r')
  | (.error _, r') => (r.scanner.line, r')

def advance (r : Lookahead) : Except CompileError Token.Located × Lookahead :=
  match r.buffer with
  | t :: buffer => (.ok t, { r with buffer })
  | [] =>
    let (t, scanner) := r.scanner.next
    (t, { r with scanner })

/-- Takes the next token, which has to be `wanted`; another one is taken too. -/
def expect (wanted : Token) (r : Lookahead) : Except CompileError Token.Located × Lookahead :=
  match r.advance with
  | (.ok t, r) =>
    if t.token = wanted then (.ok t, r) else (.error ⟨.expected wanted t.token, t.line⟩, r)
  | (.error e, r) => (.error e, r)

/-- Takes the next token if it is `wanted`, and tells whether it was. -/
def optionalMatch (wanted : Token) (r : Lookahead) : Except CompileError Bool × Lookahead :=
  match r.peek with
  | (.ok t, r) =>
    if t.token = wanted then
      match r.advance with
      | (.ok _, r) => (.ok true, r)
      | (.error e, r) => (.error e, r)
    else (.ok false, r)
  | (.error e, r) => (.error e, r)

end Lookahead

end BindScript
