/-
**Scanning source text.**

A scanner is what is left of the text together with the current line.  A token is read after a gap
of blanks and comments.  When no token can be read the scanner still has a well-defined next state,
from which reading can go on: after an unfinished string or number, after the `@` of a missing name,
and at an unknown character or a wrong escape itself.
-/

import BindScript.CompileError
import BindScript.Decimal.Reader

namespace BindScript

/-- What is left of a source text, and the line at which it begins. -/
structure Scanner where
  rest : List Char
  line : Nat

namespace Scanner

def start (source : String) : Scanner := ⟨source.toList, 1⟩

/-! ### Gaps -/

/-- Where in a gap the scanner is. -/
inductive Gap where
  | blank
  /-- In a comment that ends with its line. -/
  | lineComment
  /-- In a comment with an end of its own, begun at this line. -/
  | blockComment (start : Nat)

/-- Skips blanks and comments. The first component is the line of a comment that is not closed. -/
def skipGap : Gap → Nat → List Char → Option Nat × Scanner
  | .blank, line, [] => (none, ⟨[], line⟩)
  | .blank, line, '\n' :: cs => skipGap .blank (line + 1) cs
  | .blank, line, ' ' :: cs => skipGap .blank line cs
  | .blank, line, '\t' :: cs => skipGap .blank line cs
  | .blank, line, '\r' :: cs => skipGap .blank line cs
  | .blank, line, '/' :: '/' :: cs => skipGap .lineComment line cs
  | .blank, line, '/' :: '*' :: cs => skipGap (.blockComment line) line cs
  | .blank, line, c :: cs => (none, ⟨c :: cs, line⟩)
  | .lineComment, line, [] => (none, ⟨[], line⟩)
  | .lineComment, line, '\n' :: cs => skipGap .blank (line + 1) cs
  | .lineComment, line, _ :: cs => skipGap .lineComment line cs
  | .blockComment start, line, [] => (some start, ⟨[], line⟩)
  | .blockComment _, line, '*' :: '/' :: cs => skipGap .blank line cs
  | .blockComment start, line, '\n' :: cs => skipGap (.blockComment start) (line + 1) cs
  | .blockComment start, line, _ :: cs => skipGap (.blockComment start) line cs

/-! ### Strings -/

/-- The character that a letter after a backslash stands for. Double quotes know more of them than
single quotes. -/
def escape? (quote : Char) (c : Char) : Option Char :=
  if c = '\\' then some '\\'
  else if c = quote then some quote
  else if quote = '"' then
    match c with
    | 'n' => some '\n'
    | 't' => some '\t'
    | 'r' => some '\r'
    | '0' => some (Char.ofNat 0)
    | _ => none
  else none

/-- Puts a character in front of a text that has been read. -/
def pushFront (c : Char) (r : Except CompileError.Cause (List Char) × List Char) :
    Except CompileError.Cause (List Char) × List Char :=
  (r.1.map (c :: ·), r.2)

/-- The text up to a closing quote, and what is left. A string ends on its line. -/
def readQuoted (quote : Char) : List Char → Except CompileError.Cause (List Char) × List Char
  | [] => (.error .unterminatedString, [])
  | '\n' :: cs => (.error .unterminatedString, cs)
  | ['\\'] => (.error .unterminatedString, [])
  | '\\' :: e :: cs =>
    match escape? quote e with
    | some c => pushFront c (readQuoted quote cs)
    | none => (.error (.invalidEscape e), e :: cs)
  | c :: cs => if c = quote then (.ok [], cs) else pushFront c (readQuoted quote cs)

/-! ### Numbers and words -/

def isNumberChar (c : Char) : Bool := c.isDigit || c == '.'

/-- The token of a run of digits and points. -/
def numberToken (text : List Char) : Except CompileError.Cause Token :=
  match text.count '.' with
  | 0 =>
    match Decimal.readInt64? text with
    | some n => .ok (.int n)
    | none => .error (.intRange (String.ofList text))
  | 1 =>
    match Decimal.readFloat? text with
    | some x => .ok (.float x)
    | none => .error (.malformedNumber (String.ofList text))
  | _ => .error (.malformedNumber (String.ofList text))

def isWordChar (c : Char) : Bool := c.isAlphanum || c == '_'

/-- The token of a name: a reserved word, one of three constants in any case, or an identifier. -/
def wordToken (word : List Char) : Token :=
  match Keyword.ofSpelling? (String.ofList word) with
  | some k => .keyword k
  | none =>
    if Text.eqIgnoringCase word "true".toList then .bool true
    else if Text.eqIgnoringCase word "false".toList then .bool false
    else if Text.eqIgnoringCase word "null".toList then .null
    else .ident (String.ofList word)

/-- A dotted name, and what is left. A point belongs to the name only if a letter follows it. -/
def readPath : List Char → List Char × List Char
  | [] => ([], [])
  | c :: cs =>
    if isWordChar c || (c == '.' && cs.head?.any Char.isAlpha) then
      let (name, rest) := readPath cs
      (c :: name, rest)
    else ([], c :: cs)

/-! ### Tokens -/

/-- The token at the start of a text that does not begin with a gap, and what is left. -/
def readToken : List Char → Except CompileError.Cause Token × List Char
  | [] => (.ok .eof, [])
  | c :: cs =>
    if c = '"' ∨ c = '\'' then
      let (text, rest) := readQuoted c cs
      (text.map fun s => .string (String.ofList s), rest)
    else if c.isDigit then
      (numberToken ((c :: cs).takeWhile isNumberChar), (c :: cs).dropWhile isNumberChar)
    else if c.isAlpha then
      (.ok (wordToken ((c :: cs).takeWhile isWordChar)), (c :: cs).dropWhile isWordChar)
    else if c = '@' then
      if cs.head?.any Char.isAlpha then
        let (name, rest) := readPath cs
        (.ok (.hostName (String.ofList name)), rest)
      else (.error .hostNameExpected, cs)
    else
      match cs.head?.bind (Mark.ofPair? c) with
      | some m => (.ok (.mark m), cs.drop 1)
      | none =>
        match Mark.ofChar? c with
        | some m => (.ok (.mark m), cs)
        | none => (.error (.unrecognized c), c :: cs)

/-- The next token, or why there is none, and the scanner after it. -/
def next (s : Scanner) : Except CompileError Token.Located × Scanner :=
  match skipGap .blank s.line s.rest with
  | (some line, after) => (.error ⟨.unterminatedComment, line⟩, after)
  | (none, ⟨rest, line⟩) =>
    match readToken rest with
    | (.ok token, rest) => (.ok ⟨token, line⟩, ⟨rest, line⟩)
    | (.error cause, rest) => (.error ⟨cause, line⟩, ⟨rest, line⟩)

end Scanner

/-! ### Whole texts -/

/-- The tokens of a text as far as they can be read: those before the end, and how it ends, with the
line of the end of the text or with an error. -/
structure TokenRun where
  tokens : List Token.Located
  ending : Except CompileError Nat

namespace TokenRun

def cons (t : Token.Located) (run : TokenRun) : TokenRun := { run with tokens := t :: run.tokens }

/-- The tokens that a scanner reads in at most `fuel` steps. -/
def ofScanner : Nat → Scanner → TokenRun
  | 0, s => ⟨[], .ok s.line⟩
  | fuel + 1, s =>
    match s.next with
    | (.error e, _) => ⟨[], .error e⟩
    | (.ok t, s') => if t.token = .eof then ⟨[], .ok t.line⟩ else cons t (ofScanner fuel s')

/-- The tokens of a text. Every token takes at least one character. -/
def ofText (source : String) : TokenRun :=
  let s := Scanner.start source
  ofScanner (s.rest.length + 1) s

end TokenRun

/-- All tokens of a text, the end of the text as the last one. -/
def lex (source : String) : Except CompileError (List Token.Located) :=
  let run := TokenRun.ofText source
  run.ending.map fun line => run.tokens ++ [⟨.eof, line⟩]

end BindScript
