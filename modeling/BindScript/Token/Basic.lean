/-
**Tokens.**
-/

import BindScript.Decimal.Spelling
import BindScript.Ty

namespace BindScript

inductive Keyword where
  | ifThen
  | orElse
  | whileLoop
  | record
  | int
  | float
  | string
  | bool
  | void
  deriving DecidableEq

namespace Keyword

def all : List Keyword :=
  [.ifThen, .orElse, .whileLoop, .record, .int, .float, .string, .bool, .void]

def spelling : Keyword → String
  | .ifThen => "if"
  | .orElse => "else"
  | .whileLoop => "while"
  | .record => "record"
  | .int => "int"
  | .float => "float"
  | .string => "string"
  | .bool => "bool"
  | .void => "void"

def ofSpelling? (word : String) : Option Keyword := all.find? fun k => k.spelling == word

/-- The primitive type that a word names. -/
def ty? : Keyword → Option Ty
  | .int => some .int
  | .float => some .float
  | .string => some .string
  | .bool => some .bool
  | .void => some .void
  | _ => none

end Keyword

/-- A punctuation mark or an operator. -/
inductive Mark where
  | eqEq
  | ne
  | ge
  | le
  | and
  | or
  | plus
  | minus
  | star
  | slash
  | gt
  | lt
  | eq
  | bang
  | question
  | colon
  | semicolon
  | comma
  | dot
  | openParen
  | closeParen
  | openBrace
  | closeBrace
  deriving DecidableEq

namespace Mark

def spelling : Mark → String
  | .eqEq => "=="
  | .ne => "!="
  | .ge => ">="
  | .le => "<="
  | .and => "&&"
  | .or => "||"
  | .plus => "+"
  | .minus => "-"
  | .star => "*"
  | .slash => "/"
  | .gt => ">"
  | .lt => "<"
  | .eq => "="
  | .bang => "!"
  | .question => "?"
  | .colon => ":"
  | .semicolon => ";"
  | .comma => ","
  | .dot => "."
  | .openParen => "("
  | .closeParen => ")"
  | .openBrace => "\x7b"
  | .closeBrace => "\x7d"

def ofPair? : Char → Char → Option Mark
  | '=', '=' => some .eqEq
  | '!', '=' => some .ne
  | '>', '=' => some .ge
  | '<', '=' => some .le
  | '&', '&' => some .and
  | '|', '|' => some .or
  | _, _ => none

def ofChar? : Char → Option Mark
  | '+' => some .plus
  | '-' => some .minus
  | '*' => some .star
  | '/' => some .slash
  | '>' => some .gt
  | '<' => some .lt
  | '=' => some .eq
  | '!' => some .bang
  | '?' => some .question
  | ':' => some .colon
  | ';' => some .semicolon
  | ',' => some .comma
  | '.' => some .dot
  | '(' => some .openParen
  | ')' => some .closeParen
  | '{' => some .openBrace
  | '}' => some .closeBrace
  | _ => none

end Mark

inductive Token where
  | int (n : Int64)
  | float (x : Float)
  | string (s : String)
  | bool (b : Bool)
  | null
  | ident (name : String)
  /-- A name that the host resolves, without its leading `@`. -/
  | hostName (name : String)
  | keyword (k : Keyword)
  | mark (m : Mark)
  | eof
  deriving DecidableEq

namespace Token

/-- How messages name a token. -/
def describe : Token → String
  | .int n => toString n.toInt
  | .float x => String.ofList (Decimal.Spelling.literal.write x)
  | .string s => "\"" ++ s ++ "\""
  | .bool b => toString b
  | .null => "null"
  | .ident name => s!"identifier '{name}'"
  | .hostName name => s!"@{name}"
  | .keyword k => "'" ++ k.spelling ++ "'"
  | .mark m => "'" ++ m.spelling ++ "'"
  | .eof => "end of input"

/-- A token with the line on which it begins. Lines are counted from one. -/
structure Located where
  token : Token
  line : Nat
  deriving DecidableEq

end Token

end BindScript
