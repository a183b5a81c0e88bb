/-
**Errors of compiling programs.**

An error is a cause with the data that its message needs, and a line of the source.  The wording of
all causes, and the kind under which a cause is reported, stand here.
-/

import BindScript.Operator
import BindScript.Text.Blank
import BindScript.Text.Search
import BindScript.Token.Basic

namespace BindScript

namespace CompileError

/-- The kinds under which errors are reported. -/
inductive Kind where
  | lexical
  | grammar
  | declaration
  | undefined
  | arity
  | type
  deriving DecidableEq

def Kind.label : Kind → String
  | .lexical => "lexical"
  | .grammar => "syntax"
  | .declaration => "declaration"
  | .undefined => "undefined"
  | .arity => "arity"
  | .type => "type"

/-- Why a source text is refused. -/
inductive Cause where
  -- characters that make no token
  | unterminatedComment
  | unterminatedString
  | invalidEscape (c : Char)
  | unrecognized (c : Char)
  | intRange (text : String)
  | malformedNumber (text : String)
  | hostNameExpected
  -- tokens in the wrong place
  | unexpectedEnd
  | expected (wanted found : Token)
  | identExpected (found : Token)
  | afterExpression (found : Token)
  | unclosedBlock
  | identAfter (name : String)
  | statementStart (found : Token)
  | fieldType (found : Token)
  | emptyRecord (name : String)
  | recordInitializer (name : String)
  | inExpression (found : Token)
  | unknownBinding (name : String)
  | repeatedBinding (name : String)
  | quotedNameExpected (found : Token)
  | repeatedEntry (name : String)
  -- declarations
  | globalType (name : String)
  | voidVariable
  | unknownType (name : String)
  | voidField (name : String)
  | repeatedField (path record : String)
  | typeNameTaken (name : String)
  | repeatedVariable (name : String)
  | variableNameTaken (name : String)
  | repeatedType (name : String)
  | noScope
  -- names that stand for nothing
  | undefinedVariable (name : String)
  | noField (record path : String)
  | unknownFunction (name : String)
  -- calls with the wrong number of arguments
  | tooMany (function : String) (most found : Nat)
  | tooFew (function : String) (least found : Nat)
  -- types that do not fit
  | notRecord (name : String) (ty : Ty)
  | parameter (place : Nat) (function : String) (wanted found : Ty)
  | variableNeeded (function : String)
  | notBool (found : Ty)
  | notNumeric (found : Ty)
  | operands (op : Operator) (left right : Ty)
  | branches (yes no : Ty)
  | condition (construct : String) (found : Ty)
  | assignment (name : String) (target found : Ty)
  deriving DecidableEq

namespace Cause

def kind : Cause → Kind
  | unterminatedComment | unterminatedString | invalidEscape _ | unrecognized _ | intRange _
  | malformedNumber _ | hostNameExpected => .lexical
  | unexpectedEnd | expected _ _ | identExpected _ | afterExpression _ | unclosedBlock
  | identAfter _ | statementStart _ | fieldType _ | emptyRecord _ | recordInitializer _
  | inExpression _ | unknownBinding _ | repeatedBinding _ | quotedNameExpected _
  | repeatedEntry _ => .grammar
  | globalType _ | voidVariable | unknownType _ | voidField _ | repeatedField _ _
  | typeNameTaken _ | repeatedVariable _ | variableNameTaken _ | repeatedType _
  | noScope => .declaration
  | undefinedVariable _ | noField _ _ | unknownFunction _ => .undefined
  | tooMany _ _ _ | tooFew _ _ _ => .arity
  | notRecord _ _ | parameter _ _ _ _ | variableNeeded _ | notBool _ | notNumeric _
  | operands _ _ _ | branches _ _ | condition _ _ | assignment _ _ _ => .type

def message : Cause → String
  | unterminatedComment => "unterminated block comment"
  | unterminatedString => "unterminated string literal"
  | invalidEscape c => "invalid escape sequence '\\" ++ String.singleton c ++ "'"
  | unrecognized c => "unrecognized character '" ++ String.singleton c ++ "'"
  | intRange text => s!"integer literal {text} is out of range"
  | malformedNumber text => s!"malformed number {text}"
  | hostNameExpected => "expected a name after '@'"
  | unexpectedEnd => "unexpected end of input"
  | expected wanted found => "expected " ++ wanted.describe ++ ", found " ++ found.describe
  | identExpected found => "expected identifier, found " ++ found.describe
  | afterExpression found => "unexpected " ++ found.describe ++ " after expression"
  | unclosedBlock => "unclosed block, expected '\x7d'"
  | identAfter name => s!"unexpected identifier after '{name}'"
  | statementStart found => "unexpected " ++ found.describe ++ " at start of statement"
  | fieldType found => "expected a field type, found " ++ found.describe
  | emptyRecord name => s!"record '{name}' has no fields"
  | recordInitializer name => s!"record variable '{name}' cannot have an initializer"
  | inExpression found => "unexpected " ++ found.describe ++ " in expression"
  | unknownBinding name => s!"unknown binding kind '{name}'"
  | repeatedBinding name => s!"binding '{name}' declared twice"
  | quotedNameExpected found => "expected a quoted name, found " ++ found.describe
  | repeatedEntry name => s!"'{name}' listed twice"
  | globalType name => s!"global '{name}' must be an int, float, string or bool"
  | voidVariable => "variables cannot be declared void"
  | unknownType name => s!"unknown type '{name}'"
  | voidField name => s!"field '{name}' cannot be void"
  | repeatedField path record => s!"duplicate field '{path}' in record '{record}'"
  | typeNameTaken name => s!"'{name}' is a type name and cannot be used as a variable"
  | repeatedVariable name => s!"variable '{name}' is already declared in this scope"
  | variableNameTaken name => s!"illegal identifier '{name}' reused as a type name"
  | repeatedType name => s!"type '{name}' is already declared in this scope"
  | noScope => "declaration outside of any block"
  | undefinedVariable name => s!"undefined variable '{name}'"
  | noField record path => s!"record '{record}' has no field '{path}'"
  | unknownFunction name => s!"unknown function '{name}'"
  | tooMany function most found =>
    s!"too many parameters for '{function}': expected at most {most}, got {found}"
  | tooFew function least found =>
    s!"too few parameters for '{function}': expected at least {least}, got {found}"
  | notRecord name ty => s!"'{name}' is a " ++ ty.name ++ ", not a record"
  | parameter place function wanted found =>
    s!"parameter {place} of '{function}' expects " ++ wanted.name ++ ", got " ++ found.name
  | variableNeeded function => s!"'{function}' needs a variable as its argument"
  | notBool found => "'!' needs a bool operand, got " ++ found.name
  | notNumeric found => "'-' needs an int or float operand, got " ++ found.name
  | operands op left right =>
    "operator '" ++ op.symbol ++ "' cannot be applied to " ++ left.name ++ " and " ++ right.name
  | branches yes no =>
    "branches of '?:' have incompatible types " ++ yes.name ++ " and " ++ no.name
  | condition construct found => s!"condition of '{construct}' must be bool, got " ++ found.name
  | assignment name target found =>
    "cannot assign " ++ found.name ++ s!" to '{name}' of type " ++ target.name

end Cause

end CompileError

/-- Why and at which line a source text is refused. -/
structure CompileError where
  cause : CompileError.Cause
  line : Nat
  deriving DecidableEq

namespace CompileError

def kind (e : CompileError) : Kind := e.cause.kind

def message (e : CompileError) : String := e.cause.message

/-- The wording of an error with its line. -/
def display (e : CompileError) : String := s!"line {e.line}: " ++ e.message

/-- The wording of an error with its kind and line, and with the text of that line below it, if the
source has it. -/
def withSource (e : CompileError) (source : String) : String :=
  let head := "[" ++ e.kind.label ++ s!"] line {e.line}: " ++ e.message
  match (Text.lines source.toList)[e.line - 1]? with
  | some text => head ++ "\n    " ++ String.ofList (Text.trimEnd text)
  | none => head

end CompileError

end BindScript
