/-
**Errors of running programs.**

An error is a cause with the data that its message needs; the wording stands in one place.
-/

import BindScript.Duration
import BindScript.Operator
import BindScript.Value.Basic

namespace BindScript

/-- What a position in the text of an instruction is for. -/
inductive IndexUse where
  | blockLength
  | argumentCount
  | jumpTarget
  deriving DecidableEq

def IndexUse.words : IndexUse → String
  | .blockLength => "block length"
  | .argumentCount => "argument count"
  | .jumpTarget => "jump target"

/-- What can be wrong with a program or with its text. -/
inductive Malformation where
  | emptySeparator
  | backslashSeparator
  | blockHeader (text : String)
  | blockSlots
  | index (use : IndexUse) (text : String)
  | intRange (text : String)
  | number (text : String)
  | bool (text : String)
  | declaration (text : String)
  | call (text : String)
  | select (text : String)
  | unknownInstruction (text : String)
  | unexpectedEnd
  | misplaced (text : String)
  | orphanDeclaration (name : String)
  | bindingText
  | bindingObject
  | bindingKind (name : String)
  | bindingBody (kind : String)
  | bindingEntry (kind entry : String)
  deriving DecidableEq

def Malformation.message : Malformation → String
  | .emptySeparator => "separator must not be empty"
  | .backslashSeparator => "separator must not start with '\\'"
  | .blockHeader text => s!"bad block header '{text}'"
  | .blockSlots => "bad block slots: not a list of slots"
  | .index use text => "bad " ++ use.words ++ s!" '{text}'"
  | .intRange text => s!"int out of range '{text}'"
  | .number text => s!"bad number '{text}'"
  | .bool text => s!"bad bool '{text}'"
  | .declaration text => s!"bad declaration '{text}'"
  | .call text => s!"bad call '{text}'"
  | .select text => s!"bad select '{text}'"
  | .unknownInstruction text => s!"unknown instruction '{text}'"
  | .unexpectedEnd => "unexpected end of program"
  | .misplaced text => s!"'{text}' cannot appear inside an expression"
  | .orphanDeclaration name => s!"declaration of '{name}' outside a block"
  | .bindingText => "binding program: not a JSON text"
  | .bindingObject => "binding program must be an object"
  | .bindingKind name => s!"unknown binding kind '{name}'"
  | .bindingBody kind => s!"unexpected body for binding '{kind}'"
  | .bindingEntry kind entry => s!"'{kind}.{entry}' must be a string"

/-- What can be wrong with an argument of the right type. -/
inductive ArgumentFault where
  | notVariable
  | doesNotFit (x : Float)
  | outOfRange (text : String)
  | notCharacter (code : Int)
  | nonPositiveBound (n : Int)
  | missing (place : Nat)
  deriving DecidableEq

def ArgumentFault.message : ArgumentFault → String
  | .notVariable => "argument must be a variable"
  | .doesNotFit x => String.ofList (Decimal.Spelling.display.write x) ++ " does not fit in an int"
  | .outOfRange text => s!"'{text}' is out of range"
  | .notCharacter code => s!"{code} is not a character"
  | .nonPositiveBound n => s!"upper bound must be positive, got {n}"
  | .missing place => s!"missing argument {place}"

/-- What an operation wanted of a value. -/
inductive Demand where
  | int
  | float
  | string
  | bool
  | number
  deriving DecidableEq

def Demand.words : Demand → String
  | .int => "int"
  | .float => "float"
  | .string => "string"
  | .bool => "bool"
  | .number => "int or float"

/-- Why a program stopped. -/
inductive RuntimeError where
  | unknownFunction (name : String)
  | timeout (limit : Duration)
  | undefinedVariable (name : String)
  | divisionByZero
  /-- An integer result outside 64 bits, in an operator or a function of that name. -/
  | overflow (operation : String)
  | wrongKind (wanted : Demand) (found : Value.Kind)
  | wrongOperands (op : Operator) (left right : Value.Kind)
  | invalidArgument (function : String) (fault : ArgumentFault)
  | arity (name : String) (expected found : Nat)
  | malformed (what : Malformation)
  | invalidJumpTarget (target length : Nat)
  | unsupported (what : String)
  | notConstant (what : String)
  deriving DecidableEq

def RuntimeError.message : RuntimeError → String
  | .unknownFunction name => s!"unknown function '{name}'"
  | .timeout limit => "execution time limit of " ++ limit.text ++ " exceeded"
  | .undefinedVariable name => s!"undefined variable '{name}'"
  | .divisionByZero => "division by zero"
  | .overflow operation => s!"integer overflow in '{operation}'"
  | .wrongKind wanted found => "expected " ++ wanted.words ++ ", found " ++ found.name
  | .wrongOperands op left right =>
    "expected operands for '" ++ op.symbol ++ "', found " ++ left.name ++ " and " ++ right.name
  | .invalidArgument function fault => s!"invalid argument to '{function}': " ++ fault.message
  | .arity name expected found => s!"'{name}' expects {expected} arguments, got {found}"
  | .malformed what => "malformed bytecode: " ++ what.message
  | .invalidJumpTarget target length =>
    s!"jump target {target} is outside the program ({length} instructions)"
  | .unsupported what => s!"'{what}' is only available inside a binding"
  | .notConstant what => s!"'{what}' cannot be evaluated outside a running program"

end BindScript
