/-
**The catalog of built-in functions.**

Every function has a name, a signature, a category and a description.  Parameters with defaults come
last, so that arguments can be left out from the end.
-/

import BindScript.Value.Basic

namespace BindScript

inductive Builtin where
  -- conversions
  | round
  | floor
  | ceil
  | frac
  | floatToInt
  | intToFloat
  | strToInt
  | strToFloat
  | intToStr
  | floatToStr
  | boolToStr
  | strToBool
  -- strings
  | uppercase
  | lowercase
  | trim
  | pos
  | copy
  | length
  | strReplace
  | chr
  | ord
  | concat
  -- tests
  | isNumeric
  | isInteger
  | isBool
  | odd
  -- chance
  | random
  -- variables
  | inc
  | dec
  -- output
  | write
  | writeLn
  -- the binding host
  | selectedOptionId
  | selectedOptionExtraValue
  | setValue
  deriving DecidableEq

inductive Category where
  | convert
  | string
  | test
  | math
  /-- Functions that update the variable that is their argument. -/
  | reference
  /-- Functions that write output. -/
  | output
  /-- Functions that only a binding host has. -/
  | bind
  deriving DecidableEq

def Category.name : Category → String
  | .convert => "convert"
  | .string => "string"
  | .test => "test"
  | .math => "math"
  | .reference => "reference"
  | .output => "io"
  | .bind => "bind"

/-- A parameter: its type, and what it is when it is left out. -/
structure Param where
  ty : Ty
  default : Option Value

/-- What a function takes and gives. -/
structure Signature where
  ret : Ty
  params : List Param

namespace Signature

/-- A signature without defaults. -/
def plain (ret : Ty) (params : List Ty) : Signature := ⟨ret, params.map fun ty => ⟨ty, none⟩⟩

/-- The number of leading parameters without a default. -/
def required (s : Signature) : Nat := (s.params.takeWhile fun p => p.default.isNone).length

/-- The defaults of the parameters after the first `supplied`. -/
def defaultsAfter (s : Signature) (supplied : Nat) : List Value :=
  (s.params.drop supplied).filterMap (·.default)

/-- A default as a literal of the compact form. -/
def literal (v : Value) : String :=
  match v with
  | .string s => "\"" ++ s ++ "\""
  | v => v.display

/-- The compact form: the letter of the result, the letters of the parameters, and the defaults,
each after a colon. -/
def compact (s : Signature) : String :=
  let letters := (s.ret :: s.params.map (·.ty)).filterMap Ty.letter?
  String.ofList letters
    ++ String.join ((s.params.filterMap (·.default)).map fun v => ":" ++ literal v)

/-- A parameter as it is shown to readers. -/
def describeParam (p : Param) : String :=
  match p.default with
  | none => p.ty.name
  | some (.string s) => p.ty.name ++ s!" = '{s}'"
  | some v => p.ty.name ++ " = " ++ v.display

end Signature

namespace Builtin

def all : List Builtin :=
  [.round, .floor, .ceil, .frac, .floatToInt, .intToFloat, .strToInt, .strToFloat, .intToStr,
    .floatToStr, .boolToStr, .strToBool, .uppercase, .lowercase, .trim, .pos, .copy, .length,
    .strReplace, .chr, .ord, .concat, .isNumeric, .isInteger, .isBool, .odd, .random, .inc, .dec,
    .write, .writeLn, .selectedOptionId, .selectedOptionExtraValue, .setValue]

def name : Builtin → String
  | .round => "Round"
  | .floor => "Floor"
  | .ceil => "Ceil"
  | .frac => "Frac"
  | .floatToInt => "FloatToInt"
  | .intToFloat => "IntToFloat"
  | .strToInt => "StrToInt"
  | .strToFloat => "StrToFloat"
  | .intToStr => "IntToStr"
  | .floatToStr => "FloatToStr"
  | .boolToStr => "BoolToStr"
  | .strToBool => "StrToBool"
  | .uppercase => "Uppercase"
  | .lowercase => "Lowercase"
  | .trim => "Trim"
  | .pos => "Pos"
  | .copy => "Copy"
  | .length => "Length"
  | .strReplace => "StrReplace"
  | .chr => "Chr"
  | .ord => "Ord"
  | .concat => "Concat"
  | .isNumeric => "IsNumeric"
  | .isInteger => "IsInteger"
  | .isBool => "IsBool"
  | .odd => "Odd"
  | .random => "Random"
  | .inc => "Inc"
  | .dec => "Dec"
  | .write => "Write"
  | .writeLn => "WriteLn"
  | .selectedOptionId => "GetSelectedOptionId"
  | .selectedOptionExtraValue => "GetSelectedOptionExtraValue"
  | .setValue => "SetValue"

def ofName? (name : String) : Option Builtin := all.find? fun b => b.name == name

def signature : Builtin → Signature
  | .round | .floor | .ceil | .floatToInt => .plain .int [.float]
  | .frac => .plain .float [.float]
  | .intToFloat => .plain .float [.int]
  | .strToInt | .length | .ord => .plain .int [.string]
  | .strToFloat => .plain .float [.string]
  | .intToStr | .chr => .plain .string [.int]
  | .floatToStr => .plain .string [.float]
  | .boolToStr => .plain .string [.bool]
  | .strToBool | .isNumeric | .isInteger | .isBool => .plain .bool [.string]
  | .uppercase | .lowercase | .trim => .plain .string [.string]
  | .pos => ⟨.int, [⟨.string, none⟩, ⟨.string, none⟩, ⟨.int, some (.int 0)⟩]⟩
  | .copy => .plain .string [.string, .int, .int]
  | .strReplace => .plain .string [.string, .string, .string]
  | .concat =>
    ⟨.string, List.replicate 2 ⟨.string, none⟩ ++ List.replicate 8 ⟨.string, some (.string "")⟩⟩
  | .odd => .plain .bool [.float]
  | .random => .plain .int [.int]
  | .inc | .dec => .plain .void [.int]
  | .write => .plain .void [.string]
  | .writeLn => ⟨.void, [⟨.string, some (.string "")⟩]⟩
  | .selectedOptionId => .plain .string [.string, .string]
  | .selectedOptionExtraValue => .plain .string [.string, .string, .int]
  | .setValue => .plain .void [.string, .string, .string]

def category : Builtin → Category
  | .round | .floor | .ceil | .frac | .floatToInt | .intToFloat | .strToInt | .strToFloat
  | .intToStr | .floatToStr | .boolToStr | .strToBool => .convert
  | .uppercase | .lowercase | .trim | .pos | .copy | .length | .strReplace | .chr | .ord
  | .concat => .string
  | .isNumeric | .isInteger | .isBool | .odd => .test
  | .random => .math
  | .inc | .dec => .reference
  | .write | .writeLn => .output
  | .selectedOptionId | .selectedOptionExtraValue | .setValue => .bind

def description : Builtin → String
  | .round => "Round to the nearest integer"
  | .floor => "Round down to an integer"
  | .ceil => "Round up to an integer"
  | .frac => "Fractional part, keeping the sign"
  | .floatToInt => "Truncate a float towards zero"
  | .intToFloat => "Widen an int to a float"
  | .strToInt => "Parse the leading integer of a string, 0 if none"
  | .strToFloat => "Parse the leading number of a string, 0.0 if none"
  | .intToStr => "Format an int"
  | .floatToStr => "Format a float"
  | .boolToStr => "\"true\" or \"false\""
  | .strToBool => "True for \"true\" (any case) or \"1\""
  | .uppercase => "Upper-case copy"
  | .lowercase => "Lower-case copy"
  | .trim => "Strip leading and trailing whitespace"
  | .pos => "Index of needle in haystack from offset, -1 if absent"
  | .copy => "Substring from a 0-based start, at most count characters"
  | .length => "Number of characters"
  | .strReplace => "Replace every search with replace in subject"
  | .chr => "Character for a code point"
  | .ord => "Code point of the first character, 0 if empty"
  | .concat => "Join up to ten strings"
  | .isNumeric => "Whether the string is a decimal number, optionally with an exponent"
  | .isInteger => "Whether the string is an optionally signed integer"
  | .isBool => "Whether the string is true, false (any case), 1 or 0"
  | .odd => "Whether the rounded value is odd"
  | .random => "Uniform random int in [0, n)"
  | .inc => "Increment an int variable in place"
  | .dec => "Decrement an int variable in place"
  | .write => "Append text to the output buffer"
  | .writeLn => "Append text and a newline to the output buffer"
  | .selectedOptionId => "Selected option id of container.key"
  | .selectedOptionExtraValue => "Extra value at index of the selected option"
  | .setValue => "Overwrite the value of container.key"

/-- Whether the argument is a variable to be updated. -/
def takesReference (b : Builtin) : Bool := b.category == .reference

/-- Whether only a binding host has the function. -/
def needsHost (b : Builtin) : Bool := b.category == .bind

/-- Whether the function depends on its arguments alone, chance apart. -/
def isPure (b : Builtin) : Bool :=
  !(b.category == .reference || b.category == .bind || b.category == .output)

/-- The signature as it is shown to readers, `Pos(string, string, int = 0) -> int`. -/
def describe (b : Builtin) : String :=
  let params := b.signature.params.map Signature.describeParam
  b.name ++ "(" ++ ", ".intercalate params ++ ") -> " ++ b.signature.ret.name

end Builtin

end BindScript
