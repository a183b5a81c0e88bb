/-
**Programs as text.**

The instructions are joined by a separator, which may be any text that does not begin with a
backslash. A program that is read is also validated: every jump lands in the program or just past
its end, the second value of a choice lies after the choice and not past its end, and every block
fits.
-/

import BindScript.Code.Text
import BindScript.Text.Escaped

namespace BindScript

/-- The separator that is used when none is given. -/
def defaultSeparator : String := "||"

/-- The first character of a separator that can be used. -/
def checkSeparator (separator : String) : Except RuntimeError Char :=
  match separator.toList with
  | [] => .error (.malformed .emptySeparator)
  | '\\' :: _ => .error (.malformed .backslashSeparator)
  | c :: _ => .ok c

namespace Code

def encodeChars (separator : List Char) (code : Code) : List Char :=
  Text.Escaped.join separator (separator.headD '\\') (code.map Instruction.writeChars)

def encode (separator : String) (code : Code) : String :=
  String.ofList (encodeChars separator.toList code)

/-- Whether a position lies in a program of a length, or just past its end. -/
def checkTarget (length target : Nat) : Except RuntimeError Unit :=
  if target ≤ length then .ok () else .error (.invalidJumpTarget target length)

/-- Whether the positions that the instruction at a place names are right. -/
def checkInstruction (length place : Nat) : Instruction → Except RuntimeError Unit
  | .jumpIfFalse target | .jump target => checkTarget length target
  | .select otherwise stop => do
      checkTarget length stop
      if stop < otherwise ∨ otherwise ≤ place then .error (.invalidJumpTarget otherwise length)
      else .ok ()
  | .block count _ => checkTarget length (advance (place + 1) count)
  | _ => .ok ()

/-- The first wrong position in the instructions from a place on. -/
def validateFrom (length : Nat) : Nat → Code → Except RuntimeError Unit
  | _, [] => .ok ()
  | place, i :: rest => do
      checkInstruction length place i
      validateFrom length (place + 1) rest

def validate (code : Code) : Except RuntimeError Unit := validateFrom code.length 0 code

def readPieces : List (List Char) → Except RuntimeError Code
  | [] => .ok []
  | piece :: pieces => do
      let i ← Instruction.readChars piece
      let rest ← readPieces pieces
      return i :: rest

/-- The program of a text. The empty text is the empty program. -/
def decode (separator text : String) : Except RuntimeError Code := do
  let _ ← checkSeparator separator
  if text.isEmpty then return []
  let code ← readPieces (Text.Escaped.split separator.toList text.toList)
  code.validate
  return code

/-- A number on the right of a column of four. -/
def column (n : Nat) : String :=
  let digits := Decimal.digitsOf n
  String.ofList (List.replicate (4 - digits.length) ' ' ++ digits)

/-- One line for each instruction, with its position. -/
def listing (code : Code) : String :=
  String.join (code.zipIdx.map fun (i, n) => column n ++ "  " ++ i.write ++ "\n")

end Code

end BindScript
