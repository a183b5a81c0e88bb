/-
**The text of instructions.**

| text | instruction |
|---|---|
| `n:42`, `n:2.5` | a number, an integer if it is digits with an optional sign |
| `s:text` | a string |
| `b:true`, `null` | a truth value, and null |
| `id:x`, `id:p.a` | the value of a variable or of a leaf |
| `@:ui.color` | the value of a name of the host |
| `=x` | an assignment |
| `var:x:1` | a declaration, `1` if a value follows |
| `fc:Name:2` | a call with its number of arguments |
| `if:T`, `jmp:T` | jumps |
| `?:E:T` | a choice |
| `ts##N##[…]` | a block, with its slots as JSON |
| `negate`, `+`, `and` | operators |
-/

import BindScript.Code.Instruction
import BindScript.Json.Reader
import BindScript.Json.Writer
import BindScript.RuntimeError
import BindScript.Value.Json

namespace BindScript

/-! ### Slots -/

/-- A type in JSON: the name of a primitive one, or an object with the name of a record. -/
def Ty.toJson : Ty → Json
  | .record name => .object [("record", .string name)]
  | ty => .string ty.name

def Ty.ofDraft? : Json.Draft → Option Ty
  | .object [("record", .string name)] => some (.record name)
  | d => (d.caseName? false).bind Ty.ofKeyword?

def Slot.toJson (s : Slot) : Json :=
  .object [("name", .string s.name), ("type", s.ty.toJson), ("value", s.value.toTagged),
    ("bound", .bool s.bound)]

/-- The slot of its parts. A slot is not bound unless it says so. -/
def Slot.ofParts? (name ty value : Json.Draft) (bound : Option Json.Draft) : Option Slot := do
  let name ← name.string?
  let ty ← Ty.ofDraft? ty
  let value ← Value.ofTagged? value
  match bound with
  | none => some ⟨name, ty, value, false⟩
  | some (.bool bound) => some ⟨name, ty, value, bound⟩
  | some _ => none

/-- The slot of a draft, which has the parts as members of an object or as the items of an array. -/
def Slot.ofDraft? : Json.Draft → Option Slot
  | .object members =>
    if Json.Draft.knownOnce ["name", "type", "value", "bound"] members then do
      Slot.ofParts? (← Json.Draft.field "name" members) (← Json.Draft.field "type" members)
        (← Json.Draft.field "value" members) (Json.Draft.field "bound" members)
    else none
  | .array [name, ty, value] => Slot.ofParts? name ty value none
  | .array [name, ty, value, bound] => Slot.ofParts? name ty value (some bound)
  | _ => none

def readSlots? (text : List Char) : Option (List Slot) :=
  match Json.readChars? text with
  | some (.array items) => items.mapM Slot.ofDraft?
  | _ => none

namespace Instruction

def natText (n : Nat) : List Char := Decimal.digitsOf n

def writeChars : Instruction → List Char
  | .int n => 'n' :: ':' :: (toString n.toInt).toList
  | .float x => 'n' :: ':' :: Decimal.Spelling.literal.write x
  | .string s => 's' :: ':' :: s.toList
  | .bool b => 'b' :: ':' :: (toString b).toList
  | .null => "null".toList
  | .load name => 'i' :: 'd' :: ':' :: name.toList
  | .loadHost name => '@' :: ':' :: name.toList
  | .assign name => '=' :: name.toList
  | .declare name init => "var:".toList ++ name.toList ++ [':', if init then '1' else '0']
  | .call name argc => "fc:".toList ++ name.toList ++ ':' :: natText argc
  | .jumpIfFalse target => "if:".toList ++ natText target
  | .jump target => "jmp:".toList ++ natText target
  | .select otherwise stop => "?:".toList ++ natText otherwise ++ ':' :: natText stop
  | .block count slots =>
    "ts##".toList ++ natText count ++ "##".toList ++ (Json.array (slots.map Slot.toJson)).compact
  | .negate => "negate".toList
  | .binary op => op.symbol.toList

def write (i : Instruction) : String := String.ofList i.writeChars

/-! ### Reading -/

def malformed {α : Type} (what : Malformation) : Except RuntimeError α := .error (.malformed what)

def readIndex (use : IndexUse) (text : List Char) : Except RuntimeError Nat :=
  match Decimal.readIndex? text with
  | some n => .ok n
  | none => malformed (.index use (String.ofList text))

/-- Whether a number is written as an integer. -/
def isIntLiteral (text : List Char) : Bool :=
  let digits := (Decimal.takeSign text).2
  !digits.isEmpty && digits.all Char.isDigit

def readNumber (text : List Char) : Except RuntimeError Instruction :=
  if isIntLiteral text then
    match Decimal.readInt64? text with
    | some n => .ok (.int n)
    | none => malformed (.intRange (String.ofList text))
  else
    match Decimal.readFloat? text with
    | some x => .ok (.float x)
    | none => malformed (.number (String.ofList text))

def readBool (text : List Char) : Except RuntimeError Instruction :=
  if text = "true".toList then .ok (.bool true)
  else if text = "false".toList then .ok (.bool false)
  else malformed (.bool (String.ofList text))

/-- A block. Its slots are read before its length. -/
def readBlock (whole text : List Char) : Except RuntimeError Instruction :=
  match Text.cutAtPair? ('#', '#') text with
  | none => malformed (.blockHeader (String.ofList whole))
  | some (count, slots) =>
    match readSlots? slots with
    | none => malformed .blockSlots
    | some slots => do
        let count ← readIndex .blockLength count
        return .block count slots

/-- A declaration. The mark is what follows the last colon. -/
def readDeclare (whole text : List Char) : Except RuntimeError Instruction :=
  match Text.cutAtLast? ':' text with
  | none => malformed (.declaration (String.ofList whole))
  | some (name, init) => .ok (.declare (String.ofList name) (init == ['1']))

/-- A call. The number of arguments follows the last colon. -/
def readCall (whole text : List Char) : Except RuntimeError Instruction :=
  match Text.cutAtLast? ':' text with
  | none => malformed (.call (String.ofList whole))
  | some (name, argc) => do
      let argc ← readIndex .argumentCount argc
      return .call (String.ofList name) argc

def readSelect (whole text : List Char) : Except RuntimeError Instruction :=
  match Text.cutAt? ':' text with
  | none => malformed (.select (String.ofList whole))
  | some (otherwise, stop) => do
      let otherwise ← readIndex .jumpTarget otherwise
      let stop ← readIndex .jumpTarget stop
      return .select otherwise stop

/-- The instructions that have a tag. -/
def readTagged (whole : List Char) : Except RuntimeError Instruction :=
  match whole with
  | 't' :: 's' :: '#' :: '#' :: rest => readBlock whole rest
  | 'n' :: ':' :: rest => readNumber rest
  | 's' :: ':' :: rest => .ok (.string (String.ofList rest))
  | 'b' :: ':' :: rest => readBool rest
  | 'i' :: 'd' :: ':' :: rest => .ok (.load (String.ofList rest))
  | '@' :: ':' :: rest => .ok (.loadHost (String.ofList rest))
  | 'v' :: 'a' :: 'r' :: ':' :: rest => readDeclare whole rest
  | 'f' :: 'c' :: ':' :: rest => readCall whole rest
  | 'i' :: 'f' :: ':' :: rest => (readIndex .jumpTarget rest).map .jumpIfFalse
  | 'j' :: 'm' :: 'p' :: ':' :: rest => (readIndex .jumpTarget rest).map .jump
  | '?' :: ':' :: rest => readSelect whole rest
  | '=' :: c :: rest => .ok (.assign (String.ofList (c :: rest)))
  | _ => malformed (.unknownInstruction (String.ofList whole))

def readChars (text : List Char) : Except RuntimeError Instruction :=
  if text = "null".toList then .ok .null
  else if text = "negate".toList then .ok .negate
  else
    match Operator.ofSymbol? (String.ofList text) with
    | some op => .ok (.binary op)
    | none => readTagged text

def read (text : String) : Except RuntimeError Instruction := readChars text.toList

end Instruction

end BindScript
