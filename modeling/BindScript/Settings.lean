/-
**Settings of runs.**

Settings are kept in a JSON file.  A setting that the file leaves out has its default, and without a
file all have.
-/

import BindScript.Code.Program
import BindScript.File

namespace BindScript

structure Settings where
  /-- The time that a program may take; nothing means no limit. -/
  timeLimit : Duration := ⟨1000⟩
  separator : String := defaultSeparator
  /-- Whether what a program wrote is shown. -/
  echoOutput : Bool := true
  deriving DecidableEq

namespace Settings

/-- The settings with a default for everything. -/
def standard : Settings := {}

def toJson (s : Settings) : Json :=
  .object [("time_limit_ms", .number (.int s.timeLimit.milliseconds)),
    ("separator", .string s.separator), ("echo_output", .bool s.echoOutput)]

def text (s : Settings) : String := String.ofList s.toJson.indented

/-- A number of milliseconds. -/
def readLimit? : Json.Draft → Option Duration
  | .number (.int n) => if 0 ≤ n then some ⟨n.toNat⟩ else none
  | _ => none

def readFlag? : Json.Draft → Option Bool
  | .bool b => some b
  | _ => none

/-- A member that may be left out. -/
def optional {α : Type} (read? : Json.Draft → Option α) (default : α)
    (member : Option Json.Draft) : Option α :=
  match member with
  | none => some default
  | some j => read? j

def ofDraft? : Json.Draft → Option Settings
  | .object members => do
      if !Json.Draft.knownOnce ["time_limit_ms", "separator", "echo_output"] members then none
      let timeLimit ← optional readLimit? standard.timeLimit
        (Json.Draft.field "time_limit_ms" members)
      let separator ← optional Json.Draft.string? standard.separator
        (Json.Draft.field "separator" members)
      let echoOutput ← optional readFlag? standard.echoOutput
        (Json.Draft.field "echo_output" members)
      return { timeLimit, separator, echoOutput }
  | _ => none

def ofText? (text : String) : Option Settings := (Json.readDraft? text).bind ofDraft?

/-- The settings of a file, or the standard ones if there is none. The separator has to be one that
can be used. -/
def load (file : File) : Except Failure Settings :=
  match file with
  | .absent _ => .ok standard
  | file =>
    match file.read with
    | .error why => .error (.file why)
    | .ok text =>
      match ofText? text with
      | none => .error .json
      | some s =>
        match checkSeparator s.separator with
        | .ok _ => .ok s
        | .error e => .error (.runtime e)

end Settings

end BindScript
