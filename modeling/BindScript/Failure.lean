/-
**Failures of commands.**

Whatever makes a command fail, be it the source, the run, a file or a JSON text, is a failure.  A
failure has a message for people, and a JSON form with a code and the details.
-/

import BindScript.CompileError
import BindScript.Json.Basic
import BindScript.RuntimeError

namespace BindScript

inductive Failure where
  | compile (e : CompileError)
  | runtime (e : RuntimeError)
  /-- Something that was asked for is not there. -/
  | notFound (what : String)
  /-- Something that was given is not allowed. -/
  | invalid (why : String)
  | file (why : String)
  /-- A JSON text could not be read, or did not have the right form. -/
  | json
  deriving DecidableEq

namespace Failure

/-- What is said of a JSON text. -/
def jsonDetail : String := "the text does not have the expected form"

def message : Failure → String
  | .compile e => e.kind.label ++ s!" error on line {e.line}: " ++ e.message
  | .runtime e => "Runtime error: " ++ e.message
  | .notFound what => s!"{what} not found"
  | .invalid why => why
  | .file why => s!"I/O error: {why}"
  | .json => s!"JSON error: {jsonDetail}"

def code : Failure → String
  | .compile _ => "CompileError"
  | .runtime _ => "RuntimeError"
  | .notFound _ => "NotFound"
  | .invalid _ => "ValidationError"
  | .file _ => "IoError"
  | .json => "JsonError"

def detail : Failure → List (String × Json)
  | .compile e =>
    [("kind", .string e.kind.label), ("line", .number (.int e.line)),
      ("message", .string e.message)]
  | .runtime e => [("message", .string e.message)]
  | .notFound what => [("what", .string what)]
  | .invalid why => [("message", .string why)]
  | .file why => [("message", .string why)]
  | .json => [("message", .string jsonDetail)]

def toJson (f : Failure) : Json :=
  .object [("code", .string f.code), ("detail", .object f.detail)]

end Failure

end BindScript
