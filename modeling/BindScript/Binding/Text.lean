/-
**Compiled bindings as text.**

The text is that of a JSON object with a member for each kind that is bound: the text of its
program, or an object with the text of a program for each entry.  Members are sorted by name, and
are read in that order.
-/

import BindScript.Binding.Kind
import BindScript.Code.Program

namespace BindScript.Bindings

def bodyToJson (separator : String) : Binding.Body Code → Json
  | .expr code => .string (code.encode separator)
  | .entries es =>
    .object (Json.sortMembers (es.map fun (name, code) => (name, .string (code.encode separator))))

def toJson (separator : String) (bindings : Bindings Code) : Json :=
  .object (Json.sortMembers (List.map (fun (kind, body) => (kind.name, bodyToJson separator body))
    bindings))

def readEntries (separator : String) (kind : Binding.Kind) :
    List (String × Json) → Except RuntimeError (Table Code)
  | [] => .ok []
  | (name, .string text) :: rest => do
      let code ← Code.decode separator text
      let entries ← readEntries separator kind rest
      return (name, code) :: entries
  | (name, _) :: _ => .error (.malformed (.bindingEntry kind.name name))

def readBody (separator : String) (kind : Binding.Kind) (j : Json) :
    Except RuntimeError (Binding.Body Code) :=
  match kind.hasEntries, j with
  | false, .string text => (Code.decode separator text).map .expr
  | true, .object members => (readEntries separator kind members).map .entries
  | _, _ => .error (.malformed (.bindingBody kind.name))

def readMembers (separator : String) : List (String × Json) → Except RuntimeError (Bindings Code)
  | [] => .ok []
  | (name, j) :: rest =>
    match Binding.Kind.ofName? name with
    | none => .error (.malformed (.bindingKind name))
    | some kind => do
        let body ← readBody separator kind j
        let bindings ← readMembers separator rest
        return (kind, body) :: bindings

/-- The bindings of an object in canonical form. -/
def ofJson (separator : String) : Json → Except RuntimeError (Bindings Code)
  | .object members => readMembers separator members
  | _ => .error (.malformed .bindingObject)

def ofText (separator text : String) : Except RuntimeError (Bindings Code) :=
  match Json.readCanonical? text with
  | some j => ofJson separator j
  | none => .error (.malformed .bindingText)

end BindScript.Bindings
