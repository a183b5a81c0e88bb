/-
**Configuration snapshots.**

A snapshot is a list of entries.  An entry belongs to a container, has a key in it and holds a
value; an entry for a list of options can also hold the option that is selected.  Of several entries
with one container and key only the first counts.
-/

import BindScript.Json.Reader
import BindScript.Json.Writer

namespace BindScript

namespace Snapshot

structure LocalText where
  lang : String
  text : String
  deriving DecidableEq

inductive Content where
  | text (s : String)
  | flag (b : Bool)
  | number (n : Json.Number)
  | localized (ts : List LocalText)
  deriving DecidableEq

/-- The content as a text; of texts in several languages the first. -/
def Content.asText : Content → String
  | .text s => s
  | .flag b => if b then "true" else "false"
  | .number n => String.ofList n.write
  | .localized ts => (ts.head?.map (·.text)).getD ""

structure Selection where
  id : String
  extraValues : List String
  deriving DecidableEq

structure Entry where
  container : String
  key : String
  value : Content
  selected : Option Selection
  deriving DecidableEq

/-- Whether an entry has a container and a key. -/
def Entry.isAt (container key : String) (e : Entry) : Bool :=
  e.container == container && e.key == key

end Snapshot

abbrev Snapshot := List Snapshot.Entry

namespace Snapshot

/-- The first entry with a container and a key. -/
def find? (container key : String) (s : Snapshot) : Option Entry :=
  List.find? (Entry.isAt container key) s

/-- The snapshot with a text in the first entry with a container and a key, if there is one. -/
def setText (container key text : String) : Snapshot → Snapshot
  | [] => []
  | e :: rest =>
    if e.isAt container key then { e with value := .text text } :: rest
    else e :: setText container key text rest

/-! ### Writing -/

def Content.toJson : Content → Json
  | .text s => .string s
  | .flag b => .bool b
  | .number n => .number n
  | .localized ts =>
    .array (ts.map fun t => .object [("lang", .string t.lang), ("text", .string t.text)])

def Selection.toJson (s : Selection) : Json :=
  .object [("id", .string s.id), ("extraValues", .array (s.extraValues.map .string))]

/-- The JSON value of an entry. Nothing is written for an option that is not selected. -/
def Entry.toJson (e : Entry) : Json :=
  .object ([("container", .string e.container), ("key", .string e.key),
    ("value", e.value.toJson)] ++
    (e.selected.map fun s => ("selectedOption", s.toJson)).toList)

def toJson (s : Snapshot) : Json := .array (List.map Entry.toJson s)

/-! ### Reading -/

/-- The member of a name, which has to be a string. -/
def stringField? (name : String) (members : List (String × Json.Draft)) : Option String :=
  (Json.Draft.field name members).bind Json.Draft.string?

/-- The text in a language of an object. The language may be left out. -/
def LocalText.ofDraft? : Json.Draft → Option LocalText
  | .object members => do
      if !Json.Draft.knownOnce ["lang", "text"] members then none
      let lang ← match Json.Draft.field "lang" members with
        | none => some ""
        | some j => j.string?
      let text ← stringField? "text" members
      return ⟨lang, text⟩
  | _ => none

/-- The content of a draft, which has to be usable as a whole. -/
def Content.ofDraft? (d : Json.Draft) : Option Content :=
  if !d.isUsable then none
  else
    match d with
    | .string s => some (.text s)
    | .bool b => some (.flag b)
    | .number n => some (.number n)
    | .array items => (items.mapM LocalText.ofDraft?).map .localized
    | .null | .object _ | .unusable => none

/-- The selected option of an object. The extra values may be left out. -/
def Selection.ofDraft? : Json.Draft → Option Selection
  | .object members => do
      if !Json.Draft.knownOnce ["id", "extraValues"] members then none
      let id ← stringField? "id" members
      let extraValues ← match Json.Draft.field "extraValues" members with
        | none => some []
        | some (.array items) => items.mapM Json.Draft.string?
        | some _ => none
      return ⟨id, extraValues⟩
  | _ => none

/-- The entry of an object. Container and key have to be there; a value that is left out is the
empty text. -/
def Entry.ofDraft? : Json.Draft → Option Entry
  | .object members => do
      if !Json.Draft.knownOnce ["container", "key", "value", "selectedOption"] members then none
      let container ← stringField? "container" members
      let key ← stringField? "key" members
      let value ← match Json.Draft.field "value" members with
        | none => some (.text "")
        | some j => Content.ofDraft? j
      let selected ← match Json.Draft.field "selectedOption" members with
        | none | some .null => some none
        | some j => (Selection.ofDraft? j).map some
      return ⟨container, key, value, selected⟩
  | _ => none

def ofDraft? : Json.Draft → Option Snapshot
  | .array items => items.mapM Entry.ofDraft?
  | _ => none

def ofText? (text : String) : Option Snapshot := (Json.readDraft? text).bind ofDraft?

end Snapshot

end BindScript
