/-
**Values and JSON.**

There are two JSON forms.  The plain form is for exchange with the outside: scalars become scalars,
a record an object sorted by path, and what has no value `null`; only scalars are read back.  The
tagged form keeps everything: an object with the kind of the value and, unless there is none, its
content.  It is also read from an array of both.
-/

import BindScript.Decimal.Reader
import BindScript.Json.Draft
import BindScript.Value.Basic

namespace BindScript.Value

/-! ### The plain form -/

mutual

/-- The plain form of a value. -/
def toJson : Value → Json
  | .void | .null => .null
  | .int n => .number (.int n.toInt)
  | .float x => .number (.float x)
  | .string s => .string s
  | .bool b => .bool b
  | .record leaves => .object (Json.sortMembers (leavesToJson leaves))

def leavesToJson : List (String × Value) → List (String × Json)
  | [] => []
  | (path, v) :: rest => (path, v.toJson) :: leavesToJson rest

end

/-- The value of a scalar. An integer that does not fit 64 signed bits is a double. -/
def ofJson? : Json → Option Value
  | .null => some .null
  | .bool b => some (.bool b)
  | .number (.int n) =>
    match Decimal.toInt64? n with
    | some m => some (.int m)
    | none => some (.float (Decimal.floatOfInt n))
  | .number (.float x) => some (.float x)
  | .string s => some (.string s)
  | .array _ | .object _ => none

/-! ### The tagged form -/

/-- An object with a kind and a content. -/
def tagged (kind : Kind) (content : Json) : Json :=
  .object [("kind", .string kind.name), ("value", content)]

mutual

/-- The tagged form of a value. -/
def toTagged : Value → Json
  | .void => .object [("kind", .string "void")]
  | .null => .object [("kind", .string "null")]
  | .int n => tagged .int (.number (.int n.toInt))
  | .float x => tagged .float (.number (.float x))
  | .string s => tagged .string (.string s)
  | .bool b => tagged .bool (.bool b)
  | .record leaves => tagged .record (.object (leavesToTagged leaves))

def leavesToTagged : List (String × Value) → List (String × Json)
  | [] => []
  | (path, v) :: rest => (path, v.toTagged) :: leavesToTagged rest

end

/-- The kind in the tagged form with these members, and whether its content comes before it. There
are one kind, at most one content, and whatever else. -/
def kindOf? (kept : Bool) (members : List (String × Json.Draft)) : Option (String × Bool) :=
  match members.filter fun m => m.1 == "kind" || m.1 == "value" with
  | [("kind", kind)] => (kind.caseName? kept).map (·, false)
  | [("kind", kind), ("value", _)] => (kind.caseName? kept).map (·, false)
  | [("value", _), ("kind", kind)] => (kind.caseName? kept).map (·, true)
  | _ => none

/-- The value of a kind without a content. -/
def ofKind? : String → Option Value
  | "void" => some .void
  | "null" => some .null
  | _ => none

/-- The value of a kind and a content that has no parts. -/
def ofScalar? : String → Json.Draft → Option Value
  | "void", .null => some .void
  | "null", .null => some .null
  | "int", .number (.int n) => (Decimal.toInt64? n).map .int
  | "float", .number (.int n) => some (.float (Decimal.floatOfInt n))
  | "float", .number (.float x) => some (.float x)
  | "string", .string s => some (.string s)
  | "bool", .bool b => some (.bool b)
  | _, _ => none

mutual

/-- The value of a tagged form, which may be part of something that was kept. -/
def ofTaggedPart? : Bool → Json.Draft → Option Value
  | kept, .object members =>
    match kindOf? kept members with
    | none => none
    | some (kind, contentFirst) => ofMembers? kept contentFirst kind members
  | kept, .array [kind, content] =>
    match kind.caseName? kept with
    | none => none
    | some kind => ofContent? kept kind content
  | _, _ => none

/-- The value of a kind with the content among these members. A content that comes before its kind
is kept until the kind is known, and has to be usable as a whole. -/
def ofMembers? : Bool → Bool → String → List (String × Json.Draft) → Option Value
  | _, _, kind, [] => ofKind? kind
  | kept, contentFirst, kind, (name, d) :: rest =>
    if name = "value" then
      if contentFirst && !d.isUsable then none else ofContent? (kept || contentFirst) kind d
    else ofMembers? kept contentFirst kind rest

/-- The value of a kind with a content. -/
def ofContent? : Bool → String → Json.Draft → Option Value
  | kept, kind, .object members =>
    if kind = "record" then (ofLeaves? kept members).map fun leaves => .record (Table.ofList leaves)
    else none
  | _, kind, d => ofScalar? kind d

/-- The leaves of a record, each with the value of its tagged form. -/
def ofLeaves? : Bool → List (String × Json.Draft) → Option (List (String × Value))
  | _, [] => some []
  | kept, (path, d) :: rest =>
    match ofTaggedPart? kept d, ofLeaves? kept rest with
    | some v, some leaves => some ((path, v) :: leaves)
    | _, _ => none

end

/-- The value of a tagged form. Of leaves with one path the last counts, in the place of the
first. -/
def ofTagged? (d : Json.Draft) : Option Value := ofTaggedPart? false d

end BindScript.Value
