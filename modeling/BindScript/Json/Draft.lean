/-
**Drafts of JSON values.**

A text can be well formed and still hold parts that cannot be used: a number too great for a double,
a string with one half of a surrogate pair, an array in too many others.  This does no harm in a
member that is passed over because nobody knows its name.  So a text is first read as a draft, where
such parts are marked; only what is not passed over has to be free of them.
-/

import BindScript.Json.Basic

namespace BindScript.Json

/-- A JSON value with marks in the place of what cannot be used. -/
inductive Draft where
  /-- What is well formed, but cannot be used. -/
  | unusable
  | null
  | bool (b : Bool)
  | number (n : Number)
  | string (s : String)
  | array (items : List Draft)
  | object (members : List (String × Draft))

namespace Draft

mutual

/-- The value of a draft without any marks. -/
def value? : Draft → Option Json
  | .unusable => none
  | .null => some .null
  | .bool b => some (.bool b)
  | .number n => some (.number n)
  | .string s => some (.string s)
  | .array items => (itemValues? items).map .array
  | .object members => (memberValues? members).map .object

def itemValues? : List Draft → Option (List Json)
  | [] => some []
  | item :: items =>
    match item.value?, itemValues? items with
    | some v, some vs => some (v :: vs)
    | _, _ => none

def memberValues? : List (String × Draft) → Option (List (String × Json))
  | [] => some []
  | (name, member) :: members =>
    match member.value?, memberValues? members with
    | some v, some vs => some ((name, v) :: vs)
    | _, _ => none

end

/-- Whether there are no marks in a draft. -/
def isUsable (d : Draft) : Bool := d.value?.isSome

def field (name : String) (members : List (String × Draft)) : Option Draft := members.lookup name

/-- Whether no known name occurs twice. Unknown names may. -/
def knownOnce (known : List String) (members : List (String × Draft)) : Bool :=
  known.all fun name => decide ((members.filter fun m => m.1 == name).length ≤ 1)

def string? : Draft → Option String
  | .string s => some s
  | _ => none

/-- The name of a case without data: a string, or an object with that one name and `null`. In a part
that was kept for later, an empty object will do for the `null`. -/
def caseName? (kept : Bool) : Draft → Option String
  | .string s => some s
  | .object [(name, .null)] => some name
  | .object [(name, .object [])] => if kept then some name else none
  | _ => none

end Draft

end BindScript.Json
