/-
**JSON text.**

The compact form has no blanks; the indented form has one item or member a line, two spaces a level.
Strings escape the quote, the backslash and the control characters below the space, and nothing
else; doubles have the fewest digits that read back, and one that is not finite is `null`.
-/

import BindScript.Decimal.Spelling
import BindScript.Json.Basic

namespace BindScript.Json

def hexDigit (n : Nat) : Char := Char.ofNat (if n < 10 then 48 + n else 87 + n)

/-- A character inside a quoted string. -/
def escapeChar (c : Char) : List Char :=
  if c = '"' then ['\\', '"']
  else if c = '\\' then ['\\', '\\']
  else if c = '\n' then ['\\', 'n']
  else if c = '\r' then ['\\', 'r']
  else if c = '\t' then ['\\', 't']
  else if c.toNat = 8 then ['\\', 'b']
  else if c.toNat = 12 then ['\\', 'f']
  else if c.toNat < 32 then ['\\', 'u', '0', '0', hexDigit (c.toNat / 16), hexDigit (c.toNat % 16)]
  else [c]

def quote (s : String) : List Char := '"' :: (s.toList.flatMap escapeChar ++ ['"'])

def Number.write : Number → List Char
  | .int n => (toString n).toList
  | .float x => if x.isFinite then Decimal.Spelling.json.write x else "null".toList

mutual

/-- The text of a value, without blanks. -/
def compact : Json → List Char
  | .null => "null".toList
  | .bool true => "true".toList
  | .bool false => "false".toList
  | .number n => n.write
  | .string s => quote s
  | .array items => '[' :: (compactItems items ++ [']'])
  | .object members => '{' :: (compactMembers members ++ ['}'])

def compactItems : List Json → List Char
  | [] => []
  | [item] => compact item
  | item :: items => compact item ++ ',' :: compactItems items

def compactMembers : List (String × Json) → List Char
  | [] => []
  | [(name, value)] => quote name ++ ':' :: compact value
  | (name, value) :: members => quote name ++ ':' :: compact value ++ ',' :: compactMembers members

end

/-- A line break with the blanks of a level. -/
def lineBreak (level : Nat) : List Char := '\n' :: List.replicate (2 * level) ' '

mutual

/-- The text of a value on several lines, for a value that stands at a level of nesting. -/
def indentedAt (level : Nat) : Json → List Char
  | .null => "null".toList
  | .bool true => "true".toList
  | .bool false => "false".toList
  | .number n => n.write
  | .string s => quote s
  | .array [] => ['[', ']']
  | .array (item :: items) =>
    '[' :: (indentedItems (level + 1) (item :: items) ++ lineBreak level ++ [']'])
  | .object [] => ['{', '}']
  | .object (member :: members) =>
    '{' :: (indentedMembers (level + 1) (member :: members) ++ lineBreak level ++ ['}'])

def indentedItems (level : Nat) : List Json → List Char
  | [] => []
  | [item] => lineBreak level ++ indentedAt level item
  | item :: items => lineBreak level ++ indentedAt level item ++ ',' :: indentedItems level items

def indentedMembers (level : Nat) : List (String × Json) → List Char
  | [] => []
  | [(name, value)] => lineBreak level ++ quote name ++ ':' :: ' ' :: indentedAt level value
  | (name, value) :: members =>
    lineBreak level ++ quote name ++ ':' :: ' ' :: indentedAt level value
      ++ ',' :: indentedMembers level members

end

def indented (j : Json) : List Char := indentedAt 0 j

def text (j : Json) : String := String.ofList j.compact

end BindScript.Json
