/-
**Escaped join and split.**

A list of texts is written as one text by joining them with a separator.  Inside a piece a
backslash stands before every backslash and before every occurrence of the separator's first
character, so no separator can begin inside a piece.  Splitting undoes this: a backslash gives the
next character as it is, a separator ends the piece, and every other character stands for itself.
-/

namespace BindScript.Text.Escaped

/-- A piece with a backslash before every backslash and every `special` character. -/
def escape (special : Char) (piece : List Char) : List Char :=
  piece.flatMap fun c => if c = '\\' ∨ c = special then ['\\', c] else [c]

/-- The escaped pieces with `separator` between them. -/
def join (separator : List Char) (special : Char) (pieces : List (List Char)) : List Char :=
  separator.intercalate (pieces.map (escape special))

/-- Puts a character at the front of the first piece. -/
def consHead (c : Char) : List (List Char) → List (List Char)
  | [] => [[c]]
  | piece :: pieces => (c :: piece) :: pieces

/-- Splitting scan. The first argument is the number of characters of a separator that are still to
be passed over. A backslash at the very end stands for nothing. -/
def splitFrom (separator : List Char) : Nat → List Char → List (List Char)
  | _, [] => [[]]
  | skip + 1, _ :: cs => splitFrom separator skip cs
  | 0, ['\\'] => [[]]
  | 0, '\\' :: c :: cs => consHead c (splitFrom separator 0 cs)
  | 0, c :: cs =>
    if separator.isPrefixOf (c :: cs) then [] :: splitFrom separator (separator.length - 1) cs
    else consHead c (splitFrom separator 0 cs)

/-- The pieces of a joined text, with the escapes removed. There is always at least one. -/
def split (separator text : List Char) : List (List Char) := splitFrom separator 0 text

end BindScript.Text.Escaped
