/-
**Searching, cutting and replacing text.**

All positions count characters. `indexOf?` gives the leftmost occurrence, `replaceAll` replaces the
occurrences that a left-to-right scan takes without overlap, and never looks at the text it has put
in.  A search for a position runs on bytes: the offset is turned into one of bytes first, and what
is found is turned back by counting the characters before it.
-/

import BindScript.Text.Bytes

namespace BindScript.Text

/-- Position of the first occurrence of `needle`. The empty needle occurs at the start. -/
def indexOf? {α : Type} [BEq α] (needle : List α) : List α → Option Nat
  | [] => if needle.isEmpty then some 0 else none
  | a :: as =>
    if needle.isPrefixOf (a :: as) then some 0 else (indexOf? needle as).map (· + 1)

/-- Position of the first occurrence of `needle` at or after `offset`; `-1` when there is none, and
when the offset lies outside the text. The end of the text is a place to search from, too. -/
def position (haystack needle : List Char) (offset : Int) : Int :=
  let text := bytes haystack
  if offset < 0 then -1
  else
    match (starts 0 haystack ++ [text.length])[offset.toNat]? with
    | none => -1
    | some start =>
      match (sliceFrom? text start).bind (indexOf? (bytes needle)) with
      | none => -1
      | some i =>
        let chars := ((sliceTo? text (start + i)).map countChars).getD 0
        if chars < 0x8000000000000000 then chars else -1

/-- At most `count` characters from position `start`; negative bounds count as zero. -/
def substring (text : List Char) (start count : Int) : List Char :=
  (text.drop start.toNat).take count.toNat

/-- Replacement scan. The first argument is the number of characters still to be passed over,
because they belong to an occurrence that has just been replaced. -/
def replaceFrom (search replacement : List Char) : Nat → List Char → List Char
  | _, [] => []
  | skip + 1, _ :: cs => replaceFrom search replacement skip cs
  | 0, c :: cs =>
    if search.isPrefixOf (c :: cs) then
      replacement ++ replaceFrom search replacement (search.length - 1) cs
    else c :: replaceFrom search replacement 0 cs

/-- Every occurrence of `search` in `subject`, taken from the left without overlap, replaced. The
empty search changes nothing. -/
def replaceAll (search replacement subject : List Char) : List Char :=
  if search.isEmpty then subject else replaceFrom search replacement 0 subject

/-- The texts before and after the first `mark`. -/
def cutAt? (mark : Char) : List Char → Option (List Char × List Char)
  | [] => none
  | c :: cs =>
    if c = mark then some ([], cs)
    else (cutAt? mark cs).map fun (before, after) => (c :: before, after)

/-- The texts before and after the last `mark`. -/
def cutAtLast? (mark : Char) : List Char → Option (List Char × List Char)
  | [] => none
  | c :: cs =>
    match cutAtLast? mark cs with
    | some (before, after) => some (c :: before, after)
    | none => if c = mark then some ([], cs) else none

/-- The texts before and after the first occurrence of a two-character mark. -/
def cutAtPair? (mark : Char × Char) : List Char → Option (List Char × List Char)
  | [] => none
  | [_] => none
  | c :: d :: cs =>
    if c = mark.1 ∧ d = mark.2 then some ([], cs)
    else (cutAtPair? mark (d :: cs)).map fun (before, after) => (c :: before, after)

/-- The lines of a text: the pieces between newlines, without an empty piece at the end. -/
def lines : List Char → List (List Char)
  | [] => []
  | c :: cs =>
    if c = '\n' then [] :: lines cs
    else
      match lines cs with
      | [] => [[c]]
      | l :: ls => (c :: l) :: ls

/-- Whether two texts agree up to the case of ASCII letters. -/
def eqIgnoringCase (s t : List Char) : Bool := s.map Char.toLower == t.map Char.toLower

end BindScript.Text
