/-
**Upper and lower case of texts.**

Both maps are the full Unicode ones: a character may become several (`ß` becomes `SS`), and a
capital sigma becomes the final form `ς` exactly at the end of a word, that is when a cased
character stands before it and none after it, case-ignorable characters left aside on both sides.
-/

import BindScript.Text.CaseData

namespace BindScript.Text

/-- Whether a number lies in one of the stretches that are counted, those outside and inside in
turn. -/
def inStretches : List Nat → Nat → Bool
  | outside :: inside :: rest, n =>
    if n < outside then false
    else if n < outside + inside then true
    else inStretches rest (n - (outside + inside))
  | _, _ => false

/-- The distance from a code point to its image, if one of the runs maps it. -/
def shiftOf? : List CaseRun → Nat → Option Int
  | [], _ => none
  | (gap, count, step, shift) :: rest, n =>
    let width := (count - 1) * step + 1
    if n < gap then none
    else if n < gap + width then if (n - gap) % step = 0 then some shift else none
    else shiftOf? rest (n - (gap + width))

/-- The image of `c` under the mappings to several characters and the simple ones. -/
def mapCase (special : List (Nat × List Nat)) (runs : List CaseRun) (c : Char) : List Char :=
  match special.lookup c.toNat with
  | some images => images.map Char.ofNat
  | none =>
    match shiftOf? runs c.toNat with
    | some shift => [Char.ofNat (c.toNat + shift).toNat]
    | none => [c]

/-- The lower case of one character, wherever it stands. -/
def lowerChar (c : Char) : List Char := mapCase lowerSpecial lowerRuns c

def upperChar (c : Char) : List Char := mapCase upperSpecial upperRuns c

/-- Whether the first character that is not case-ignorable is cased. -/
def touchesCased (cs : List Char) : Bool :=
  match cs.dropWhile fun c => inStretches caseIgnorableStretches c.toNat with
  | c :: _ => inStretches casedStretches c.toNat
  | [] => false

/-- Lower case of a text that stands after `before`, which is given from its end. -/
def lowercaseAfter (before : List Char) : List Char → List Char
  | [] => []
  | c :: cs =>
    let image :=
      if c = 'Σ' then [if touchesCased before && !touchesCased cs then 'ς' else 'σ']
      else lowerChar c
    image ++ lowercaseAfter (c :: before) cs

def lowercase (cs : List Char) : List Char := lowercaseAfter [] cs

def uppercase (cs : List Char) : List Char := cs.flatMap upperChar

end BindScript.Text
