/-
**Texts as bytes.**

A text is kept as the bytes of its characters, one to four for each.  The first byte of a character
can be told from the others, so that bytes can be cut where a character begins, and characters can
be counted without being read.
-/

namespace BindScript.Text

/-- The bytes of a text. -/
def bytes (text : List Char) : List UInt8 := text.flatMap String.utf8EncodeChar

/-- Whether a character begins with the byte. -/
def beginsChar (b : UInt8) : Bool := b < 0x80 || 0xC0 ≤ b

/-- The offsets at which the characters of a text begin, when the first one begins at `i`. -/
def starts (i : Nat) : List Char → List Nat
  | [] => []
  | c :: cs => i :: starts (i + c.utf8Size) cs

/-- Whether bytes may be cut at an offset: where a character begins, and at the end. -/
def isBoundary (bs : List UInt8) (i : Nat) : Bool :=
  i == 0 ||
    match bs[i]? with
    | some b => beginsChar b
    | none => i == bs.length

/-- The bytes from an offset on, if they may be cut there. -/
def sliceFrom? (bs : List UInt8) (i : Nat) : Option (List UInt8) :=
  if isBoundary bs i then some (bs.drop i) else none

/-- The bytes up to an offset, if they may be cut there. -/
def sliceTo? (bs : List UInt8) (i : Nat) : Option (List UInt8) :=
  if isBoundary bs i then some (bs.take i) else none

def countChars (bs : List UInt8) : Nat := bs.countP beginsChar

end BindScript.Text
