/-
**Printing tokens.**

Whatever token the scanner finds, there is a spelling of it that does not depend on the text it was
found in: digits without zeros in front, strings between double quotes with their escapes, constants
in small letters. Only a number that is too great for a double has none.

Tokens are printed on one line, with a blank between two of them unless a parenthesis or a comma
keeps them apart.

Main results:

* `TokenRun.ofText_printTokens` — **the tokens of printed tokens**.
-/

import BindScript.Proofs.Token.Layout
import BindScript.Proofs.Token.Reading

namespace BindScript

/-! ### The spelling of a token -/

/-- A character between double quotes. -/
def escapeDouble (c : Char) : List Char :=
  match (escapes '"').find? fun p => p.2 == c with
  | some (e, _) => ['\\', e]
  | none => [c]

namespace Token

/-- The spelling that a token is printed with. -/
def spelling : Token → List Char
  | .int n => Decimal.digitsOf n.toInt.toNat
  | .float x => Decimal.Spelling.positional.write x
  | .string s => '"' :: (s.toList.flatMap escapeDouble ++ ['"'])
  | .bool b => (toString b).toList
  | .null => "null".toList
  | .ident name => name.toList
  | .hostName name => '@' :: name.toList
  | .keyword k => k.spelling.toList
  | .mark m => m.spelling.toList
  | .eof => []

/-- A token is no number that is too great for a double. -/
def IsFinite (t : Token) : Prop := ∀ x, t = .float x → x.isFinite = true

end Token

theorem quoted_flatMap_escapeDouble (text : List Char) :
    Quoted '"' text (text.flatMap escapeDouble) := by
  induction text with
  | nil => exact .nil
  | cons c text ih =>
    rw [List.flatMap_cons, escapeDouble]
    cases hfind : (escapes '"').find? fun p => p.2 == c with
    | some p =>
      obtain rfl : p.2 = c := by simpa using List.find?_some hfind
      exact .escaped (List.mem_of_find?_eq_some hfind) ih
    | none =>
      have hnone : ∀ p ∈ escapes '"', p.2 ≠ c := by simpa using hfind
      refine .plain ?_ ?_ ?_ ih
      · exact (hnone ('"', '"') (by decide)).symm
      · exact (hnone ('\\', '\\') (by decide)).symm
      · exact (hnone ('n', '\n') (by decide)).symm

namespace Token

theorem spells_string (s : String) : (Token.string s).Spells (Token.string s).spelling := by
  have h := Spells.doubleQuoted (quoted_flatMap_escapeDouble s.toList)
  rwa [String.ofList_toList] at h

theorem spells_bool (b : Bool) : (Token.bool b).Spells (Token.bool b).spelling := by
  refine .bool ?_
  cases b <;> decide

theorem spells_int {n : Int64} (hn : 0 ≤ n.toInt) : (Token.int n).Spells (Token.int n).spelling :=
  .int 0 hn

end Token

theorem Scanner.spells_wordToken {word : List Char} (h : IsWord word) :
    (wordToken word).Spells (wordToken word).spelling := by
  unfold wordToken
  split
  · exact .keyword
  rename_i hkeyword
  -- a word is compared with a constant in any case, but the rules of spelling speak of its small
  -- letters
  have hlower : ∀ lower : List Char, lower.map Char.toLower = lower →
      ¬Text.eqIgnoringCase word lower = true → word.map Char.toLower ≠ lower := by
    intro lower hsame hne heq
    refine hne ?_
    rw [Text.eqIgnoringCase, beq_iff_eq, heq, hsame]
  split
  · exact Token.spells_bool true
  rename_i htrue
  split
  · exact Token.spells_bool false
  rename_i hfalse
  split
  · exact .null rfl
  rename_i hnull
  have hspelling : (Token.ident (String.ofList word)).spelling = word := String.toList_ofList
  rw [hspelling]
  refine .ident h ?_ ?_
  · rintro k rfl
    rw [String.ofList_toList] at hkeyword
    exact absurd hkeyword (by cases k <;> decide)
  · simp only [constants, List.mem_cons, List.not_mem_nil, or_false, not_or]
    exact ⟨hlower _ (by decide) htrue, hlower _ (by decide) hfalse, hlower _ (by decide) hnull⟩

namespace Token

/-- **A token that is read is spelled as it is printed**, unless it is a number that is too
great. -/
theorem spells_of_readToken {cs rest : List Char} {t : Token}
    (h : Scanner.readToken cs = (.ok t, rest)) (hne : t ≠ .eof) (hfinite : t.IsFinite) :
    t.Spells t.spelling := by
  rcases Scanner.readToken_cases h with rfl | ⟨s, rfl⟩ | ⟨c, ds, hc, hnumber⟩ | ⟨word, hword, rfl⟩ |
    ⟨path, hpath, rfl⟩ | ⟨m, rfl⟩
  · exact absurd rfl hne
  · exact spells_string s
  · rcases Scanner.numberToken_cases hc hnumber with ⟨n, hn, rfl⟩ | ⟨x, text, hread, rfl⟩
    · exact spells_int hn
    · obtain ⟨m, e, hx⟩ := Decimal.ofFloat_of_readMagnitude? hread (hfinite x rfl)
      obtain ⟨whole, part, hwrite, hwhole, hpart, hall, hvalue⟩ := Decimal.positional_write hx
      have hspells := Spells.float hwhole hpart hall
      rwa [hvalue, ← hwrite] at hspells
  · exact Scanner.spells_wordToken hword
  · have hspelling : (Token.hostName (String.ofList path)).spelling = '@' :: path :=
      congrArg ('@' :: ·) String.toList_ofList
    rw [hspelling]
    exact .hostName hpath
  · exact .mark

theorem spells_of_mem_ofText {source : String} {t : Token.Located}
    (h : t ∈ (TokenRun.ofText source).tokens) (hfinite : t.token.IsFinite) :
    t.token.Spells t.token.spelling := by
  obtain ⟨hne, cs, rest, hread⟩ := TokenRun.exists_readToken h
  exact spells_of_readToken hread hne hfinite

end Token

/-! ### Tokens on a line -/

def Token.onLine (line : Nat) (t : Token) : Token.Located := ⟨t, line⟩

/-- Whether two tokens are printed without a blank between them. -/
def Token.touches : Token → Token → Bool
  | .mark .openParen, _ => true
  | _, .mark .closeParen => true
  | _, .mark .comma => true
  | .ident _, .mark .openParen => true
  | _, _ => false

/-- Tokens with their spellings, after the token `last` if there is one. -/
def layOut (last : Option Token) : List Token → List Piece
  | [] => []
  | t :: ts =>
    ⟨if last.all fun u => u.touches t then [] else [' '], t, t.spelling⟩ :: layOut (some t) ts

def printTokens (ts : List Token) : String := String.ofList (textOf (layOut none ts))

/-- Where there is no blank after a token, it is over all the same. -/
theorem Token.closed_of_touches {t u : Token} (h : t.touches u = true) (rest : List Char) :
    t.Closed (u.spelling ++ rest) := by
  unfold touches at h
  split at h
  · exact .inl rfl
  · exact .inr (by simp [spelling, Mark.spelling, endsToken])
  · exact .inr (by simp [spelling, Mark.spelling, endsToken])
  · exact .inr (by simp [spelling, Mark.spelling, endsToken])
  · cases h

variable {ts : List Token}

theorem laid_layOut (h : ∀ t ∈ ts, t.Spells t.spelling) (last : Option Token) :
    Laid (layOut last ts) [] := by
  induction ts generalizing last with
  | nil => exact .nil
  | cons t ts ih =>
    obtain ⟨ht, hts⟩ := List.forall_mem_cons.1 h
    refine ⟨?_, ht, ?_, ih hts (some t)⟩
    · simp only
      split
      · exact .nil
      · exact .blank rfl .nil
    · -- the token is over: by the end of the text, by what it touches, or by the blank after it
      cases ts with
      | nil => exact .inr (by simp [layOut, textOf])
      | cons u us =>
        by_cases htouches : t.touches u = true
        · have htext : textOf (layOut (some t) (u :: us)) ++ [] =
              u.spelling ++ textOf (layOut (some u) us) := by
            simp [layOut, textOf, htouches]
          rw [htext]
          exact t.closed_of_touches htouches _
        · exact .inr (by simp [layOut, textOf, htouches, endsToken, isBlankChar])

theorem not_mem_textOf_layOut (h : ∀ t ∈ ts, t.Spells t.spelling) (last : Option Token) :
    '\n' ∉ textOf (layOut last ts) := by
  induction ts generalizing last with
  | nil => simp [layOut, textOf]
  | cons t ts ih =>
    obtain ⟨ht, hts⟩ := List.forall_mem_cons.1 h
    intro hmem
    rw [layOut, textOf, List.flatMap_cons] at hmem
    rcases List.mem_append.1 hmem with hmem | hmem
    · rcases List.mem_append.1 hmem with hmem | hmem
      · simp only at hmem
        split at hmem <;> simp at hmem
      · exact ht.not_mem hmem
    · exact ih hts (some t) hmem

/-- Without line breaks every token stands on the first line. -/
theorem locate_of_not_mem {pieces : List Piece} {before : List Char}
    (h : '\n' ∉ before ++ textOf pieces) :
    locate before pieces = pieces.map fun p => ⟨p.token, 1⟩ := by
  induction pieces generalizing before with
  | nil => rfl
  | cons p ps ih =>
    have htext : before ++ textOf (p :: ps) = (before ++ p.gap) ++ (p.spelling ++ textOf ps) := by
      simp [textOf]
    rw [htext] at h
    have hline : (before ++ p.gap).count '\n' = 0 :=
      List.count_eq_zero.2 fun hmem => h (List.mem_append_left _ hmem)
    rw [locate, hline, ih (by rwa [List.append_assoc _ p.spelling]), List.map_cons]

theorem map_token_layOut (last : Option Token) (ts : List Token) :
    (layOut last ts).map Piece.token = ts := by
  induction ts generalizing last with
  | nil => rfl
  | cons t ts ih => rw [layOut, List.map_cons, ih]

/-- **The tokens of printed tokens** are these tokens, all of them on the first line. -/
theorem TokenRun.ofText_printTokens (h : ∀ t ∈ ts, t.Spells t.spelling) :
    TokenRun.ofText (printTokens ts) = ⟨ts.map (Token.onLine 1), .ok 1⟩ := by
  have hline := not_mem_textOf_layOut h none
  have hlocate : locate [] (layOut none ts) = ts.map (Token.onLine 1) := by
    have hmap := congrArg (List.map (Token.onLine 1)) (map_token_layOut none ts)
    rw [List.map_map] at hmap
    exact (locate_of_not_mem hline).trans hmap
  have hrun := TokenRun.ofText_laid (laid_layOut h none)
  rwa [List.append_nil, hlocate, List.count_eq_zero.2 hline] at hrun

end BindScript
