/-
**Spellings of tokens.**

A token can be spelled in several ways: a number with zeros in front, a string in one of two quotes
and with or without an escape, a constant in any case of letters.  Whatever the spelling, the
scanner reads it as the token.

A token ends where the scanner can take no more for it, so the text after it matters.  A blank ends
every token, and so do parentheses and a comma, which also end themselves.

Main results:

* `Scanner.readToken_spelling` — **a spelling is read as its token**, and nothing after it is
  touched.
-/

import BindScript.Proofs.Decimal.Spelling
import BindScript.Token.Scanner

namespace BindScript

open Scanner (isWordChar isNumberChar)

/-! ### Spellings -/

/-- A letter with letters, digits and underscores after it. -/
def IsWord (word : List Char) : Prop :=
  ∃ c cs, word = c :: cs ∧ c.isAlpha = true ∧ ∀ d ∈ cs, isWordChar d = true

theorem IsWord.of_all {word : List Char} (hhead : word.head?.any Char.isAlpha = true)
    (htail : word.tail.all isWordChar = true) : IsWord word := by
  cases word with
  | nil => cases hhead
  | cons c cs => exact ⟨c, cs, rfl, hhead, List.all_eq_true.1 htail⟩

/-- Words with points between them. -/
inductive IsPath : List Char → Prop
  | word {w} : IsWord w → IsPath w
  | point {w path} : IsWord w → IsPath path → IsPath (w ++ '.' :: path)

/-- The letters that may stand after a backslash, with what they stand for. -/
def escapes (quote : Char) : List (Char × Char) :=
  ('\\', '\\') :: (quote, quote) ::
    if quote = '"' then [('n', '\n'), ('t', '\t'), ('r', '\r'), ('0', Char.ofNat 0)] else []

/-- What stands between quotes for a text: characters as they are, if they are neither the quote nor
a backslash nor a line break, and escapes. -/
inductive Quoted (quote : Char) : List Char → List Char → Prop
  | nil : Quoted quote [] []
  | plain {c text cs} : c ≠ quote → c ≠ '\\' → c ≠ '\n' → Quoted quote text cs →
      Quoted quote (c :: text) (c :: cs)
  | escaped {e c text cs} : (e, c) ∈ escapes quote → Quoted quote text cs →
      Quoted quote (c :: text) ('\\' :: e :: cs)

/-- A character between single quotes. -/
def escapeSingle (c : Char) : List Char := if c = '\\' ∨ c = '\'' then ['\\', c] else [c]

/-- The words that are constants, in any case of letters. -/
def constants : List (List Char) := ["true".toList, "false".toList, "null".toList]

/-- **The spellings of a token.** There is none for the end of the text. -/
inductive Token.Spells : Token → List Char → Prop
  | int {n : Int64} (zeros : Nat) : 0 ≤ n.toInt →
      Token.Spells (.int n) (List.replicate zeros '0' ++ Decimal.digitsOf n.toInt.toNat)
  | float {whole part} : whole ≠ [] → part ≠ [] → (∀ c ∈ whole ++ part, c.isDigit = true) →
      Token.Spells (.float
        (Decimal.floatOfDigits (Decimal.natOfDigits (whole ++ part)) (-part.length)))
          (whole ++ '.' :: part)
  | doubleQuoted {text cs} : Quoted '"' text cs →
      Token.Spells (.string (String.ofList text)) ('"' :: (cs ++ ['"']))
  | singleQuoted {text} : '\n' ∉ text →
      Token.Spells (.string (String.ofList text)) ('\'' :: (text.flatMap escapeSingle ++ ['\'']))
  | bool {b word} : word.map Char.toLower = (toString b).toList → Token.Spells (.bool b) word
  | null {word} : word.map Char.toLower = "null".toList → Token.Spells .null word
  | ident {word} : IsWord word → (∀ k : Keyword, word ≠ k.spelling.toList) →
      word.map Char.toLower ∉ constants → Token.Spells (.ident (String.ofList word)) word
  | hostName {path} : IsPath path → Token.Spells (.hostName (String.ofList path)) ('@' :: path)
  | keyword {k} : Token.Spells (.keyword k) k.spelling.toList
  | mark {m} : Token.Spells (.mark m) m.spelling.toList

/-! ### Ends of tokens -/

/-- The characters of blanks. -/
def isBlankChar (c : Char) : Bool := c == ' ' || c == '\t' || c == '\r' || c == '\n'

/-- Whether a character ends every token before it. -/
def endsToken (c : Char) : Bool := isBlankChar c || c == '(' || c == ')' || c == ','

/-- Whether a token ends itself, whatever comes after it. -/
def Token.endsItself : Token → Bool
  | .mark .openParen | .mark .closeParen | .mark .comma => true
  | _ => false

/-- A token is over before the given text. -/
def Token.Closed (t : Token) (rest : List Char) : Prop :=
  t.endsItself = true ∨ ∀ c ∈ rest.head?, endsToken c = true

/-- A text without line breaks can stand between single quotes. -/
theorem quoted_flatMap_escapeSingle {text : List Char} (h : '\n' ∉ text) :
    Quoted '\'' text (text.flatMap escapeSingle) := by
  induction text with
  | nil => exact .nil
  | cons c text ih =>
    obtain ⟨hc, htext⟩ : '\n' ≠ c ∧ '\n' ∉ text := by simpa using h
    rw [List.flatMap_cons, escapeSingle]
    by_cases hescape : c = '\\' ∨ c = '\''
    · rw [if_pos hescape]
      refine .escaped ?_ (ih htext)
      rcases hescape with rfl | rfl <;> decide
    · obtain ⟨hslash, hquote⟩ := not_or.1 hescape
      rw [if_neg hescape]
      exact .plain hquote hslash hc.symm (ih htext)

/-- What ends every token stands in none, and does not make another mark out of a mark before it. -/
theorem endsToken_facts {c : Char} (h : endsToken c = true) :
    isWordChar c = false ∧ isNumberChar c = false ∧ c ∉ ['.', '=', '&', '|', '/', '*'] := by
  simp only [endsToken, isBlankChar, Bool.or_eq_true, beq_iff_eq] at h
  rcases h with (((((rfl | rfl) | rfl) | rfl) | rfl) | rfl) | rfl <;> decide

variable {quote : Char}

namespace Scanner

/-! ### Reading a spelling -/

variable {rest : List Char}

theorem escape?_of_mem {e c : Char} (hquote : quote = '"' ∨ quote = '\'')
    (h : (e, c) ∈ escapes quote) :
    escape? quote e = some c := by
  rcases hquote with rfl | rfl
  · simp only [escapes, if_true, List.mem_cons, List.not_mem_nil, or_false, Prod.mk.injEq] at h
    rcases h with ⟨rfl, rfl⟩ | ⟨rfl, rfl⟩ | ⟨rfl, rfl⟩ | ⟨rfl, rfl⟩ | ⟨rfl, rfl⟩ | ⟨rfl, rfl⟩ <;>
      decide
  · rw [escapes, if_neg (by decide)] at h
    simp only [List.mem_cons, List.not_mem_nil, or_false, Prod.mk.injEq] at h
    rcases h with ⟨rfl, rfl⟩ | ⟨rfl, rfl⟩ <;> decide

theorem readQuoted_quoted {text cs : List Char} (hquote : quote = '"' ∨ quote = '\'')
    (h : Quoted quote text cs) :
    readQuoted quote (cs ++ quote :: rest) = (.ok text, rest) := by
  have hplain : quote ≠ '\n' ∧ quote ≠ '\\' := by
    rcases hquote with rfl | rfl <;> decide
  induction h with
  | nil => simp [readQuoted, hplain]
  | @plain c text cs hc hslash hbreak _ ih =>
    simp [readQuoted, hc, hslash, ih, pushFront, Except.map]
  | @escaped e c text cs he _ ih =>
    simp [readQuoted, escape?_of_mem hquote he, ih, pushFront, Except.map]

theorem readToken_quoted {text cs : List Char} (hquote : quote = '"' ∨ quote = '\'')
    (h : Quoted quote text cs) :
    readToken (quote :: (cs ++ [quote]) ++ rest) = (.ok (.string (String.ofList text)), rest) := by
  rw [List.cons_append, List.append_assoc, List.singleton_append, readToken, if_pos hquote,
    readQuoted_quoted hquote h]
  rfl

theorem readInt64?_zeros {n : Int64} (zeros : Nat) (hn : 0 ≤ n.toInt) :
    Decimal.readInt64? (List.replicate zeros '0' ++ Decimal.digitsOf n.toInt.toNat) = some n := by
  obtain ⟨k, hk⟩ := Int.eq_ofNat_of_zero_le hn
  rw [hk, Int.toNat_natCast]
  have hdigits : ∀ c ∈ List.replicate zeros '0' ++ Decimal.digitsOf k, c.isDigit = true := by
    intro c hc
    rcases List.mem_append.1 hc with hc | hc
    · exact Decimal.Spelling.isDigit_of_mem_zeros hc
    · exact Decimal.isDigit_of_mem_digitsOf hc
  have hvalue : Decimal.natOfDigits (List.replicate zeros '0' ++ Decimal.digitsOf k) = k := by
    rw [Decimal.natOfDigits_append, Decimal.natOfDigits_zeros, Decimal.natOfDigits_digitsOf,
      Nat.mul_zero, Nat.zero_add]
  have hne : List.replicate zeros '0' ++ Decimal.digitsOf k ≠ [] :=
    List.append_ne_nil_of_right_ne_nil _ (Decimal.digitsOf_ne_nil k)
  rw [Decimal.readInt64?, Decimal.readInt?_digits hne hdigits, hvalue, ← hk]
  exact Decimal.toInt64?_toInt n

theorem numberToken_int {n : Int64} (zeros : Nat) (hn : 0 ≤ n.toInt) :
    numberToken (List.replicate zeros '0' ++ Decimal.digitsOf n.toInt.toNat) = .ok (.int n) := by
  have hcount : (List.replicate zeros '0' ++ Decimal.digitsOf n.toInt.toNat).count '.' = 0 := by
    rw [List.count_eq_zero]
    intro hmem
    rcases List.mem_append.1 hmem with hmem | hmem
    · exact absurd (List.eq_of_mem_replicate hmem) (by decide)
    · exact Decimal.not_mem_digitsOf (by decide) _ hmem
  rw [numberToken, hcount]
  simp only [readInt64?_zeros zeros hn]

theorem numberToken_float {whole part : List Char} (hwhole : whole ≠ [])
    (hdigits : ∀ c ∈ whole ++ part, c.isDigit = true) :
    numberToken (whole ++ '.' :: part) =
      .ok (.float (Decimal.floatOfDigits
        (Decimal.natOfDigits (whole ++ part)) (-part.length))) := by
  have hno : ∀ cs : List Char, (∀ c ∈ cs, c.isDigit = true) → cs.count '.' = 0 := by
    intro cs hcs
    rw [List.count_eq_zero]
    exact fun hmem => absurd (hcs '.' hmem) (by decide)
  obtain ⟨hw, hp⟩ := List.forall_mem_append.1 hdigits
  have hcount : (whole ++ '.' :: part).count '.' = 1 := by
    rw [List.count_append, List.count_cons_self, hno whole hw, hno part hp]
  have hmagnitude :=
    Decimal.readMagnitude?_point whole part [] hw (.inl hwhole) hp Decimal.endsNumber_nil
  rw [List.append_nil] at hmagnitude
  have hread : Decimal.readFloat? (whole ++ '.' :: part) =
      some (Decimal.floatOfDigits (Decimal.natOfDigits (whole ++ part)) (-part.length)) := by
    have hsome : Decimal.readMagnitude? (whole ++ '.' :: part) =
        some (Decimal.floatOfDigits (Decimal.natOfDigits (whole ++ part)) (-part.length)) := by
      rw [hmagnitude]
      simp [Decimal.readExponent?]
    rw [Decimal.readFloat?, Decimal.takeSign_of_readMagnitude? hsome]
    simp [hsome]
  rw [numberToken, hcount]
  simp only [hread]

theorem isWordChar_of_mem {word : List Char} (h : IsWord word) :
    ∀ c ∈ word, isWordChar c = true := by
  obtain ⟨c, cs, rfl, hc, hcs⟩ := h
  intro d hd
  rcases List.mem_cons.1 hd with rfl | hd
  · simp [isWordChar, Char.isAlphanum, hc]
  · exact hcs d hd

theorem isAlpha_of_toLower {c : Char} (h : c.toLower.isAlpha = true) : c.isAlpha = true := by
  unfold Char.toLower at h
  split at h
  · rename_i hupper
    have hup : c.isUpper = true := decide_eq_true hupper
    exact Bool.or_eq_true_iff.2 (.inl hup)
  · exact h

theorem isWord_of_toLower {word lower : List Char} (h : word.map Char.toLower = lower)
    (hne : lower ≠ []) (hlower : lower.all Char.isAlpha = true) : IsWord word := by
  have hall : ∀ c ∈ word, c.isAlpha = true := by
    intro c hc
    exact isAlpha_of_toLower (List.all_eq_true.1 hlower _ (h ▸ List.mem_map_of_mem hc))
  cases word with
  | nil => exact absurd h.symm hne
  | cons c cs =>
    refine ⟨c, cs, rfl, hall c List.mem_cons_self, fun d hd => ?_⟩
    simp [isWordChar, Char.isAlphanum, hall d (List.mem_cons_of_mem _ hd)]

/-- A name that is no reserved word and no constant is an identifier. -/
theorem wordToken_ident {word : List Char} (hkeyword : ∀ k : Keyword, word ≠ k.spelling.toList)
    (hconstant : word.map Char.toLower ∉ constants) :
    wordToken word = .ident (String.ofList word) := by
  have hnone : Keyword.ofSpelling? (String.ofList word) = none := by
    refine List.find?_eq_none.2 fun k _ hk => hkeyword k ?_
    rw [beq_iff_eq.1 hk, String.toList_ofList]
  have hother : ∀ lower ∈ constants, Text.eqIgnoringCase word lower = false := by
    intro lower hlower
    rw [Text.eqIgnoringCase, beq_eq_false_iff_ne]
    intro heq
    have hsame : lower.map Char.toLower = lower := by
      revert hlower
      simp only [constants, List.mem_cons, List.not_mem_nil, or_false]
      rintro (rfl | rfl | rfl) <;> decide
    exact hconstant (heq ▸ hsame.symm ▸ hlower)
  simp only [constants, List.forall_mem_cons] at hother
  rw [wordToken, hnone]
  simp only [hother, Bool.false_eq_true, if_false]

theorem ofSpelling?_constant {word : List Char} (h : word.map Char.toLower ∈ constants) :
    Keyword.ofSpelling? (String.ofList word) = none := by
  refine List.find?_eq_none.2 fun k _ hk => ?_
  have hword : word = k.spelling.toList := by
    rw [beq_iff_eq.1 hk, String.toList_ofList]
  rw [hword] at h
  revert h
  cases k <;> decide

theorem wordToken_bool {b : Bool} {word : List Char}
    (h : word.map Char.toLower = (toString b).toList) :
    wordToken word = .bool b := by
  have hmem : word.map Char.toLower ∈ constants := by
    rw [h]
    cases b <;> decide
  rw [wordToken, ofSpelling?_constant hmem]
  simp only [Text.eqIgnoringCase, h]
  cases b <;> rfl

theorem wordToken_null {word : List Char} (h : word.map Char.toLower = "null".toList) :
    wordToken word = .null := by
  have hmem : word.map Char.toLower ∈ constants := by
    rw [h]
    decide
  rw [wordToken, ofSpelling?_constant hmem]
  simp only [Text.eqIgnoringCase, h]
  rfl

theorem wordToken_keyword (k : Keyword) : wordToken k.spelling.toList = .keyword k := by
  cases k <;> decide

theorem isAlpha_head_path {path : List Char} (h : IsPath path) :
    (path ++ rest).head?.any Char.isAlpha = true := by
  cases h with
  | word hw =>
    obtain ⟨c, cs, rfl, hc, -⟩ := hw
    simpa using hc
  | point hw _ =>
    obtain ⟨c, cs, rfl, hc, -⟩ := hw
    simpa using hc

theorem readPath_path {path : List Char} (h : IsPath path)
    (hrest : ∀ c ∈ rest.head?, isWordChar c = false ∧ c ≠ '.') :
    readPath (path ++ rest) = (path, rest) := by
  have hstop : readPath rest = ([], rest) := by
    cases rest with
    | nil => rfl
    | cons c rest =>
      obtain ⟨hword, hpoint⟩ := hrest c rfl
      simp [readPath, hword, hpoint]
  have hrun : ∀ (word tail : List Char), (∀ c ∈ word, isWordChar c = true) →
      readPath (word ++ tail) = (word ++ (readPath tail).1, (readPath tail).2) := by
    intro word tail hword
    induction word with
    | nil => rfl
    | cons c word ih =>
      obtain ⟨hc, hword⟩ := List.forall_mem_cons.1 hword
      simp [readPath, hc, ih hword]
  induction h with
  | word hw =>
    rw [hrun _ _ (isWordChar_of_mem hw), hstop, List.append_nil]
  | @point w path hw hpath ih =>
    -- a word begins with a letter, so the point before it belongs to the name
    rw [List.append_assoc, List.cons_append, hrun _ _ (isWordChar_of_mem hw), readPath,
      isAlpha_head_path hpath, ih]
    simp

theorem readToken_word {word : List Char} (hword : IsWord word)
    (hrest : ∀ c ∈ rest.head?, isWordChar c = false) :
    readToken (word ++ rest) = (.ok (wordToken word), rest) := by
  have hstop : ∀ c tail, rest = c :: tail → isWordChar c = false :=
    fun c _ h => hrest c (by rw [h]; rfl)
  obtain ⟨htake, hdrop⟩ := Decimal.takeWhile_run (isWordChar_of_mem hword) hstop
  obtain ⟨c, cs, rfl, hc, -⟩ := hword
  have hquote : ¬(c = '"' ∨ c = '\'') := by
    rintro (rfl | rfl) <;> exact absurd hc (by decide)
  have hdigit : c.isDigit = false := by
    cases hd : c.isDigit with
    | false => rfl
    | true =>
      have hle : c.val ≤ 57 := of_decide_eq_true (Bool.and_eq_true_iff.1 hd).2
      rcases Bool.or_eq_true_iff.1 hc with hupper | hlower
      · have hge : 65 ≤ c.val := (of_decide_eq_true hupper).1
        exact absurd (UInt32.le_trans hge hle) (by decide)
      · have hge : 97 ≤ c.val := of_decide_eq_true (Bool.and_eq_true_iff.1 hlower).1
        exact absurd (UInt32.le_trans hge hle) (by decide)
  rw [List.cons_append] at htake hdrop ⊢
  simp only [readToken, if_neg hquote, hdigit, hc, htake, hdrop, Bool.false_eq_true, if_false,
    if_true]

theorem readToken_number {text : List Char} (hfirst : ∃ c cs, text = c :: cs ∧ c.isDigit = true)
    (htext : ∀ c ∈ text, isNumberChar c = true) (hrest : ∀ c ∈ rest.head?, isNumberChar c = false) :
    readToken (text ++ rest) = (numberToken text, rest) := by
  have hstop : ∀ c tail, rest = c :: tail → isNumberChar c = false :=
    fun c _ h => hrest c (by rw [h]; rfl)
  obtain ⟨htake, hdrop⟩ := Decimal.takeWhile_run htext hstop
  obtain ⟨c, cs, rfl, hc⟩ := hfirst
  have hquote : ¬(c = '"' ∨ c = '\'') := by
    rintro (rfl | rfl) <;> exact absurd hc (by decide)
  rw [List.cons_append] at htake hdrop ⊢
  simp only [readToken, if_neg hquote, hc, htake, hdrop, if_true]

/-- Whether a character begins something other than a mark. -/
def beginsOther (c : Char) : Bool := c == '"' || c == '\'' || c.isDigit || c.isAlpha || c == '@'

theorem readToken_two {c d : Char} {m : Mark} (hc : beginsOther c = false)
    (hm : Mark.ofPair? c d = some m) :
    readToken (c :: d :: rest) = (.ok (.mark m), rest) := by
  simp only [beginsOther, Bool.or_eq_false_iff, beq_eq_false_iff_ne] at hc
  simp [readToken, hc, hm]

theorem readToken_one {c : Char} {m : Mark} (hc : beginsOther c = false)
    (hm : Mark.ofChar? c = some m) (hnext : rest.head?.bind (Mark.ofPair? c) = none) :
    readToken (c :: rest) = (.ok (.mark m), rest) := by
  simp only [beginsOther, Bool.or_eq_false_iff, beq_eq_false_iff_ne] at hc
  simp only [readToken, hc, hm, hnext, or_self, if_false, Bool.false_eq_true]

/-- A mark is read, unless what follows makes another one of it. -/
theorem readToken_mark {m : Mark} (h : (Token.mark m).Closed rest) :
    readToken (m.spelling.toList ++ rest) = (.ok (.mark m), rest) := by
  have hnext : ∀ c, (Token.mark m).endsItself = false →
      rest.head?.bind (Mark.ofPair? c) = none := by
    intro c hself
    cases rest with
    | nil => rfl
    | cons d rest =>
      have hd := (endsToken_facts (h.resolve_left (by simp [hself]) d rfl)).2.2
      simp only [List.mem_cons, List.not_mem_nil, not_or] at hd
      simp only [List.head?_cons, Option.bind_some]
      unfold Mark.ofPair?
      split <;> simp_all
  -- no mark of two characters begins like those that end themselves
  have hself : ∀ c ∈ ['(', ')', ','], rest.head?.bind (Mark.ofPair? c) = none := by
    intro c hc
    simp only [List.mem_cons, List.not_mem_nil, or_false] at hc
    cases rest with
    | nil => rfl
    | cons d rest => rcases hc with rfl | rfl | rfl <;> simp [Mark.ofPair?]
  cases m with
  | eqEq | ne | ge | le | and | or => exact readToken_two (by decide) rfl
  | openParen => exact readToken_one (c := '(') (by decide) rfl (hself _ (by decide))
  | closeParen => exact readToken_one (c := ')') (by decide) rfl (hself _ (by decide))
  | comma => exact readToken_one (c := ',') (by decide) rfl (hself _ (by decide))
  | _ => exact readToken_one (by decide) rfl (hnext _ rfl)

/-- **A spelling is read as its token**, and the text after it is left as it is. -/
theorem readToken_spelling {t : Token} {cs : List Char} (hspells : t.Spells cs)
    (hclosed : t.Closed rest) :
    readToken (cs ++ rest) = (.ok t, rest) := by
  -- a token that does not end itself is ended by what follows
  have hends : t.endsItself = false → ∀ c ∈ rest.head?, isWordChar c = false ∧
      isNumberChar c = false ∧
      c ≠ '.' := by
    intro hself c hc
    obtain ⟨hword, hnumber, hother⟩ := endsToken_facts (hclosed.resolve_left (by simp [hself]) c hc)
    exact ⟨hword, hnumber, fun h => hother (by simp [h])⟩
  cases hspells with
  | @int n zeros hn =>
    have hdigits : ∀ c ∈ List.replicate zeros '0' ++ Decimal.digitsOf n.toInt.toNat,
        c.isDigit = true := by
      intro c hc
      rcases List.mem_append.1 hc with hc | hc
      · exact Decimal.Spelling.isDigit_of_mem_zeros hc
      · exact Decimal.isDigit_of_mem_digitsOf hc
    rw [readToken_number ?_ (fun c hc => ?_) (fun c hc => (hends rfl c hc).2.1),
      numberToken_int zeros hn]
    · obtain ⟨c, cs, heq⟩ := List.exists_cons_of_ne_nil
        (List.append_ne_nil_of_right_ne_nil _ (Decimal.digitsOf_ne_nil n.toInt.toNat))
      exact ⟨c, cs, heq, hdigits c (by rw [heq]; exact List.mem_cons_self)⟩
    · rw [isNumberChar, hdigits c hc, Bool.true_or]
  | @float whole part hwhole hpart hdigits =>
    obtain ⟨hw, hp⟩ := List.forall_mem_append.1 hdigits
    rw [readToken_number ?_ (fun c hc => ?_) (fun c hc => (hends rfl c hc).2.1),
      numberToken_float hwhole hdigits]
    · obtain ⟨c, cs, rfl⟩ := List.exists_cons_of_ne_nil hwhole
      exact ⟨c, _, rfl, hw c List.mem_cons_self⟩
    · rcases List.mem_append.1 hc with hc | hc
      · rw [isNumberChar, hw c hc, Bool.true_or]
      · rcases List.mem_cons.1 hc with rfl | hc
        · rfl
        · rw [isNumberChar, hp c hc, Bool.true_or]
  | doubleQuoted hquoted => exact readToken_quoted (.inl rfl) hquoted
  | singleQuoted htext => exact readToken_quoted (.inr rfl) (quoted_flatMap_escapeSingle htext)
  | @bool b word hlower =>
    have hword : IsWord cs := by
      refine isWord_of_toLower hlower ?_ ?_ <;> cases b <;> decide
    rw [readToken_word hword fun c hc => (hends rfl c hc).1, wordToken_bool hlower]
  | null hlower =>
    have hword : IsWord cs := isWord_of_toLower hlower (by decide) (by decide)
    rw [readToken_word hword fun c hc => (hends rfl c hc).1, wordToken_null hlower]
  | ident hword hkeyword hconstant =>
    rw [readToken_word hword fun c hc => (hends rfl c hc).1, wordToken_ident hkeyword hconstant]
  | @hostName path hpath =>
    have hread := readPath_path hpath fun c hc => ⟨(hends rfl c hc).1, (hends rfl c hc).2.2⟩
    have hletter : (path ++ rest).head?.any Char.isAlpha = true := isAlpha_head_path hpath
    rw [List.cons_append, readToken, if_neg (by decide), if_neg (by decide), if_neg (by decide),
      if_pos rfl, if_pos hletter, hread]
  | @keyword k =>
    have hword : IsWord k.spelling.toList := by
      cases k <;> exact .of_all (by decide) (by decide)
    rw [readToken_word hword fun c hc => (hends rfl c hc).1, wordToken_keyword]
  | mark => exact readToken_mark hclosed

end Scanner

end BindScript
