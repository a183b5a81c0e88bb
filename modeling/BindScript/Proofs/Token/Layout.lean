/-
**Texts that are laid out as tokens and gaps.**

Between tokens there are gaps of blanks and comments.  The scanner skips a gap and counts its line
breaks, so that every token gets the line on which it stands.  Whatever the spellings and the gaps,
the scanner finds the tokens that were spelled.

Main results:

* `lex_spelled` — **lexing undoes spelling**, and every token stands on the line after as many
  line breaks as there are before it.
-/

import BindScript.Proofs.Token.Spelling
import Mathlib.Data.List.Infix

namespace BindScript

/-! ### Gaps -/

/-- A gap: blanks, comments up to the end of their line, and comments with an end of their own. -/
inductive IsGap : List Char → Prop
  | nil : IsGap []
  | blank {c gap} : isBlankChar c = true → IsGap gap → IsGap (c :: gap)
  | lineComment {text gap} : '\n' ∉ text → IsGap gap → IsGap ('/' :: '/' :: (text ++ '\n' :: gap))
  | blockComment {text gap} : ¬['*', '/'] <:+: text → IsGap gap →
      IsGap ('/' :: '*' :: (text ++ '*' :: '/' :: gap))

/-- No gap begins at the start of a text, which is not empty. -/
def NoGapAt (text : List Char) : Prop :=
  ∃ c cs, text = c :: cs ∧ isBlankChar c = false ∧ (c = '/' → ∀ d ∈ cs.head?, d ≠ '/' ∧ d ≠ '*')

namespace Scanner

variable {rest : List Char}

/-! ### Skipping a gap -/

/-- In a comment that ends with its line everything is skipped up to the line break. -/
theorem skipGap_lineComment {text : List Char} (h : '\n' ∉ text) (line : Nat) :
    skipGap .lineComment line (text ++ '\n' :: rest) = skipGap .blank (line + 1) rest := by
  induction text with
  | nil => simp [skipGap]
  | cons c text ih =>
    obtain ⟨hc, htext⟩ : '\n' ≠ c ∧ '\n' ∉ text := by simpa using h
    rw [List.cons_append, skipGap]
    · exact ih htext
    · exact hc.symm

/-- In a comment with an end of its own everything is skipped up to that end, and line breaks are
counted. -/
theorem skipGap_blockComment {text : List Char} (h : ¬['*', '/'] <:+: text) (start line : Nat) :
    skipGap (.blockComment start) line (text ++ '*' :: '/' :: rest) =
      skipGap .blank (line + text.count '\n') rest := by
  induction text generalizing line with
  | nil => simp [skipGap]
  | cons c text ih =>
    have htext : ¬['*', '/'] <:+: text := fun hin => h (hin.trans (List.suffix_cons c text).isInfix)
    by_cases hbreak : c = '\n'
    · subst hbreak
      rw [List.cons_append, skipGap, ih htext, List.count_cons_self]
      congr 1
      omega
    · -- a star in the text is not followed by a slash
      have hstar : ∀ cs, c = '*' → ¬text ++ '*' :: '/' :: rest = '/' :: cs := by
        rintro cs rfl heq
        cases text with
        | nil => exact absurd (List.cons.inj heq).1 (by decide)
        | cons d text =>
          obtain rfl : d = '/' := (List.cons.inj heq).1
          exact h (List.prefix_append ['*', '/'] text).isInfix
      rw [List.cons_append, skipGap, ih htext, List.count_cons_of_ne hbreak]
      · exact hstar
      · exact hbreak

/-- **A gap is skipped**, and its line breaks are counted. -/
theorem skipGap_gap {gap : List Char} (h : IsGap gap) (line : Nat) :
    skipGap .blank line (gap ++ rest) = skipGap .blank (line + gap.count '\n') rest := by
  induction h generalizing line with
  | nil => rfl
  | @blank c gap hc _ ih =>
    simp only [isBlankChar, Bool.or_eq_true, beq_iff_eq] at hc
    rcases hc with ((rfl | rfl) | rfl) | rfl
    · rw [List.cons_append, skipGap, ih, List.count_cons_of_ne (by decide)]
    · rw [List.cons_append, skipGap, ih, List.count_cons_of_ne (by decide)]
    · rw [List.cons_append, skipGap, ih, List.count_cons_of_ne (by decide)]
    · rw [List.cons_append, skipGap, ih, List.count_cons_self]
      congr 1
      omega
  | @lineComment text gap htext _ ih =>
    have hcount : ('/' :: '/' :: (text ++ '\n' :: gap)).count '\n' = 1 + gap.count '\n' := by
      rw [List.count_cons_of_ne (by decide), List.count_cons_of_ne (by decide), List.count_append,
        List.count_cons_self, List.count_eq_zero.2 htext]
      omega
    rw [hcount, List.cons_append, List.cons_append, skipGap, List.append_assoc, List.cons_append,
      skipGap_lineComment htext, ih]
    congr 1
    omega
  | @blockComment text gap htext _ ih =>
    have hcount : ('/' :: '*' :: (text ++ '*' :: '/' :: gap)).count '\n' =
        text.count '\n' + gap.count '\n' := by
      rw [List.count_cons_of_ne (by decide), List.count_cons_of_ne (by decide), List.count_append,
        List.count_cons_of_ne (by decide), List.count_cons_of_ne (by decide)]
    rw [hcount, List.cons_append, List.cons_append, skipGap, List.append_assoc, List.cons_append,
      List.cons_append, skipGap_blockComment htext, ih]
    congr 1
    omega

theorem skipGap_noGapAt {text : List Char} (h : NoGapAt text) (line : Nat) :
    skipGap .blank line text = (none, ⟨text, line⟩) := by
  obtain ⟨c, cs, rfl, hblank, hslash⟩ := h
  simp only [isBlankChar, Bool.or_eq_false_iff, beq_eq_false_iff_ne] at hblank
  obtain ⟨⟨⟨hspace, htab⟩, hreturn⟩, hbreak⟩ := hblank
  have hcomment : ∀ d rest, c = '/' → cs = d :: rest → d ≠ '/' ∧ d ≠ '*' := by
    rintro d rest hc rfl
    exact hslash hc d rfl
  rw [skipGap]
  · exact hbreak
  · exact hspace
  · exact htab
  · exact hreturn
  · exact fun rest hc hcs => (hcomment _ rest hc hcs).1 rfl
  · exact fun rest hc hcs => (hcomment _ rest hc hcs).2 rfl

end Scanner

/-! ### Characters of spellings -/

variable {cs : List Char} {t : Token}

namespace Token

theorem not_mem_word {word : List Char} (h : IsWord word) : '\n' ∉ word := by
  intro hmem
  exact absurd (Scanner.isWordChar_of_mem h _ hmem) (by decide)

theorem not_mem_path {path : List Char} (h : IsPath path) : '\n' ∉ path := by
  induction h with
  | word hw => exact not_mem_word hw
  | point hw _ ih =>
    intro hmem
    rcases List.mem_append.1 hmem with hmem | hmem
    · exact not_mem_word hw hmem
    · rcases List.mem_cons.1 hmem with heq | hmem
      · cases heq
      · exact ih hmem

theorem not_mem_quoted {quote : Char} {text : List Char} (hquote : quote = '"' ∨ quote = '\'')
    (h : Quoted quote text cs) : '\n' ∉ cs := by
  induction h with
  | nil => simp
  | plain _ _ hbreak _ ih =>
    intro hmem
    rcases List.mem_cons.1 hmem with heq | hmem
    · exact hbreak heq.symm
    · exact ih hmem
  | @escaped e c text cs he _ ih =>
    have hletter : e ≠ '\n' := by
      have hfirst : e ∈ (escapes quote).map Prod.fst := List.mem_map_of_mem he
      rintro rfl
      revert hfirst
      rcases hquote with rfl | rfl <;> decide
    intro hmem
    rcases List.mem_cons.1 hmem with heq | hmem
    · cases heq
    · rcases List.mem_cons.1 hmem with heq | hmem
      · exact hletter heq.symm
      · exact ih hmem

theorem Spells.not_mem (h : t.Spells cs) : '\n' ∉ cs := by
  have hdigits : ∀ ds : List Char, (∀ c ∈ ds, c.isDigit = true) → '\n' ∉ ds := by
    intro ds hds hmem
    exact absurd (hds _ hmem) (by decide)
  cases h with
  | int zeros _ =>
    intro hmem
    rcases List.mem_append.1 hmem with hmem | hmem
    · exact absurd (List.eq_of_mem_replicate hmem) (by decide)
    · exact Decimal.not_mem_digitsOf (by decide) _ hmem
  | float _ _ hall =>
    obtain ⟨hw, hp⟩ := List.forall_mem_append.1 hall
    intro hmem
    rcases List.mem_append.1 hmem with hmem | hmem
    · exact hdigits _ hw hmem
    · rcases List.mem_cons.1 hmem with heq | hmem
      · cases heq
      · exact hdigits _ hp hmem
  | doubleQuoted hquoted => simpa using not_mem_quoted (.inl rfl) hquoted
  | singleQuoted htext => simpa using not_mem_quoted (.inr rfl) (quoted_flatMap_escapeSingle htext)
  | @bool b word hlower =>
    refine not_mem_word (Scanner.isWord_of_toLower hlower ?_ ?_) <;> cases b <;> decide
  | null hlower => exact not_mem_word (Scanner.isWord_of_toLower hlower (by decide) (by decide))
  | ident hword _ _ => exact not_mem_word hword
  | hostName hpath => simpa using not_mem_path hpath
  | @keyword k => cases k <;> decide
  | @mark m => cases m <;> decide

theorem Spells.noGapAt {rest : List Char} (h : t.Spells cs) (hclosed : t.Closed rest) :
    NoGapAt (cs ++ rest) := by
  -- apart from marks, what begins a token is neither a blank nor a slash
  have hfirst : ∀ {c more}, cs = c :: more → isBlankChar c = false → c ≠ '/' →
      NoGapAt (cs ++ rest) := by
    rintro c more rfl hblank hslash
    exact ⟨c, more ++ rest, rfl, hblank, fun h => absurd h hslash⟩
  have halphanum : ∀ {c more}, cs = c :: more → c.isAlphanum = true → NoGapAt (cs ++ rest) := by
    intro c more hcs hc
    refine hfirst hcs ?_ ?_
    · cases hblank : isBlankChar c with
      | false => rfl
      | true =>
        simp only [isBlankChar, Bool.or_eq_true, beq_iff_eq] at hblank
        rcases hblank with ((rfl | rfl) | rfl) | rfl <;> exact absurd hc (by decide)
    · rintro rfl
      cases hc
  have hdigit : ∀ {c more}, cs = c :: more → c.isDigit = true → NoGapAt (cs ++ rest) :=
    fun hcs hc => halphanum hcs (by simp [Char.isAlphanum, hc])
  have hword : IsWord cs → NoGapAt (cs ++ rest) := by
    rintro ⟨c, more, hcs, hc, -⟩
    exact halphanum hcs (by simp [Char.isAlphanum, hc])
  cases h with
  | @int n zeros _ =>
    obtain ⟨c, more, hcs⟩ := List.exists_cons_of_ne_nil
      (List.append_ne_nil_of_right_ne_nil (List.replicate zeros '0')
        (Decimal.digitsOf_ne_nil n.toInt.toNat))
    refine hdigit hcs ?_
    rcases List.mem_append.1 (hcs ▸ List.mem_cons_self : c ∈ _ ++ _) with hc | hc
    · exact Decimal.Spelling.isDigit_of_mem_zeros hc
    · exact Decimal.isDigit_of_mem_digitsOf hc
  | float hwhole _ hall =>
    obtain ⟨c, more, rfl⟩ := List.exists_cons_of_ne_nil hwhole
    exact hdigit rfl (hall c (List.mem_append_left _ List.mem_cons_self))
  | doubleQuoted _ => exact hfirst rfl (by decide) (by decide)
  | singleQuoted _ => exact hfirst rfl (by decide) (by decide)
  | @bool b word hlower =>
    refine hword (Scanner.isWord_of_toLower hlower ?_ ?_) <;> cases b <;> decide
  | null hlower => exact hword (Scanner.isWord_of_toLower hlower (by decide) (by decide))
  | ident h _ _ => exact hword h
  | hostName => exact hfirst rfl (by decide) (by decide)
  | @keyword k => cases k <;> exact hfirst rfl (by decide) (by decide)
  | @mark m =>
    cases m with
    | slash =>
      refine ⟨'/', rest, rfl, by decide, fun _ d hd => ?_⟩
      have hend := (endsToken_facts (hclosed.resolve_left (by decide) d hd)).2.2
      simp only [List.mem_cons, not_or] at hend
      exact ⟨hend.2.2.2.2.1, hend.2.2.2.2.2.1⟩
    | _ => exact hfirst rfl (by decide) (by decide)

end Token

/-! ### Layouts -/

/-- A token with its spelling and the gap before it. -/
structure Piece where
  gap : List Char
  token : Token
  spelling : List Char

def textOf (pieces : List Piece) : List Char := pieces.flatMap fun p => p.gap ++ p.spelling

/-- The tokens of pieces after the text `before`, each on the line that the line breaks before it
make. -/
def locate (before : List Char) : List Piece → List Token.Located
  | [] => []
  | p :: ps =>
    ⟨p.token, 1 + (before ++ p.gap).count '\n'⟩ :: locate (before ++ p.gap ++ p.spelling) ps

/-- Pieces with a gap at the end are laid out so that every token is over before the text after
it. -/
def Laid : List Piece → List Char → Prop
  | [], last => IsGap last
  | p :: ps, last =>
    IsGap p.gap ∧ p.token.Spells p.spelling ∧ p.token.Closed (textOf ps ++ last) ∧ Laid ps last

namespace Scanner

/-- The next token of a text that begins with a gap and a spelling. -/
theorem next_spelling {gap rest : List Char} (hgap : IsGap gap) (hspells : t.Spells cs)
    (hclosed : t.Closed rest) (line : Nat) :
    next ⟨gap ++ (cs ++ rest), line⟩ =
      (.ok ⟨t, line + gap.count '\n'⟩, ⟨rest, line + gap.count '\n'⟩) := by
  rw [next, skipGap_gap hgap, skipGap_noGapAt (hspells.noGapAt hclosed)]
  simp only [readToken_spelling hspells hclosed]

theorem next_gap {gap : List Char} (hgap : IsGap gap) (line : Nat) :
    next ⟨gap, line⟩ = (.ok ⟨.eof, line + gap.count '\n'⟩, ⟨[], line + gap.count '\n'⟩) := by
  have hskip := @skipGap_gap [] gap hgap line
  rw [List.append_nil] at hskip
  rw [next, hskip]
  rfl

end Scanner

variable {pieces : List Piece} {last : List Char}

/-- The tokens that a scanner reads from the rest of a text that is laid out. -/
theorem TokenRun.ofScanner_laid (h : Laid pieces last) (before : List Char) {fuel : Nat}
    (hfuel : pieces.length < fuel) :
    TokenRun.ofScanner fuel ⟨textOf pieces ++ last, 1 + before.count '\n'⟩ =
      ⟨locate before pieces, .ok (1 + (before ++ textOf pieces ++ last).count '\n')⟩ := by
  induction pieces generalizing before fuel with
  | nil =>
    obtain ⟨fuel, rfl⟩ : ∃ k, fuel = k + 1 := ⟨fuel - 1, by omega⟩
    have hnext := Scanner.next_gap h (1 + before.count '\n')
    rw [textOf, List.flatMap_nil, List.nil_append, TokenRun.ofScanner, hnext]
    simp [locate, List.count_append, Nat.add_assoc]
  | cons p ps ih =>
    obtain ⟨hgap, hspells, hclosed, hrest⟩ := h
    obtain ⟨fuel, rfl⟩ : ∃ k, fuel = k + 1 := ⟨fuel - 1, by omega⟩
    have htext : textOf (p :: ps) ++ last = p.gap ++ (p.spelling ++ (textOf ps ++ last)) := by
      simp [textOf]
    have hnext := Scanner.next_spelling hgap hspells hclosed (1 + before.count '\n')
    have hne : p.token ≠ .eof := by
      intro heof
      rw [heof] at hspells
      cases hspells
    -- a spelling has no line breaks, so the next token is on the same line but for its gap
    have hline : 1 + before.count '\n' + p.gap.count '\n' =
        1 + (before ++ p.gap ++ p.spelling).count '\n' := by
      rw [List.count_append, List.count_append, List.count_eq_zero.2 hspells.not_mem]
      omega
    have hstep := @ih hrest (before ++ p.gap ++ p.spelling) fuel (by simpa using hfuel)
    rw [htext, TokenRun.ofScanner, hnext]
    simp only [if_neg hne]
    rw [hline, hstep, locate, TokenRun.cons, ← hline]
    simp [textOf, List.count_append, Nat.add_assoc]

theorem length_le_textOf (h : ∀ p ∈ pieces, p.token.Spells p.spelling) :
    pieces.length ≤ (textOf pieces).length := by
  induction pieces with
  | nil => exact Nat.le_refl 0
  | cons p ps ih =>
    obtain ⟨hp, hps⟩ := List.forall_mem_cons.1 h
    have hclosed : p.token.Closed [] := .inr (by simp)
    obtain ⟨c, more, hcs, -⟩ := hp.noGapAt hclosed
    have hpos : 0 < p.spelling.length := by
      rw [List.append_nil] at hcs
      rw [hcs]
      exact Nat.succ_pos _
    have hlength : (textOf (p :: ps)).length =
        p.gap.length + p.spelling.length + (textOf ps).length := by
      simp [textOf, Nat.add_assoc]
    rw [hlength, List.length_cons]
    have := ih hps
    omega

theorem Laid.spells (h : Laid pieces last) : ∀ p ∈ pieces, p.token.Spells p.spelling := by
  induction pieces with
  | nil => simp
  | cons p ps ih => exact List.forall_mem_cons.2 ⟨h.2.1, ih h.2.2.2⟩

/-- **The tokens of a text that is laid out.** -/
theorem TokenRun.ofText_laid (h : Laid pieces last) :
    TokenRun.ofText (String.ofList (textOf pieces ++ last)) =
      ⟨locate [] pieces, .ok (1 + (textOf pieces ++ last).count '\n')⟩ := by
  have hlength := length_le_textOf h.spells
  have hfuel : pieces.length < (textOf pieces ++ last).length + 1 := by
    rw [List.length_append]
    omega
  have hrun := TokenRun.ofScanner_laid h [] hfuel
  rw [TokenRun.ofText, Scanner.start, String.toList_ofList]
  exact hrun

/-- Tokens are spelled one after the other, with gaps between them that begin with a blank. There
may be a gap before the first token and one after the last. -/
structure Spelled (pieces : List Piece) (last : List Char) : Prop where
  spellings : ∀ p ∈ pieces, p.token.Spells p.spelling
  gaps : ∀ p ∈ pieces, IsGap p.gap
  lastGap : IsGap last
  /-- Between two tokens there is a blank. -/
  apart : ∀ p ∈ pieces.tail, ∃ c cs, p.gap = c :: cs ∧ isBlankChar c = true
  /-- And if there is anything between the last token and the end of the text, it begins with
  one. -/
  lastApart : pieces ≠ [] → last = [] ∨ ∃ c cs, last = c :: cs ∧ isBlankChar c = true

theorem Spelled.laid (h : Spelled pieces last) : Laid pieces last := by
  induction pieces with
  | nil => exact h.lastGap
  | cons p ps ih =>
    obtain ⟨hspelling, hspellings⟩ := List.forall_mem_cons.1 h.spellings
    obtain ⟨hgap, hgaps⟩ := List.forall_mem_cons.1 h.gaps
    have hlast := h.lastApart (List.cons_ne_nil p ps)
    have hends : ∀ {c : Char}, isBlankChar c = true → endsToken c = true := by
      intro c hc
      rw [endsToken, hc]
      rfl
    -- nothing follows the token, or a blank does
    have hclosed : p.token.Closed (textOf ps ++ last) := by
      refine .inr fun c hc => ?_
      cases ps with
      | nil =>
        rcases hlast with rfl | ⟨d, cs, rfl, hd⟩
        · simp [textOf] at hc
        · obtain rfl : d = c := by simpa [textOf] using hc
          exact hends hd
      | cons q qs =>
        obtain ⟨d, cs, hq, hd⟩ := h.apart q List.mem_cons_self
        obtain rfl : d = c := by simpa [textOf, hq] using hc
        exact hends hd
    exact ⟨hgap, hspelling, hclosed, ih ⟨hspellings, hgaps, h.lastGap,
      fun q hq => h.apart q (List.mem_of_mem_tail hq), fun _ => hlast⟩⟩

/-- **Lexing undoes spelling.** Tokens that are spelled in any way, with gaps between them, are read
as these tokens with the end of the text after them, and each stands on the line after as many line
breaks as there are before it. -/
theorem lex_spelled {pieces : List Piece} {last : List Char} (h : Spelled pieces last) :
    lex (String.ofList (textOf pieces ++ last)) =
      .ok (locate [] pieces ++ [⟨.eof, 1 + (textOf pieces ++ last).count '\n'⟩]) := by
  rw [lex, TokenRun.ofText_laid h.laid]
  rfl

/-- A constant in capitals, a comparison, a string with an escape, an integer with zeros in front, a
name of the host and a string in single quotes, with a comment of each kind between them. -/
def samplePieces : List Piece :=
  [⟨[], .bool true, "TRUE".toList⟩,
    ⟨" // yes\n".toList, .mark .ne, "!=".toList⟩,
    ⟨"\t".toList, .string "a\n", "\"a\\n\"".toList⟩,
    ⟨"\r\n/* two\nlines **/".toList, .int 7, "007".toList⟩,
    ⟨" ".toList, .hostName "ui.mode", "@ui.mode".toList⟩,
    ⟨" ".toList, .string "it's", "'it\\'s'".toList⟩]

theorem spelled_samplePieces : Spelled samplePieces [] := by
  refine ⟨?_, ?_, .nil, ?_, fun _ => .inl rfl⟩
  · simp only [samplePieces, List.forall_mem_cons]
    refine ⟨.bool rfl, .mark, ?_, .int 2 (by decide), ?_, ?_, by simp⟩
    · exact @Token.Spells.doubleQuoted ['a', '\n'] _
        (.plain (by decide) (by decide) (by decide) (.escaped (by decide) .nil))
    · have hui : IsWord "ui".toList := .of_all (by decide) (by decide)
      have hmode : IsWord "mode".toList := .of_all (by decide) (by decide)
      exact .hostName (.point hui (.word hmode))
    · exact @Token.Spells.singleQuoted "it's".toList (by decide)
  · simp only [samplePieces, List.forall_mem_cons]
    refine ⟨.nil, ?_, .blank rfl .nil, ?_, .blank rfl .nil, .blank rfl .nil, by simp⟩
    · exact .blank rfl (@IsGap.lineComment " yes".toList [] (by decide) .nil)
    · exact .blank rfl (.blank rfl (@IsGap.blockComment " two\nlines *".toList [] (by decide) .nil))
  · simp only [samplePieces, List.tail_cons, List.forall_mem_cons]
    exact ⟨⟨_, _, rfl, rfl⟩, ⟨_, _, rfl, rfl⟩, ⟨_, _, rfl, rfl⟩, ⟨_, _, rfl, rfl⟩, ⟨_, _, rfl, rfl⟩,
      by simp⟩

theorem lex_spelled_sample :
    lex "TRUE // yes\n!=\t\"a\\n\"\r\n/* two\nlines **/007 @ui.mode 'it\\'s'" =
      .ok [⟨.bool true, 1⟩, ⟨.mark .ne, 2⟩, ⟨.string "a\n", 2⟩, ⟨.int 7, 4⟩,
        ⟨.hostName "ui.mode", 4⟩, ⟨.string "it's", 4⟩, ⟨.eof, 4⟩] := by
  have htext : String.ofList (textOf samplePieces ++ []) =
      "TRUE // yes\n!=\t\"a\\n\"\r\n/* two\nlines **/007 @ui.mode 'it\\'s'" := by
    decide +kernel
  rw [← htext, lex_spelled spelled_samplePieces]
  decide +kernel

end BindScript
