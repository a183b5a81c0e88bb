/-
**What the scanner reads.**

The scanner is read backwards from a token that it has found: which kinds of tokens there are, and
what is known of each.  A word begins with a letter, a name of the host is made of words and points,
and a number has no sign.

Main results:

* `Scanner.readToken_cases` — **the tokens that can be read**.
-/

import BindScript.Proofs.Token.Spelling

namespace BindScript

variable {cs : List Char} {c : Char} {t : Token}

namespace Scanner

/-! ### Names of the host -/

/-- A dotted name that has been read goes on as a word, and then perhaps with a point and another
name. -/
theorem readPath_cases (cs : List Char) : ∃ word tail, (readPath cs).1 = word ++ tail ∧
    (∀ c ∈ word, isWordChar c = true) ∧ (tail = [] ∨ ∃ path, tail = '.' :: path ∧ IsPath path) ∧
    (cs.head?.any Char.isAlpha = true → IsWord word) := by
  induction cs with
  | nil => exact ⟨[], [], rfl, by simp, .inl rfl, by simp⟩
  | cons c cs ih =>
    obtain ⟨word, tail, hpath, hword, htail, hfirst⟩ := ih
    rw [readPath]
    by_cases hc : isWordChar c = true
    · refine ⟨c :: word, tail, ?_, List.forall_mem_cons.2 ⟨hc, hword⟩, htail, ?_⟩
      · simp [hc, hpath]
      · intro halpha
        exact ⟨c, word, rfl, by simpa using halpha, hword⟩
    · have hletter : c.isAlpha = false := by
        cases halpha : c.isAlpha with
        | false => rfl
        | true => exact absurd (by simp [isWordChar, Char.isAlphanum, halpha]) hc
      by_cases hpoint : c = '.' ∧ cs.head?.any Char.isAlpha = true
      · -- a letter follows the point, so what follows is a name by itself
        have hname : IsPath (word ++ tail) := by
          rcases htail with rfl | ⟨path, rfl, htail⟩
          · rw [List.append_nil]
            exact .word (hfirst hpoint.2)
          · exact .point (hfirst hpoint.2) htail
        refine ⟨[], '.' :: (word ++ tail), ?_, by simp, .inr ⟨_, rfl, hname⟩, ?_⟩
        · simp [hpoint.1, hpoint.2, hpath]
        · simp [hletter]
      · have hstop : ¬(isWordChar c || c == '.' && cs.head?.any Char.isAlpha) = true := by
          simpa [hc] using hpoint
        exact ⟨[], [], by rw [if_neg hstop]; rfl, by simp, .inl rfl, by simp [hletter]⟩

theorem isPath_readPath (h : cs.head?.any Char.isAlpha = true) : IsPath (readPath cs).1 := by
  obtain ⟨word, tail, hpath, -, htail, hfirst⟩ := readPath_cases cs
  rw [hpath]
  rcases htail with rfl | ⟨path, rfl, htail⟩
  · rw [List.append_nil]
    exact .word (hfirst h)
  · exact .point (hfirst h) htail

/-! ### Numbers -/

theorem readSpecial?_of_isDigit (hc : c.isDigit = true) (cs : List Char) :
    Decimal.readSpecial? (c :: cs) = none := by
  have hlower : c.toLower = c := by
    simp only [Char.isDigit, Bool.and_eq_true, decide_eq_true_eq] at hc
    refine dif_neg fun hupper => ?_
    exact absurd (UInt32.le_trans hupper.1 hc.2) (by decide)
  have hi : c ≠ 'i' := fun h => absurd (h ▸ hc) (by decide)
  have hn : c ≠ 'n' := fun h => absurd (h ▸ hc) (by decide)
  simp [Decimal.readSpecial?, Text.eqIgnoringCase, hlower, hi, hn]

theorem readMagnitude?_of_readFloat? (hc : c.isDigit = true) {x : Float}
    (h : Decimal.readFloat? (c :: cs) = some x) : Decimal.readMagnitude? (c :: cs) = some x := by
  rw [Decimal.readFloat?, Decimal.takeSign_of_isDigit hc] at h
  simpa only [readSpecial?_of_isDigit hc, Option.or_none, Bool.false_eq_true, if_false,
    Option.map_id'] using h

theorem toInt_nonneg_of_readInt64? (hc : c.isDigit = true) {n : Int64}
    (h : Decimal.readInt64? (c :: cs) = some n) : 0 ≤ n.toInt := by
  rw [Decimal.readInt64?, Decimal.readInt?, Decimal.takeSign_of_isDigit hc] at h
  obtain ⟨i, hi, hword⟩ := Option.bind_eq_some_iff.1 h
  obtain ⟨j, hj, rfl⟩ := Option.map_eq_some_iff.1 hi
  obtain ⟨k, -, hk⟩ := Option.bind_eq_some_iff.1 hj
  obtain rfl : (k : Int) = j := Option.some.inj hk
  simp only [Decimal.toInt64?, Bool.false_eq_true, if_false] at hword
  split at hword
  · rename_i hrange
    rw [← Option.some.inj hword, Int64.toInt_ofInt_of_le (by omega) (by omega)]
    exact Int.natCast_nonneg k
  · cases hword

/-- A number that is read is an integer that is not negative, or digits with a point. -/
theorem numberToken_cases (hc : c.isDigit = true) (h : numberToken (c :: cs) = .ok t) :
    (∃ n, 0 ≤ n.toInt ∧ t = .int n) ∨ ∃ x text, Decimal.readMagnitude? text = some x ∧
    t = .float x := by
  unfold numberToken at h
  split at h
  · split at h
    · rename_i n hread
      exact .inl ⟨n, toInt_nonneg_of_readInt64? hc hread, (Except.ok.inj h).symm⟩
    · cases h
  · split at h
    · rename_i x hread
      exact .inr ⟨x, _, readMagnitude?_of_readFloat? hc hread, (Except.ok.inj h).symm⟩
    · cases h
  · cases h

/-! ### Tokens -/

/-- Where something is left, the end of the text is not read: a string, a number, a word, a name of
the host, or a mark. -/
theorem readToken_cons_cases {rest : List Char} (h : readToken (c :: cs) = (.ok t, rest)) :
    (∃ s, t = .string s) ∨ (∃ d ds, d.isDigit = true ∧ numberToken (d :: ds) = .ok t) ∨
      (∃ word, IsWord word ∧ t = wordToken word) ∨
      (∃ path, IsPath path ∧ t = .hostName (String.ofList path)) ∨ ∃ m, t = .mark m := by
  simp only [readToken] at h
  split at h
  · obtain ⟨htoken, -⟩ := Prod.mk.inj h
    cases hq : (readQuoted c cs).1 with
    | error e => simp [hq, Except.map] at htoken
    | ok text => exact .inl ⟨_, by simpa [hq, Except.map] using htoken.symm⟩
  · refine .inr ?_
    split at h
    · rename_i hc
      obtain ⟨htoken, -⟩ := Prod.mk.inj h
      rw [List.takeWhile_cons_of_pos (by rw [isNumberChar, hc, Bool.true_or])] at htoken
      exact .inl ⟨c, _, hc, htoken⟩
    · refine .inr ?_
      split at h
      · rename_i hc
        obtain ⟨htoken, -⟩ := Prod.mk.inj h
        have hword : isWordChar c = true := by simp [isWordChar, Char.isAlphanum, hc]
        rw [List.takeWhile_cons_of_pos hword] at htoken
        refine .inl ⟨_, ⟨c, _, rfl, hc, ?_⟩, (Except.ok.inj htoken).symm⟩
        exact List.all_eq_true.1 List.all_takeWhile
      · refine .inr ?_
        split at h
        · split at h
          · rename_i hletter
            exact .inl ⟨_, isPath_readPath hletter, (Except.ok.inj (Prod.mk.inj h).1).symm⟩
          · exact absurd (Prod.mk.inj h).1 (by simp)
        · refine .inr ?_
          split at h
          · exact ⟨_, (Except.ok.inj (Prod.mk.inj h).1).symm⟩
          · split at h
            · exact ⟨_, (Except.ok.inj (Prod.mk.inj h).1).symm⟩
            · exact absurd (Prod.mk.inj h).1 (by simp)

/-- **The tokens that can be read**: the end of the text, a string, a number, a word, a name of the
host, or a mark. -/
theorem readToken_cases {rest : List Char} (h : readToken cs = (.ok t, rest)) :
    t = .eof ∨ (∃ s, t = .string s) ∨ (∃ c ds, c.isDigit = true ∧ numberToken (c :: ds) = .ok t) ∨
      (∃ word, IsWord word ∧ t = wordToken word) ∨
      (∃ path, IsPath path ∧ t = .hostName (String.ofList path)) ∨ ∃ m, t = .mark m := by
  cases cs with
  | nil => exact .inl (Except.ok.inj (Prod.mk.inj h).1).symm
  | cons c cs => exact .inr (readToken_cons_cases h)

theorem next_eq_ok {s s' : Scanner} {t : Token.Located} (h : s.next = (.ok t, s')) :
    ∃ cs rest, readToken cs = (.ok t.token, rest) := by
  unfold next at h
  split at h
  · exact absurd (Prod.mk.inj h).1 (by simp)
  · split at h
    · rename_i hread
      obtain ⟨htoken, -⟩ := Prod.mk.inj h
      obtain rfl : _ = t := Except.ok.inj htoken
      exact ⟨_, _, hread⟩
    · exact absurd (Prod.mk.inj h).1 (by simp)

end Scanner

/-- The tokens of a text have been read from it, and the end of the text is not among them. -/
theorem TokenRun.exists_readToken {fuel : Nat} {s : Scanner} {t : Token.Located}
    (h : t ∈ (TokenRun.ofScanner fuel s).tokens) :
    t.token ≠ .eof ∧ ∃ cs rest, Scanner.readToken cs = (.ok t.token, rest) := by
  induction fuel generalizing s with
  | zero => simp [TokenRun.ofScanner] at h
  | succ fuel ih =>
    simp only [TokenRun.ofScanner] at h
    split at h
    · simp at h
    · rename_i t' s' hnext
      split at h
      · simp at h
      · rename_i hne
        rcases List.mem_cons.1 h with rfl | h
        · exact ⟨hne, Scanner.next_eq_ok hnext⟩
        · exact ih h

end BindScript
