/-
**The scanner moves on.**

Every token but the end of the text takes at least one character, and at the end of the text the
scanner stays where it is.  So reading one token after the other gives the tokens of the text, and
then its end again and again.  The number of steps that the tokens of a text are read in is
therefore never the reason for which reading stops.

Main results:

* `Scanner.next_progress` — **a token takes a character, or it is the end of the text**.
-/

import BindScript.Proofs.Elaboration
import BindScript.Proofs.Token.Reading

namespace BindScript

variable {c : Char}

namespace Scanner

/-! ### What is left of a text -/

theorem readQuoted_suffix (quote : Char) (cs : List Char) : (readQuoted quote cs).2 <:+ cs := by
  fun_induction readQuoted quote cs with
  | case1 => exact List.suffix_refl _
  | case2 cs => exact List.suffix_cons _ cs
  | case3 => exact List.nil_suffix
  | case4 e cs c hc ih => exact ih.trans ⟨['\\', e], rfl⟩
  | case5 e cs hc => exact List.suffix_cons _ _
  | case6 => exact List.suffix_cons _ _
  | case7 c cs _ _ _ _ ih => exact ih.trans (List.suffix_cons c cs)

theorem readPath_suffix (cs : List Char) : (readPath cs).2 <:+ cs := by
  induction cs with
  | nil => exact List.suffix_refl _
  | cons c cs ih =>
    rw [readPath]
    split
    · exact ih.trans (List.suffix_cons c cs)
    · exact List.suffix_refl _

theorem dropWhile_cons_suffix {p : Char → Bool} (hc : p c = true) (cs : List Char) :
    (c :: cs).dropWhile p <:+ cs := by
  rw [List.dropWhile_cons_of_pos hc]
  exact List.dropWhile_suffix p

theorem readToken_suffix {cs rest : List Char} {t : Token}
    (h : readToken (c :: cs) = (.ok t, rest)) :
    rest <:+ cs := by
  simp only [readToken] at h
  split at h
  · rw [← (Prod.mk.inj h).2]
    exact readQuoted_suffix c cs
  · split at h
    · rename_i hc
      rw [← (Prod.mk.inj h).2]
      exact dropWhile_cons_suffix (by rw [isNumberChar, hc, Bool.true_or]) cs
    · split at h
      · rename_i hc
        rw [← (Prod.mk.inj h).2]
        exact dropWhile_cons_suffix (by simp [isWordChar, Char.isAlphanum, hc]) cs
      · split at h
        · split at h
          · rw [← (Prod.mk.inj h).2]
            exact readPath_suffix cs
          · exact absurd (Prod.mk.inj h).1 (by simp)
        · split at h
          · rw [← (Prod.mk.inj h).2]
            exact List.drop_suffix 1 cs
          · split at h
            · exact (Prod.mk.inj h).2 ▸ List.suffix_refl cs
            · exact absurd (Prod.mk.inj h).1 (by simp)

theorem wordToken_ne_eof (word : List Char) : wordToken word ≠ .eof := by
  unfold wordToken
  split
  · simp
  · split
    · simp
    · split
      · simp
      · split <;> simp

/-- The end of the text is read at the end of the text only. -/
theorem readToken_cons_ne_eof {cs rest : List Char} {t : Token}
    (h : readToken (c :: cs) = (.ok t, rest)) :
    t ≠ .eof := by
  rcases readToken_cons_cases h with
    ⟨s, rfl⟩ | ⟨d, ds, hd, hnumber⟩ | ⟨word, -, rfl⟩ | ⟨path, -, rfl⟩ | ⟨m, rfl⟩
  · simp
  · rcases numberToken_cases hd hnumber with ⟨n, -, rfl⟩ | ⟨x, text, -, rfl⟩
    · simp
    · simp
  · exact wordToken_ne_eof word
  · simp
  · simp

theorem length_skipGap_le (gap : Gap) (line : Nat) (cs : List Char) :
    (skipGap gap line cs).2.rest.length ≤ cs.length := by
  fun_induction skipGap gap line cs <;> simp_all <;> omega

/-! ### Steps -/

/-- **A token takes a character, or it is the end of the text**, where the scanner then stays. -/
theorem next_progress {s s' : Scanner} {t : Token.Located} (h : s.next = (.ok t, s')) :
    (t.token = .eof ∧ s' = ⟨[], t.line⟩) ∨ (t.token ≠ .eof ∧ s'.rest.length < s.rest.length) := by
  have hgap := length_skipGap_le .blank s.line s.rest
  unfold next at h
  split at h
  · exact absurd (Prod.mk.inj h).1 (by simp)
  · rename_i rest line hskip
    rw [hskip] at hgap
    split at h
    · rename_i token left hread
      obtain ⟨htoken, rfl⟩ := Prod.mk.inj h
      obtain rfl : _ = t := Except.ok.inj htoken
      cases rest with
      | nil =>
        obtain ⟨heof, rfl⟩ := Prod.mk.inj hread
        exact .inl ⟨(Except.ok.inj heof).symm, rfl⟩
      | cons c cs =>
        refine .inr ⟨readToken_cons_ne_eof hread, ?_⟩
        exact Nat.lt_of_lt_of_le (Nat.lt_succ_of_le (readToken_suffix hread).length_le) hgap
    · exact absurd (Prod.mk.inj h).1 (by simp)

/-- The scanner after some tokens. -/
def after : Nat → Scanner → Scanner
  | 0, s => s
  | n + 1, s => after n s.next.2

end Scanner

/-! ### All tokens of a text -/

/-- The token of a number; past the end it is the last one. -/
def tokenAt (tokens : List Token.Located) (k : Nat) : Token.Located :=
  tokens.getD k (tokens.getLastD ⟨.eof, 1⟩)

theorem tokenAt_cons_succ (t : Token.Located) {tokens : List Token.Located} (hne : tokens ≠ [])
    (k : Nat) :
    tokenAt (t :: tokens) (k + 1) = tokenAt tokens k := by
  obtain ⟨u, us, rfl⟩ := List.exists_cons_of_ne_nil hne
  rfl

theorem Scanner.next_after_nil (line n : Nat) :
    (Scanner.after n ⟨[], line⟩).next.1 = .ok ⟨.eof, line⟩ := by
  induction n with
  | zero => rfl
  | succ n ih => exact ih

/-- The tokens that a scanner reads in enough steps are those that it reads one by one. -/
theorem TokenRun.next_after {fuel : Nat} {s : Scanner} (hfuel : s.rest.length < fuel) {line : Nat}
    (h : (TokenRun.ofScanner fuel s).ending = .ok line) (n : Nat) :
    (Scanner.after n s).next.1 =
      .ok (tokenAt ((TokenRun.ofScanner fuel s).tokens ++ [⟨.eof, line⟩]) n) := by
  -- induction on the fuel: a token takes a character, so there is enough left for the others
  induction fuel generalizing s n with
  | zero => exact absurd hfuel (Nat.not_lt_zero _)
  | succ fuel ih =>
    cases hnext : s.next with
    | mk result s' =>
      cases result with
      | error e => simp [TokenRun.ofScanner, hnext] at h
      | ok t =>
        rcases Scanner.next_progress hnext with ⟨heof, rfl⟩ | ⟨hne, hlength⟩
        · have hrun : TokenRun.ofScanner (fuel + 1) s = ⟨[], .ok t.line⟩ := by
            simp [TokenRun.ofScanner, hnext, heof]
          have ht : t = ⟨.eof, t.line⟩ := by rw [← heof]
          rw [hrun] at h ⊢
          obtain rfl : t.line = line := Except.ok.inj h
          cases n with
          | zero =>
            rw [Scanner.after, hnext, ht]
            rfl
          | succ n =>
            rw [Scanner.after, hnext, Scanner.next_after_nil]
            cases n <;> rfl
        · have hrun : TokenRun.ofScanner (fuel + 1) s =
              TokenRun.cons t (TokenRun.ofScanner fuel s') := by
            simp [TokenRun.ofScanner, hnext, hne]
          rw [hrun] at h ⊢
          cases n with
          | zero =>
            rw [Scanner.after, hnext]
            rfl
          | succ n =>
            rw [Scanner.after, hnext, ih (by omega) h]
            rw [TokenRun.cons, List.cons_append, tokenAt_cons_succ t (by simp)]

/-- **The scanner reads the tokens of a text one by one**, and then its end for ever. -/
theorem Scanner.next_after {source : String} {tokens : List Token.Located}
    (h : lex source = .ok tokens) (n : Nat) :
    (Scanner.after n (Scanner.start source)).next.1 = .ok (tokenAt tokens n) := by
  obtain ⟨line, hending, rfl⟩ := except_map_eq_ok.1 h
  exact TokenRun.next_after (Nat.lt_succ_self _) hending n

end BindScript
