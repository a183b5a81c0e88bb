/-
**Looking ahead is not seen.**

A reader with lookahead keeps a buffer of tokens, and its scanner stands behind them.  Here it is
compared with a reader that only counts: it has the list of all tokens and the number of those that
have been taken.  Whatever the calls and their order, both give the same answers.  So a call that
takes no token changes no later answer.

Main results:

* `Lookahead.answers_transparent` — **the two readers agree**, and looking ahead is not seen.
-/

import BindScript.Proofs.Token.Progress
import BindScript.Token.Lookahead

namespace BindScript

variable {tokens : List Token.Located}

namespace Lookahead

/-! ### Calls and answers -/

/-- What a reader can be asked. -/
inductive Call where
  /-- The token some places ahead of the next one, which itself is no place ahead. -/
  | ahead (places : Nat)
  /-- The line of the next token. -/
  | line
  /-- Takes the next token. -/
  | advance
  /-- Takes the next token, which has to be the one that is wanted. -/
  | expect (wanted : Token)
  /-- Takes the next token if it is the one that is wanted. -/
  | optionalMatch (wanted : Token)

/-- What a reader answers. -/
inductive Answer where
  | token (result : Except CompileError Token.Located)
  | line (line : Nat)
  | matched (result : Except CompileError Bool)

namespace Call

/-- The answer of a reader with lookahead, and the reader after it. -/
def run : Call → Lookahead → Answer × Lookahead
  | .ahead places, r => Prod.map .token id (r.nth places)
  | .line, r => Prod.map .line id r.line
  | .advance, r => Prod.map .token id r.advance
  | .expect wanted, r => Prod.map .token id (r.expect wanted)
  | .optionalMatch wanted, r => Prod.map .matched id (r.optionalMatch wanted)

/-- The answer when the next token and those after it are given. -/
def answerAt (token : Nat → Token.Located) : Call → Answer
  | .ahead places => .token (.ok (token places))
  | .line => .line (token 0).line
  | .advance => .token (.ok (token 0))
  | .expect wanted =>
    .token (if (token 0).token = wanted then .ok (token 0)
      else .error ⟨.expected wanted (token 0).token, (token 0).line⟩)
  | .optionalMatch wanted => .matched (.ok (decide ((token 0).token = wanted)))

/-- How many tokens a call has taken when it is answered. -/
def takes : Call → Answer → Nat
  | .ahead _, _ => 0
  | .line, _ => 0
  | .advance, _ => 1
  | .expect _, _ => 1
  | .optionalMatch _, .matched (.ok true) => 1
  | .optionalMatch _, _ => 0

/-- Whether a call only looks. -/
def looks : Call → Bool
  | .ahead _ => true
  | .line => true
  | _ => false

end Call

def answers : List Call → Lookahead → List Answer
  | [], _ => []
  | c :: calls, r => (c.run r).1 :: answers calls (c.run r).2

/-- The answers of a reader that has all tokens and counts those that have been taken. -/
def answersAt (tokens : List Token.Located) : Nat → List Call → List Answer
  | _, [] => []
  | k, c :: calls =>
    let answer := c.answerAt fun i => tokenAt tokens (k + i)
    answer :: answersAt tokens (k + c.takes answer) calls

/-! ### The buffer and the scanner -/

/-- The reader gives these tokens one after the other: the first ones stand in the buffer, and the
scanner will read the others. -/
structure Stands (token : Nat → Token.Located) (r : Lookahead) : Prop where
  buffer : ∀ i < r.buffer.length, r.buffer[i]? = some (token i)
  scanner : ∀ n, (r.scanner.after n).next.1 = .ok (token (r.buffer.length + n))

namespace Stands

variable {token : Nat → Token.Located} {r : Lookahead}

theorem next (h : Stands token r) :
    r.scanner.next = (.ok (token r.buffer.length), r.scanner.next.2) :=
  Prod.ext (h.scanner 0) rfl

theorem push (h : Stands token r) :
    Stands token ⟨r.buffer ++ [token r.buffer.length], r.scanner.next.2⟩ := by
  constructor
  · intro i hi
    rcases Nat.lt_or_ge i r.buffer.length with hlt | hge
    · rw [List.getElem?_append_left hlt]
      exact h.buffer i hlt
    · obtain rfl : i = r.buffer.length := by
        rw [List.length_append, List.length_singleton] at hi
        omega
      exact List.getElem?_concat_length
  · intro n
    have hnext := h.scanner (n + 1)
    rw [List.length_append, List.length_singleton, Nat.add_assoc, Nat.add_comm 1]
    exact hnext

theorem fill (h : Stands token r) (count : Nat) :
    ∃ r', Lookahead.fill count r = (.ok (), r') ∧ Stands token r' ∧
      r'.buffer.length = r.buffer.length + count := by
  induction count generalizing r with
  | zero => exact ⟨r, rfl, h, rfl⟩
  | succ count ih =>
    obtain ⟨r', hfill, hr', hlength⟩ := ih h.push
    refine ⟨r', ?_, hr', ?_⟩
    · rw [Lookahead.fill, h.next]
      exact hfill
    · rw [hlength, List.length_append, List.length_singleton]
      omega

/-- Looking ahead gives the token at the place, and the tokens to come stay the same. -/
theorem nth (h : Stands token r) (n : Nat) :
    ∃ r', Lookahead.nth n r = (.ok (token n), r') ∧ Stands token r' := by
  obtain ⟨r', hfill, hr', hlength⟩ := h.fill (n + 1 - r.buffer.length)
  refine ⟨r', ?_, hr'⟩
  rw [Lookahead.nth, hfill]
  simp only [hr'.buffer n (by omega)]

theorem line (h : Stands token r) :
    ∃ r', Lookahead.line r = ((token 0).line, r') ∧ Stands token r' := by
  obtain ⟨r', hpeek, hr'⟩ := h.nth 0
  refine ⟨r', ?_, hr'⟩
  rw [Lookahead.line, Lookahead.peek, hpeek]

/-- Taking a token gives the next one, from the buffer or from the scanner. -/
theorem advance (h : Stands token r) :
    ∃ r', Lookahead.advance r = (.ok (token 0), r') ∧ Stands (fun i => token (1 + i)) r' := by
  obtain ⟨buffer, scanner⟩ := r
  cases buffer with
  | nil =>
    -- nothing has been read ahead, so the scanner is asked
    refine ⟨⟨[], scanner.next.2⟩, ?_, fun i hi => absurd hi (Nat.not_lt_zero i), ?_⟩
    · have hnext := h.next
      simp only [Lookahead.advance]
      rw [hnext]
      rfl
    · intro n
      have hnext := h.scanner (n + 1)
      rw [List.length_nil, Nat.zero_add] at hnext ⊢
      rw [Nat.add_comm 1]
      exact hnext
  | cons t buffer =>
    have hfirst : t = token 0 := Option.some.inj (h.buffer 0 (Nat.succ_pos _))
    refine ⟨⟨buffer, scanner⟩, by rw [Lookahead.advance, hfirst], ?_, ?_⟩
    · intro i hi
      rw [Nat.add_comm 1]
      exact h.buffer (i + 1) (Nat.succ_lt_succ hi)
    · intro n
      have hscanner := h.scanner n
      rw [List.length_cons, Nat.add_comm buffer.length, Nat.add_assoc] at hscanner
      exact hscanner

theorem expect (h : Stands token r) (wanted : Token) :
    ∃ r', Lookahead.expect wanted r = (if (token 0).token = wanted then .ok (token 0)
        else .error ⟨.expected wanted (token 0).token, (token 0).line⟩, r') ∧
      Stands (fun i => token (1 + i)) r' := by
  obtain ⟨r', hadvance, hr'⟩ := h.advance
  refine ⟨r', ?_, hr'⟩
  rw [Lookahead.expect, hadvance]
  by_cases hwanted : (token 0).token = wanted
  · simp only [if_pos hwanted]
  · simp only [if_neg hwanted]

theorem optionalMatch (h : Stands token r) (wanted : Token) :
    ∃ r', Lookahead.optionalMatch wanted r = (.ok (decide ((token 0).token = wanted)), r') ∧
      Stands (fun i => token ((if (token 0).token = wanted then 1 else 0) + i)) r' := by
  obtain ⟨r₁, hpeek, hr₁⟩ := h.nth 0
  obtain ⟨r₂, hadvance, hr₂⟩ := hr₁.advance
  by_cases hwanted : (token 0).token = wanted
  · refine ⟨r₂, ?_, by simpa only [if_pos hwanted] using hr₂⟩
    rw [Lookahead.optionalMatch, Lookahead.peek, hpeek]
    simp only [if_pos hwanted, hadvance, decide_eq_true hwanted]
  · refine ⟨r₁, ?_, by simpa only [if_neg hwanted, Nat.zero_add] using hr₁⟩
    rw [Lookahead.optionalMatch, Lookahead.peek, hpeek]
    simp only [if_neg hwanted, decide_eq_false hwanted]

/-! ### Calls -/

/-- **One call**: it is answered from the tokens to come, and the reader goes on behind those that
it has taken. -/
theorem run (h : Stands token r) (c : Call) :
    (c.run r).1 = c.answerAt token ∧
      Stands (fun i => token (c.takes (c.answerAt token) + i)) (c.run r).2 := by
  cases c with
  | ahead places =>
    obtain ⟨r', hnth, hr'⟩ := h.nth places
    simp only [Call.run, hnth, Call.takes, Nat.zero_add]
    exact ⟨rfl, hr'⟩
  | line =>
    obtain ⟨r', hline, hr'⟩ := h.line
    simp only [Call.run, hline, Call.takes, Nat.zero_add]
    exact ⟨rfl, hr'⟩
  | advance =>
    obtain ⟨r', hadvance, hr'⟩ := h.advance
    simp only [Call.run, hadvance]
    exact ⟨rfl, hr'⟩
  | expect wanted =>
    obtain ⟨r', hexpect, hr'⟩ := h.expect wanted
    simp only [Call.run, hexpect]
    exact ⟨rfl, hr'⟩
  | optionalMatch wanted =>
    obtain ⟨r', hmatch, hr'⟩ := h.optionalMatch wanted
    have htakes : (Call.optionalMatch wanted).takes ((Call.optionalMatch wanted).answerAt token) =
        if (token 0).token = wanted then 1 else 0 := by
      by_cases hwanted : (token 0).token = wanted
      · simp [Call.takes, Call.answerAt, hwanted]
      · simp [Call.takes, Call.answerAt, hwanted]
    rw [htakes]
    simp only [Call.run, hmatch]
    exact ⟨rfl, hr'⟩

/-- **All calls**: the reader answers as the one that counts does, from the number of tokens on that
have been taken. -/
theorem answers_eq {k : Nat} {r : Lookahead} (h : Stands (fun i => tokenAt tokens (k + i)) r)
    (calls : List Call) : answers calls r = answersAt tokens k calls := by
  induction calls generalizing k r with
  | nil => rfl
  | cons c calls ih =>
    obtain ⟨hanswer, hnext⟩ := h.run c
    simp only [← Nat.add_assoc] at hnext
    rw [answers, answersAt, hanswer, ih hnext]

end Stands

theorem stands_start {source : String} (h : lex source = .ok tokens) :
    Stands (fun i => tokenAt tokens (0 + i)) (start source) := by
  constructor
  · intro i hi
    exact absurd hi (Nat.not_lt_zero i)
  · intro n
    have hnext := Scanner.next_after h n
    simp only [start, List.length_nil, Nat.zero_add]
    exact hnext

/-! ### Looking ahead -/

theorem Call.takes_of_looks {c : Call} (h : c.looks = true) (answer : Answer) :
    c.takes answer = 0 := by
  cases c with
  | ahead places => rfl
  | line => rfl
  | _ => simp [Call.looks] at h

/-- Without a call that only looks, the reader that counts gives the other answers. -/
theorem eraseIdx_answersAt {look : Call} (hlook : look.looks = true) (before after : List Call)
    (k : Nat) :
    (answersAt tokens k (before ++ look :: after)).eraseIdx before.length =
      answersAt tokens k (before ++ after) := by
  induction before generalizing k with
  | nil =>
    rw [List.nil_append, List.nil_append, answersAt, Call.takes_of_looks hlook]
    rfl
  | cons c before ih =>
    rw [List.cons_append, List.cons_append, answersAt, answersAt, List.length_cons,
      List.eraseIdx_cons_succ, ih]

theorem tokenAt_eq_eof {source : String} (h : lex source = .ok tokens) {k : Nat}
    (hk : tokens.length ≤ k + 1) :
    (tokenAt tokens k).token = .eof := by
  obtain ⟨line, -, rfl⟩ := except_map_eq_ok.1 h
  rw [List.length_append, List.length_singleton] at hk
  rw [tokenAt, List.getLastD_concat, List.getD_eq_getElem?_getD,
    List.getElem?_append_right (by omega)]
  cases k - (TokenRun.ofText source).tokens.length with
  | zero => rfl
  | succ n => rfl

/-- **Looking ahead is not seen.** On a text whose tokens can all be read, any sequence of calls is
answered from the list of its tokens and the number of those taken before; past the end of the list
there is its last token, the end of the text.  And without a call that only looks, all other answers
are the same. -/
theorem answers_transparent {source : String} {tokens : List Token.Located}
    (h : lex source = .ok tokens) :
    (∀ calls, answers calls (start source) = answersAt tokens 0 calls) ∧
      (∀ k, tokens.length ≤ k + 1 → (tokenAt tokens k).token = .eof) ∧
      ∀ before look after, look.looks = true →
        (answers (before ++ look :: after) (start source)).eraseIdx before.length =
          answers (before ++ after) (start source) := by
  have hall : ∀ calls, answers calls (start source) = answersAt tokens 0 calls :=
    (stands_start h).answers_eq
  refine ⟨hall, fun k => tokenAt_eq_eof h, ?_⟩
  intro before look after hlook
  rw [hall, hall]
  exact eraseIdx_answersAt hlook before after 0

/-- Looking past the end of the text, a token that is not the one expected and is taken all the
same, and one that is not there to be matched. -/
theorem answers_transparent_mixed :
    lex "a ;\n+" = .ok [⟨.ident "a", 1⟩, ⟨.mark .semicolon, 1⟩, ⟨.mark .plus, 2⟩, ⟨.eof, 2⟩] ∧
      answers [.ahead 2, .optionalMatch (.mark .semicolon), .expect (.mark .plus), .line,
          .optionalMatch (.mark .semicolon), .ahead 2, .advance, .line, .advance, .ahead 0]
            (start "a ;\n+") =
        [.token (.ok ⟨.mark .plus, 2⟩), .matched (.ok false),
          .token (.error ⟨.expected (.mark .plus) (.ident "a"), 1⟩), .line 1, .matched (.ok true),
          .token (.ok ⟨.eof, 2⟩), .token (.ok ⟨.mark .plus, 2⟩), .line 2, .token (.ok ⟨.eof, 2⟩),
          .token (.ok ⟨.eof, 2⟩)] ∧
      (Call.ahead 2).looks = true ∧
      (answers [.advance, .ahead 2, .advance] (start "a ;\n+")).eraseIdx 1 =
        answers [.advance, .advance] (start "a ;\n+") := by
  have hlex : lex "a ;\n+" = .ok [⟨.ident "a", 1⟩, ⟨.mark .semicolon, 1⟩, ⟨.mark .plus, 2⟩,
    ⟨.eof, 2⟩] := by
    decide +kernel
  obtain ⟨hall, -, hlook⟩ := answers_transparent hlex
  exact ⟨hlex, hall _, rfl, hlook [.advance] (.ahead 2) [.advance] rfl⟩

end Lookahead

end BindScript
