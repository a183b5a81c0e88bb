/-
**How parsers move through the tokens.**

A parser that succeeds gives a result and a state.  This module says, for each of the parsers that
look at tokens or take them, what the two are, so that longer parsers can be read backwards from
their success.

Two facts about tokens are carried along.  Identifiers have names and numbers are numbers, because
the scanner reads them so.  And a parser of expressions passes plain tokens only: no braces, and no
start of a record declaration.

Main results:

* `Parse.bind_eq_ok` — the success of one parser after another;
* `Parse.advance_eq_ok`, `Parse.expect_eq_ok`,
  `Parse.optionalMatch_eq_ok`, `Parse.expectIdent_eq_ok` — taking tokens;
* `ParseState.wellNamed_start` — the tokens of a text are well named.
-/

import BindScript.Proofs.Elaboration
import BindScript.Proofs.Token.Reading
import BindScript.Tree.Parser.Basic

namespace BindScript

/-! ### Tokens -/

/-- Whether a token neither opens nor closes a block and begins no record declaration. -/
def Token.isPlain : Token → Bool
  | .keyword .record | .mark .openBrace | .mark .closeBrace => false
  | _ => true

/-- An identifier has a name, and a floating-point number is a number. -/
def Token.WellNamed : Token → Prop
  | .ident name => IsName name
  | .float x => x.isNaN = false
  | _ => True

variable {t : Token.Located}

namespace ParseState

/-- The tokens that are left are well named. -/
def WellNamed (s : ParseState) : Prop := ∀ t ∈ s.tokens, t.token.WellNamed

/-- The second state is reached from the first one by passing plain tokens; the scopes stay. -/
def Passes (s s' : ParseState) : Prop :=
  s'.scopes = s.scopes ∧
    ∃ passed, s.tokens = passed ++ s'.tokens ∧ ∀ t ∈ passed, t.token.isPlain = true

namespace Passes

variable {s s' s'' : ParseState}

theorem refl (s : ParseState) : s.Passes s := ⟨rfl, [], rfl, by simp⟩

theorem trans (h : s.Passes s') (h' : s'.Passes s'') : s.Passes s'' := by
  obtain ⟨hscopes, passed, htokens, hplain⟩ := h
  obtain ⟨hscopes', passed', htokens', hplain'⟩ := h'
  refine ⟨hscopes'.trans hscopes, passed ++ passed',
    by rw [htokens, htokens', List.append_assoc], ?_⟩
  intro t ht
  rcases List.mem_append.1 ht with ht | ht
  · exact hplain t ht
  · exact hplain' t ht

theorem take {rest : List Token.Located} (htokens : s.tokens = t :: rest)
    (hplain : t.token.isPlain = true) :
    s.Passes { s with tokens := rest } :=
  ⟨rfl, [t], htokens, by simpa using hplain⟩

theorem wellNamed (h : s.Passes s') (hs : s.WellNamed) : s'.WellNamed := by
  obtain ⟨_, passed, htokens, _⟩ := h
  intro t ht
  exact hs t (by rw [htokens]; exact List.mem_append_right _ ht)

end Passes

end ParseState

/-! ### Success of parsers -/

theorem isSome_lookup {α β : Type} [BEq α] [LawfulBEq α] {l : List (α × β)} {a : α} :
    (l.lookup a).isSome = true ↔ a ∈ l.map Prod.fst := by
  simp [List.lookup_isSome_iff]

namespace Parse

variable {α β : Type} {s s' : ParseState}

theorem bind_eq_ok {p : Parse α} {f : α → Parse β} {b : β} :
    (p >>= f) s = .ok (b, s') ↔ ∃ a s₁, p s = .ok (a, s₁) ∧ f a s₁ = .ok (b, s') := by
  change Except.bind (p s) (fun r => f r.1 r.2) = _ ↔ _
  cases p s with
  | error e => simp [Except.bind]
  | ok r =>
    obtain ⟨a, s₁⟩ := r
    constructor
    · intro h
      exact ⟨a, s₁, rfl, h⟩
    · rintro ⟨a', s₁', heq, h⟩
      obtain ⟨rfl, rfl⟩ : a = a' ∧ s₁ = s₁' := by simpa using heq
      exact h

theorem pure_eq_ok {a b : α} : (pure a : Parse α) s = .ok (b, s') ↔ a = b ∧ s = s' := by
  change Except.ok (a, s) = _ ↔ _
  simp

theorem throw_ne_ok {e : CompileError} {b : α} : ¬(throw e : Parse α) s = .ok (b, s') := by
  change ¬Except.error e = _
  simp

theorem fail_ne_ok {cause : CompileError.Cause} {line : Nat} {b : α} :
    ¬(fail cause line : Parse α) s = .ok (b, s') := throw_ne_ok

theorem modify_eq_ok {f : ParseState → ParseState} {u : Unit}
    (h : (modify f : Parse Unit) s = .ok (u, s')) :
    s' = f s := by
  have h : Except.ok ((), f s) = Except.ok (u, s') := h
  simpa using h.symm

/-- Looking ahead changes nothing; past the last token there is the end of the text. -/
theorem lookahead_eq_ok {n : Nat} (h : lookahead n s = .ok (t, s')) :
    s' = s ∧ (s.tokens[n]? = some t ∨ s.tokens[n]? = none ∧ t.token = .eof) := by
  unfold lookahead at h
  split at h
  · rename_i t' htoken
    obtain ⟨rfl, rfl⟩ : t' = t ∧ s = s' := by simpa using h
    exact ⟨rfl, .inl htoken⟩
  · rename_i line htoken _
    obtain ⟨rfl, rfl⟩ : _ = t ∧ s = s' := by simpa using h
    exact ⟨rfl, .inr ⟨htoken, rfl⟩⟩
  · cases h

theorem peek_eq_ok (h : peek s = .ok (t, s')) :
    s' = s ∧ (s.tokens.head? = some t ∨ s.tokens = [] ∧ t.token = .eof) := by
  obtain ⟨rfl, htoken⟩ := lookahead_eq_ok h
  refine ⟨rfl, ?_⟩
  cases hs : s'.tokens with
  | nil => exact .inr ⟨rfl, by simpa [hs] using htoken⟩
  | cons t' rest => exact .inl (by simpa [hs] using htoken)

theorem exhausted_ne_ok {b : α} : ¬(exhausted : Parse α) s = .ok (b, s') := by
  intro h
  obtain ⟨t, s₁, -, hfail⟩ := bind_eq_ok.1 h
  exact fail_ne_ok hfail

/-- Taking a token: the first one that is left, or the end of the text. -/
theorem advance_eq_ok (h : advance s = .ok (t, s')) :
    (∃ rest, s.tokens = t :: rest ∧ s' = { s with tokens := rest }) ∨
      (s.tokens = [] ∧ t.token = .eof ∧ s' = s) := by
  simp only [advance, bind_eq_ok, pure_eq_ok] at h
  obtain ⟨t', s₁, hpeek, u, s₂, hmodify, rfl, rfl⟩ := h
  obtain ⟨rfl, htoken⟩ := peek_eq_ok hpeek
  obtain rfl := modify_eq_ok hmodify
  cases hs : s₁.tokens with
  | nil =>
    refine .inr ⟨rfl, by simpa [hs] using htoken, ?_⟩
    rw [List.drop_nil, ← hs]
  | cons t₁ rest =>
    obtain rfl : t₁ = t' := by simpa [hs] using htoken
    exact .inl ⟨rest, rfl, rfl⟩

/-- Taking a token that has been looked at and is not the end of the text. -/
theorem advance_of_peek {t' : Token.Located} (hpeek : peek s = .ok (t, s)) (hne : t.token ≠ .eof)
    (h : advance s = .ok (t', s')) :
    ∃ rest, s.tokens = t :: rest ∧ s' = { s with tokens := rest } := by
  rcases (peek_eq_ok hpeek).2 with hhead | ⟨-, heof⟩
  · rcases advance_eq_ok h with ⟨rest, htokens, rfl⟩ | ⟨hnil, -, -⟩
    · obtain rfl : t' = t := by simpa [htokens] using hhead
      exact ⟨rest, htokens, rfl⟩
    · simp [hnil] at hhead
  · exact absurd heof hne

/-- Taking a token that is known not to be the end of the text. -/
theorem advance_eq_ok_of_ne (h : advance s = .ok (t, s')) (hne : t.token ≠ .eof) :
    ∃ rest, s.tokens = t :: rest ∧ s' = { s with tokens := rest } := by
  rcases advance_eq_ok h with hrest | ⟨-, heof, -⟩
  · exact hrest
  · exact absurd heof hne

theorem expect_eq_ok {wanted : Token} (h : expect wanted s = .ok (t, s')) (hne : wanted ≠ .eof) :
    t.token = wanted ∧ ∃ rest, s.tokens = t :: rest ∧ s' = { s with tokens := rest } := by
  simp only [expect, bind_eq_ok] at h
  obtain ⟨t', s₁, hadvance, h⟩ := h
  split at h
  · rename_i htoken
    obtain ⟨rfl, rfl⟩ := pure_eq_ok.1 h
    exact ⟨htoken, advance_eq_ok_of_ne hadvance (htoken ▸ hne)⟩
  · exact absurd h fail_ne_ok

theorem optionalMatch_eq_ok {wanted : Token} {b : Bool} (h : optionalMatch wanted s = .ok (b, s'))
    (hne : wanted ≠ .eof) :
    (b = true ∧ ∃ t rest, t.token = wanted ∧ s.tokens = t :: rest ∧
      s' = { s with tokens := rest }) ∨ (b = false ∧ s' = s) := by
  simp only [optionalMatch, bind_eq_ok] at h
  obtain ⟨t, s₁, hpeek, h⟩ := h
  obtain ⟨rfl, -⟩ := peek_eq_ok hpeek
  split at h
  · rename_i hwanted
    simp only [bind_eq_ok, pure_eq_ok] at h
    obtain ⟨t', s₂, hadvance, rfl, rfl⟩ := h
    obtain ⟨rest, hrest, rfl⟩ := advance_of_peek hpeek (hwanted ▸ hne) hadvance
    exact .inl ⟨rfl, t, rest, hwanted, hrest, rfl⟩
  · obtain ⟨rfl, rfl⟩ := pure_eq_ok.1 h
    exact .inr ⟨rfl, rfl⟩

theorem expectIdent_eq_ok {name : String} {line : Nat}
    (h : expectIdent s = .ok ((name, line), s')) :
    ∃ t rest, t.token = .ident name ∧ s.tokens = t :: rest ∧ s' = { s with tokens := rest } := by
  simp only [expectIdent, bind_eq_ok] at h
  obtain ⟨t, s₁, hadvance, h⟩ := h
  cases htoken : t.token with
  | ident name' =>
    simp only [htoken, pure_eq_ok] at h
    obtain ⟨heq, rfl⟩ := h
    obtain ⟨rfl, -⟩ : name' = name ∧ t.line = line := by simpa using heq
    obtain ⟨rest, hrest, hs⟩ := advance_eq_ok_of_ne hadvance (by simp [htoken])
    exact ⟨t, rest, htoken, hrest, hs⟩
  | _ =>
    simp only [htoken] at h
    exact absurd h fail_ne_ok

theorem bounded_eq_ok {p : Nat → Parse α} {a : α} :
    bounded p s = .ok (a, s') ↔ p (s.tokens.length + 1) s = .ok (a, s') := Iff.rfl

theorem scopes_eq_ok {Γ : Scopes} (h : scopes s = .ok (Γ, s')) : Γ = s.scopes ∧ s' = s := by
  have h : Except.ok (s.scopes, s) = Except.ok (Γ, s') := h
  obtain ⟨rfl, rfl⟩ : s.scopes = Γ ∧ s = s' := by simpa using h
  exact ⟨rfl, rfl⟩

theorem bind_of_ok {p : Parse α} {f : α → Parse β} {a : α} (h : p s = .ok (a, s')) :
    (p >>= f) s = f a s' := by
  change Except.bind (p s) (fun r => f r.1 r.2) = _
  rw [h]
  rfl

theorem updateScopes_eq (f : Scopes → Except CompileError Unit × Scopes) (s : ParseState) :
    updateScopes f s = (f s.scopes).1.map fun _ => ((), { s with scopes := (f s.scopes).2 }) := by
  have hget : (get : Parse ParseState) s = .ok (s, s) := rfl
  refine (bind_of_ok hget).trans ?_
  rcases f s.scopes with ⟨_ | _, _⟩ <;> rfl

theorem updateScopes_eq_ok {f : Scopes → Except CompileError Unit × Scopes} {u : Unit}
    (h : updateScopes f s = .ok (u, s')) :
    ∃ Γ, f s.scopes = (.ok (), Γ) ∧ s' = { s with scopes := Γ } := by
  rw [updateScopes_eq] at h
  obtain ⟨_, hok, heq⟩ := except_map_eq_ok.1 h
  exact ⟨_, Prod.ext hok rfl, (Prod.mk.inj heq).2.symm⟩

end Parse

/-! ### Names -/

namespace Scanner

theorem wellNamed_wordToken {word : List Char} (hne : word ≠ [])
    (h : ∀ c ∈ word, isWordChar c = true) :
    (wordToken word).WellNamed := by
  have hname : IsName (String.ofList word) := by
    refine ⟨fun hempty => hne ?_, fun hmem => ?_, fun hmem => ?_⟩
    · simpa using congrArg String.toList hempty
    · exact absurd (h '.' (by simpa using hmem)) (by decide)
    · exact absurd (h '=' (by simpa using hmem)) (by decide)
  unfold wordToken
  split
  · exact trivial
  · split
    · exact trivial
    · split
      · exact trivial
      · split
        · exact trivial
        · exact hname

theorem wellNamed_readToken {cs rest : List Char} {t : Token} (h : readToken cs = (.ok t, rest)) :
    t.WellNamed := by
  rcases readToken_cases h with rfl | ⟨s, rfl⟩ | ⟨c, ds, hc, hnumber⟩ | ⟨word, hword, rfl⟩ |
    ⟨path, -, rfl⟩ | ⟨m, rfl⟩
  · exact trivial
  · exact trivial
  · rcases numberToken_cases hc hnumber with ⟨n, -, rfl⟩ | ⟨x, text, hread, rfl⟩
    · exact trivial
    · exact Decimal.isNaN_of_readMagnitude? hread
  · refine wellNamed_wordToken ?_ (isWordChar_of_mem hword)
    obtain ⟨c, cs, rfl, -⟩ := hword
    exact List.cons_ne_nil c cs
  · exact trivial
  · exact trivial

end Scanner

theorem ParseState.wellNamed_start (source : String) (Γ : Scopes) :
    ({ ParseState.start source with scopes := Γ } : ParseState).WellNamed := by
  intro t ht
  obtain ⟨-, cs, rest, hread⟩ := TokenRun.exists_readToken ht
  exact Scanner.wellNamed_readToken hread

end BindScript
