/-
**Parsed expressions are typed.**

An expression that is read from tokens is well typed once it passes the check: this holds of all
that the grammar builds, and so of all that is parsed.  The parsers of expressions never change the
scopes, so what they give can be stated against one stack of scopes: a parser *yields* a property if
its results have it, and if it moves over plain tokens only.

Main results:

* `Expr.From.sound` — what is read from tokens is typed once it passes the check;
* `Parse.expression_yields`, `Parse.call_yields`, `Parse.place_yields` — expressions, calls and
  places;
* `parseExpression_reads`, `parseExpression_typed` — texts that are one expression.
-/

import BindScript.Proofs.Parser.Grammar

namespace BindScript

theorem Token.isLiteral_of_value? {t : Token} {v : Value} (ht : t.WellNamed)
    (h : t.value? = some v) :
    v.isLiteral = true := by
  cases t with
  | float x =>
    obtain rfl : Value.float x = v := Option.some.inj h
    rw [Value.isLiteral, show x.isNaN = false from ht]
    rfl
  | int | string | bool | null =>
    cases h
    rfl
  | _ => cases h

variable {e : Expr} {source : String}

/-- **What is read from tokens is typed once it passes the check.** -/
theorem Expr.From.sound {Γ : Scopes} {ts : List Token.Located} (h : e.From Γ ts)
    (hts : ∀ t ∈ ts, t.token.WellNamed) : e.Sound Γ := by
  induction h with
  | literal hvalue => exact .literal (Token.isLiteral_of_value? (hts _ List.mem_cons_self) hvalue)
  | host _ => exact fun _ => .host
  | load htoken _ htyped =>
    have hname := hts _ List.mem_cons_self
    rw [htoken] at hname
    exact fun _ => .load (htyped hname)
  | parens _ ih => exact ih fun t ht => hts t (List.mem_cons_of_mem _ (List.mem_append_left _ ht))
  | negate _ ih => exact (ih fun t ht => hts t (List.mem_cons_of_mem _ ht)).negate
  | binary _ _ ihl ihr =>
    obtain ⟨hls, hrs⟩ := List.forall_mem_append.1 hts
    exact (ihl hls).mkBinary (ihr (List.forall_mem_cons.1 hrs).2)
  | select _ _ _ ihc ihy ihn =>
    obtain ⟨hcs, hrest⟩ := List.forall_mem_append.1 hts
    obtain ⟨hys, hrest⟩ := List.forall_mem_append.1 (List.forall_mem_cons.1 hrest).2
    exact (ihc hcs).mkSelect (ihy hys) (ihn (List.forall_mem_cons.1 hrest).2)
  | call _ _ hcall ih =>
    refine .mkCall hcall fun arg harg => ?_
    obtain ⟨a, ha, rfl⟩ := List.mem_map.1 harg
    refine ih a ha fun t ht => hts t ?_
    exact List.mem_cons_of_mem
      _ (List.mem_cons_of_mem _ (List.mem_append_left _ (Argument.mem_tokensOf ha ht)))

namespace Parse

/-! ### Parsers that keep the scopes -/

/-- From states with these scopes and with well-named tokens, the results of the parser have the
property, and plain tokens are passed. -/
def Yields {α : Type} (Γ : Scopes) (p : Parse α) (Q : α → Prop) : Prop :=
  ∀ ⦃s a s'⦄, s.scopes = Γ → s.WellNamed → p s = .ok (a, s') → Q a ∧ s.Passes s'

variable {α β : Type} {Γ : Scopes} {P : α → Prop} {Q : β → Prop}

namespace Yields

theorem bind {p : Parse α} {f : α → Parse β} (hp : Yields Γ p P)
    (hf : ∀ a, P a → Yields Γ (f a) Q) :
    Yields Γ (p >>= f) Q := by
  intro s b s' hΓ hs h
  obtain ⟨a, s₁, hpa, hfa⟩ := bind_eq_ok.1 h
  obtain ⟨ha, hpass⟩ := hp hΓ hs hpa
  obtain ⟨hb, hpass'⟩ := hf a ha (hpass.1.trans hΓ) (hpass.wellNamed hs) hfa
  exact ⟨hb, hpass.trans hpass'⟩

theorem pure {a : α} (ha : P a) : Yields Γ (Pure.pure a) P := by
  intro s b s' _ _ h
  obtain ⟨rfl, rfl⟩ := pure_eq_ok.1 h
  exact ⟨ha, .refl s⟩

theorem throw {e : CompileError} : Yields Γ (throw e) P :=
  fun _ _ _ _ _ h => absurd h throw_ne_ok

theorem fail {cause : CompileError.Cause} {line : Nat} : Yields Γ (fail cause line) P := throw

theorem exhausted : Yields Γ exhausted P := fun _ _ _ _ _ h => absurd h exhausted_ne_ok

end Yields

theorem peek_yields : Yields Γ peek fun _ => True := by
  intro s t s' _ _ h
  obtain ⟨rfl, -⟩ := peek_eq_ok h
  exact ⟨trivial, .refl _⟩

theorem expect_yields {wanted : Token} (hne : wanted ≠ .eof) (hplain : wanted.isPlain = true) :
    Yields Γ (expect wanted) fun _ => True := by
  intro s t s' _ _ h
  obtain ⟨rfl, rest, htokens, rfl⟩ := expect_eq_ok h hne
  exact ⟨trivial, .take htokens hplain⟩

theorem optionalMatch_yields {wanted : Token} (hne : wanted ≠ .eof)
    (hplain : wanted.isPlain = true) :
    Yields Γ (optionalMatch wanted) fun _ => True := by
  intro s b s' _ _ h
  rcases optionalMatch_eq_ok h hne with ⟨-, t, rest, rfl, htokens, rfl⟩ | ⟨-, rfl⟩
  · exact ⟨trivial, .take htokens hplain⟩
  · exact ⟨trivial, .refl _⟩

theorem expectIdent_yields : Yields Γ expectIdent fun r => IsName r.1 := by
  intro s r s' _ hs h
  obtain ⟨t, rest, htoken, htokens, rfl⟩ := expectIdent_eq_ok h
  have hnamed : t.token.WellNamed := hs t (by simp [htokens])
  rw [htoken] at hnamed
  exact ⟨hnamed, .take htokens (by rw [htoken]; rfl)⟩

/-- Expressions are typed once they pass the check. -/
theorem expression_yields : Yields Γ expression (Expr.Sound Γ) := by
  rintro s e s' rfl hs h
  obtain ⟨ts, hts, he⟩ := expression_reads h
  exact ⟨he.sound fun t ht => hs t (hts.subset ht), hts.passes⟩

theorem call_yields (name : String) (line : Nat) :
    Yields Γ (call expression name line) fun e => e.Sound Γ ∧
    ∃ l f ty args, e = .call l f ty args := by
  rintro s e s' rfl hs h
  obtain ⟨_, hts, t, more, args, rfl, hargs, hcall⟩ := call_reads h
  obtain ⟨f, args', he, -⟩ := Expr.mkCall_eq_ok hcall
  refine ⟨⟨.mkCall hcall fun arg harg => ?_, _, _, _, _, he⟩, hts.passes⟩
  obtain ⟨a, ha, rfl⟩ := List.mem_map.1 harg
  refine (hargs a ha).sound fun t ht => hs t (hts.subset (List.mem_cons_of_mem _ ?_))
  exact List.mem_append_left _ (Argument.mem_tokensOf ha ht)

theorem place_yields {name : String} (hname : IsName name) (line : Nat) :
    Yields Γ (place name line) (Place.Typed Γ) := by
  rintro s p s' rfl _ h
  obtain ⟨ts, hts, hp⟩ := place_reads h
  exact ⟨hp hname, hts.passes⟩

end Parse

/-- A text that is one expression: it is read from tokens of the text, and passes the check. -/
theorem parseExpression_reads (h : parseExpression source = .ok e) :
    ∃ ts, ts ⊆ (TokenRun.ofText source).tokens ∧ e.From [Scope.empty] ts ∧ e.check = .ok () := by
  obtain ⟨e₁, htext, h⟩ := except_bind_eq_ok.1 h
  obtain ⟨u, hcheck, h⟩ := except_bind_eq_ok.1 h
  obtain rfl : e₁ = e := by simpa [pure, Except.pure] using h
  obtain ⟨s', hp⟩ := Parse.onText_eq_ok htext
  obtain ⟨e₁, s₁, hexpr, hp⟩ := Parse.bind_eq_ok.1 hp
  obtain ⟨u', s₂, -, hp⟩ := Parse.bind_eq_ok.1 hp
  obtain ⟨rfl, rfl⟩ := Parse.pure_eq_ok.1 hp
  obtain ⟨ts, hts, he⟩ := Parse.expression_reads hexpr
  exact ⟨ts, hts.subset, he, hcheck⟩

/-- A text that is one expression gives an expression that is well typed with nothing in sight. -/
theorem parseExpression_typed (h : parseExpression source = .ok e) : e.Typed [Scope.empty] := by
  obtain ⟨ts, hts, he, hcheck⟩ := parseExpression_reads h
  exact he.sound (fun t ht => ParseState.wellNamed_start source [] t (hts ht)) hcheck

end BindScript
