/-
**What expressions are read from.**

A grammar of expressions that leaves the order of operators open: it says which tokens an expression
can be read from, and in which scopes its variables are found, but not how the tokens are grouped.
The rules for expressions obey it, since whatever they give was built from the tokens that they have
taken.  They take plain tokens only, and change nothing else.  So what holds of all that can be
built holds of all that is parsed, and the proof need not look at the parser.

The errors of the rules stand at lines of the text, if the lines that are given to them do.

Main results:

* `Parse.reading_kept` — **the rules for expressions read them from the tokens taken**.
-/

import BindScript.Proofs.Parser.Contract

namespace BindScript

/-! ### The grammar -/

/-- The value of a literal. -/
def Token.value? : Token → Option Value
  | .int n => some (.int n)
  | .float x => some (.float x)
  | .string s => some (.string s)
  | .bool b => some (.bool b)
  | .null => some .null
  | _ => none

/-- An argument of a call: its tokens, the mark behind it, and what is read from the tokens. -/
structure Argument where
  tokens : List Token.Located
  mark : Token.Located
  expr : Expr

/-- The tokens of arguments, with the marks behind them. -/
def Argument.tokensOf (args : List Argument) : List Token.Located :=
  args.flatMap fun a => a.tokens ++ [a.mark]

theorem Argument.mem_tokensOf {args : List Argument} {a : Argument} (ha : a ∈ args)
    {t : Token.Located} (ht : t ∈ a.tokens) : t ∈ tokensOf args :=
  List.mem_flatMap.2 ⟨a, ha, List.mem_append_left _ ht⟩

/-- Tokens from which an expression can be read, whatever the order of operators. -/
inductive Expr.From (Γ : Scopes) : List Token.Located → Expr → Prop
  | literal {t v} : t.token.value? = some v → Expr.From Γ [t] (.literal t.line v)
  | host {t name} : t.token = .hostName name → Expr.From Γ [t] (.host t.line name)
  | load {t ts place} : t.token = .ident place.name → t.line = place.line →
      (IsName place.name → place.Typed Γ) → Expr.From Γ (t :: ts) (.load place)
  | parens {t t' ts e} : Expr.From Γ ts e → Expr.From Γ (t :: (ts ++ [t'])) e
  | negate {t ts logical e} : Expr.From Γ ts e → Expr.From Γ (t :: ts) (.negate t.line logical e)
  | binary {t op ls rs left right} : Expr.From Γ ls left → Expr.From Γ rs right →
      Expr.From Γ (ls ++ t :: rs) (Expr.mkBinary t.line op left right)
  | select {t t' cs ys ns condition yes no} : Expr.From Γ cs condition → Expr.From Γ ys yes →
      Expr.From Γ ns no →
      Expr.From Γ (cs ++ t :: (ys ++ t' :: ns)) (Expr.mkSelect t.line condition yes no)
  | call {t t' name more e} {args : List Argument} : t.token = .ident name →
      (∀ a ∈ args, Expr.From Γ a.tokens a.expr) →
      Expr.mkCall t.line name (args.map Argument.expr) = .ok e →
      Expr.From Γ (t :: t' :: (Argument.tokensOf args ++ more)) e

theorem Expr.From.exists_line {Γ : Scopes} {ts : List Token.Located} {e : Expr} (h : e.From Γ ts) :
    ∃ t ∈ ts, t.line = e.line := by
  induction h with
  | @literal t | @host t | @negate t => exact ⟨t, List.mem_cons_self, rfl⟩
  | load _ hline => exact ⟨_, List.mem_cons_self, hline⟩
  | parens _ ih =>
    obtain ⟨t, ht, hline⟩ := ih
    exact ⟨t, List.mem_cons_of_mem _ (List.mem_append_left _ ht), hline⟩
  | @binary t op =>
    refine ⟨t, by simp, ?_⟩
    by_cases hop : op.isLogical = true
    · simp only [mkBinary, if_pos hop, line]
    · simp only [mkBinary, if_neg hop, line]
  | @select t => exact ⟨t, by simp, rfl⟩
  | @call t _ _ _ _ _ _ _ hcall =>
    obtain ⟨f, args, rfl, -⟩ := mkCall_eq_ok hcall
    exact ⟨t, List.mem_cons_self, rfl⟩

/-- The error of an argument of a wrong type is at the argument. -/
theorem Expr.line_of_checkTypes {f : Builtin} {place : Nat} {args : List Expr} {params : List Param}
    {err : CompileError} (h : checkTypes f place args params = .error err) :
    ∃ arg ∈ args, err.line = arg.line := by
  induction args generalizing place params with
  | nil => cases params <;> cases h
  | cons arg args ih =>
    cases params with
    | nil => cases h
    | cons p params =>
      rw [checkTypes] at h
      split at h
      · obtain ⟨arg', harg', hline⟩ := ih h
        exact ⟨arg', List.mem_cons_of_mem _ harg', hline⟩
      · cases h
        exact ⟨arg, List.mem_cons_self, rfl⟩

/-- The error of a call is at the call, or at one of its arguments. -/
theorem Expr.line_of_mkCall {line : Nat} {name : String} {args : List Expr} {err : CompileError}
    (h : mkCall line name args = .error err) :
    err.line = line ∨ ∃ arg ∈ args, err.line = arg.line := by
  unfold mkCall at h
  split at h
  · cases h
    exact .inl rfl
  · rename_i f _
    simp only at h
    split at h
    · cases h
      exact .inl rfl
    · rename_i hmany
      split at h
      · cases h
        exact .inl rfl
      · rename_i filled hfill
        split at h
        · cases h
          rename_i htypes
          obtain ⟨arg, harg, hline⟩ := line_of_checkTypes htypes
          have hmem := (fillDefaults_eq_some hfill (by omega) (isLiteral_default f)).2
          rcases hmem arg harg with hgiven | ⟨v, rfl, -⟩
          · exact .inr ⟨arg, hgiven, hline⟩
          · exact .inl hline
        · split at h
          · cases h
            exact .inl rfl
          · cases h

/-! ### The tokens of a text -/

/-- The tokens of a text, and which lines it has. -/
structure Origin where
  tokens : List Token.Located
  line : Nat → Prop
  lines : ∀ t ∈ tokens, line t.line

/-- Tokens as an origin, whatever their lines are. -/
def Origin.unlined (ts : List Token.Located) : Origin := ⟨ts, fun _ => True, fun _ _ => trivial⟩

variable {O : Origin}

namespace ParseState

/-- The tokens of the state are the last ones of the text, and it ends at one of its lines. -/
structure Drawn (O : Origin) (s : ParseState) : Prop where
  tokens : s.tokens <:+ O.tokens
  ending : ∀ line, s.ending = .ok line → O.line line
  failure : ∀ e, s.ending = .error e → O.line e.line

theorem drawn_unlined {s : ParseState} {ts : List Token.Located} (h : s.tokens <:+ ts) :
    s.Drawn (.unlined ts) :=
  ⟨h, fun _ _ => trivial, fun _ _ => trivial⟩

/-- These tokens are taken, which are plain, and nothing else changes. -/
structure Takes (s : ParseState) (ts : List Token.Located) (s' : ParseState) : Prop where
  tokens : s.tokens = ts ++ s'.tokens
  plain : ∀ t ∈ ts, t.token.isPlain = true
  ending : s'.ending = s.ending
  scopes : s'.scopes = s.scopes

namespace Takes

variable {s s' s'' : ParseState} {ts us : List Token.Located}

theorem refl (s : ParseState) : s.Takes [] s := ⟨rfl, by simp, rfl, rfl⟩

theorem one {t : Token.Located} {rest : List Token.Located} (htokens : s.tokens = t :: rest)
    (hplain : t.token.isPlain = true) : s.Takes [t] { s with tokens := rest } :=
  ⟨htokens, by simpa using hplain, rfl, rfl⟩

theorem trans (h : s.Takes ts s') (h' : s'.Takes us s'') : s.Takes (ts ++ us) s'' :=
  ⟨by rw [h.tokens, h'.tokens, List.append_assoc], List.forall_mem_append.2 ⟨h.plain, h'.plain⟩,
    h'.ending.trans h.ending, h'.scopes.trans h.scopes⟩

theorem drawn (h : s.Takes ts s') (hs : s.Drawn O) : s'.Drawn O :=
  ⟨(List.suffix_append ts s'.tokens).trans (h.tokens ▸ hs.tokens), h.ending ▸ hs.ending,
    h.ending ▸ hs.failure⟩

theorem subset (h : s.Takes ts s') : ts ⊆ s.tokens :=
  fun _ ht => h.tokens ▸ List.mem_append_left _ ht

theorem passes (h : s.Takes ts s') : s.Passes s' := ⟨h.scopes, ts, h.tokens, h.plain⟩

end Takes

end ParseState

namespace Parse

/-! ### Operations and the tokens of a text -/

/-- The next token, or the end of the text. -/
def Seen (O : Origin) (t : Token.Located) : Prop := (t.token ≠ .eof → t ∈ O.tokens) ∧ O.line t.line

/-- There is a name at a line. -/
def Named (O : Origin) (name : String) (line : Nat) : Prop :=
  ∃ t ∈ O.tokens, t.token = .ident name ∧ t.line = line

theorem Named.line {name : String} {line : Nat} (h : Named O name line) : O.line line := by
  obtain ⟨t, ht, -, rfl⟩ := h
  exact O.lines t ht

def Op.Asks (O : Origin) : {β : Type} → Op β → Prop
  | _, .updateScopes f => ∀ Γ e, (f Γ).1 = .error e → O.line e.line
  | _, .fieldLeaves _ _ line => O.line line
  | _, _ => True

def Op.Gives (O : Origin) : {β : Type} → Op β → β → Prop
  | _, .lookahead _, t | _, .advance, t => Seen O t
  | _, .expect _, t => t ∈ O.tokens
  | _, .expectIdent, (name, line) => Named O name line
  | _, .closeBlock statements, b => b.statements = statements
  | _, _, _ => True

/-- What a rule for expressions is given. -/
def Rule.Given (O : Origin) : {α : Type} → Rule α → Prop
  | _, .call name line => Named O name line
  | _, .place _ line => O.line line
  | _, _ => True

/-- What a rule for expressions reads from the tokens that it takes. -/
def Rule.Reads (Γ : Scopes) : {α : Type} → Rule α → List Token.Located → α → Prop
  | _, .expression, ts, e | _, .chain _, ts, e | _, .relational, ts, e | _, .comparison, ts, e
  | _, .unary, ts, e | _, .primary, ts, e => e.From Γ ts
  | _, .chainRest _ left, ts, e => ∀ ls, left.From Γ ls → e.From Γ (ls ++ ts)
  | _, .call name line, ts, e =>
    ∃ t more, ∃ args : List Argument, ts = t :: (Argument.tokensOf args ++ more) ∧
      (∀ a ∈ args, a.expr.From Γ a.tokens) ∧ Expr.mkCall line name (args.map Argument.expr) = .ok e
  | _, .arguments, ts, es => ∃ args : List Argument,
      ts = Argument.tokensOf args ∧ es = args.map Argument.expr ∧ ∀ a ∈ args, a.expr.From Γ a.tokens
  | _, .place name line, _, p => p.name = name ∧ p.line = line ∧ (IsName name → p.Typed Γ)
  | _, _, _, _ => True

/-- The rules for expressions read them from tokens, and their errors are at lines of the text. -/
def reading (O : Origin) : Contract where
  pre r s := s.Drawn O ∧ r.Given O
  post r s a s' := ∃ ts, s.Takes ts s' ∧ r.Reads s.scopes ts a
  error e := O.line e.line

variable {α β : Type} {Γ : Scopes} {P : List Token.Located → α → Prop} {s s' : ParseState}

theorem lookahead_drawn (hs : s.Drawn O) (n : Nat) :
    (reading O).Meets (fun t s' => s'.Drawn O ∧ Seen O t) (lookahead n s) := by
  unfold lookahead
  split
  · rename_i t htoken
    have ht := hs.tokens.subset (List.mem_of_getElem? htoken)
    exact .result ⟨hs, fun _ => ht, O.lines t ht⟩
  · rename_i hending
    exact .result ⟨hs, fun hne => absurd rfl hne, hs.ending _ hending⟩
  · rename_i hending
    exact .failure (hs.failure _ hending)

theorem advance_drawn (hs : s.Drawn O) :
    (reading O).Meets (fun t s' => s'.Drawn O ∧ Seen O t) (advance s) := by
  refine (lookahead_drawn hs 0).bind fun t s' _ ⟨hs', ht⟩ => ?_
  exact .result ⟨⟨(List.drop_suffix 1 s'.tokens).trans hs'.tokens, hs'.ending, hs'.failure⟩, ht⟩

theorem Op.run_drawn {o : Op β} (ho : o.Asks O) (hs : s.Drawn O) :
    (reading O).Meets (fun b s' => s'.Drawn O ∧ o.Gives O b) (o.run s) := by
  cases o with
  | lookahead n => exact lookahead_drawn hs n
  | advance => exact advance_drawn hs
  | expect wanted =>
    refine (advance_drawn hs).bind fun t s' _ ⟨hs', ht⟩ => ?_
    split
    · rename_i htoken
      exact .result ⟨hs', ht.1 (htoken ▸ wanted.token_ne_eof)⟩
    · exact .failure ht.2
  | optionalMatch wanted =>
    refine (lookahead_drawn hs 0).bind fun t s' _ ⟨hs', _⟩ => ?_
    split
    · exact (advance_drawn hs').bind fun _ s'' _ ⟨hs'', _⟩ => .result ⟨hs'', trivial⟩
    · exact .result ⟨hs', trivial⟩
  | expectIdent =>
    refine (advance_drawn hs).bind fun t s' _ ⟨hs', ht⟩ => ?_
    cases htoken : t.token with
    | ident name => exact .result ⟨hs', t, ht.1 (by simp [htoken]), htoken, rfl⟩
    | _ => exact .failure ht.2
  | expectEnd =>
    refine (lookahead_drawn hs 0).bind fun t s' _ ⟨hs', ht⟩ => ?_
    split
    · exact .result ⟨hs', trivial⟩
    · exact .failure ht.2
  | scopes => exact .result ⟨hs, trivial⟩
  | updateScopes f =>
    change (reading O).Meets _ (Parse.updateScopes f s)
    rw [updateScopes_eq]
    cases hf : (f s.scopes).1 with
    | ok _ => exact .result ⟨⟨hs.tokens, hs.ending, hs.failure⟩, trivial⟩
    | error e => exact .failure (ho _ e hf)
  | openBlock => exact .result ⟨⟨hs.tokens, hs.ending, hs.failure⟩, trivial⟩
  | closeBlock statements => exact .result ⟨⟨hs.tokens, hs.ending, hs.failure⟩, rfl⟩
  | fieldLeaves type field line =>
    change (reading O).Meets _ (Parse.fieldLeaves type field line s)
    cases type with
    | keyword k =>
      cases k with
      | int | float | string | bool => exact .result ⟨hs, trivial⟩
      | _ => exact .failure ho
    | ident name =>
      have hscopes : Parse.scopes s = .ok (s.scopes, s) := rfl
      have hbind : Parse.fieldLeaves (.ident name) field line s = _ := bind_of_ok hscopes
      rw [hbind]
      cases s.scopes.type? name with
      | some fields => exact .result ⟨hs, trivial⟩
      | none => exact .failure ho
    | _ => exact .failure ho

/-! ### Acts and the tokens that they take -/

namespace Act

/-- The results of an act stand in a relation to the tokens that it takes. -/
def Reads (O : Origin) (Γ : Scopes) (P : List Token.Located → α → Prop) (act : Act α) : Prop :=
  ∀ s : ParseState, s.Drawn O → s.scopes = Γ →
    act.Ensures (reading O) (fun a s' => ∃ ts, s.Takes ts s' ∧ P ts a) s

/-- The same where the next token is known. -/
def ReadsNext (O : Origin) (Γ : Scopes) (t : Token.Located) (P : List Token.Located → α → Prop)
    (act : Act α) : Prop :=
  ∀ s : ParseState, s.Drawn O → s.scopes = Γ → Parse.peek s = .ok (t, s) →
    act.Ensures (reading O) (fun a s' => ∃ ts, s.Takes ts s' ∧ P ts a) s

namespace Reads

theorem after {act : Act α} {ts : List Token.Located} (hts : s.Takes ts s') (hs : s.Drawn O)
    (hΓ : s.scopes = Γ) (h : act.Reads O Γ fun us a => P (ts ++ us) a) :
    act.Ensures (reading O) (fun a s'' => ∃ us, s.Takes us s'' ∧ P us a) s' := by
  refine (h s' (hts.drawn hs) (hts.scopes.trans hΓ)).imp ?_
  rintro a s'' ⟨us, hus, ha⟩
  exact ⟨ts ++ us, hts.trans hus, ha⟩

theorem done {a : α} (h : P [] a) : (Act.done a).Reads O Γ P := fun s _ _ => ⟨[], .refl s, h⟩

theorem fail {e : CompileError} (h : O.line e.line) : (Act.fail e).Reads O Γ P := fun _ _ _ => h

theorem next {act : Act α} (h : act.Reads O Γ P) (t : Token.Located) : act.ReadsNext O Γ t P :=
  fun s hs hΓ _ => h s hs hΓ

theorem call {r : Rule β} {next : β → Act α} (hr : r.Given O)
    (h : ∀ ts b, ts ⊆ O.tokens → r.Reads Γ ts b → (next b).Reads O Γ fun us a => P (ts ++ us) a) :
    (Act.call r next).Reads O Γ P := by
  refine fun s hs hΓ => ⟨⟨hs, hr⟩, ?_⟩
  rintro b s' ⟨ts, hts, hb⟩
  exact (h ts b (fun t ht => hs.tokens.subset (hts.subset ht)) (hΓ ▸ hb)).after hts hs hΓ

theorem last {r : Rule α} (hr : r.Given O) (h : ∀ ts a, r.Reads Γ ts a → P ts a) :
    (Act.call r .done).Reads O Γ P :=
  .call hr fun ts a _ ha => .done (by simpa using h ts a ha)

theorem scopes {next : Scopes → Act α} (h : (next Γ).Reads O Γ P) :
    (Act.op .scopes next).Reads O Γ P := by
  rintro s hs rfl
  exact Contract.Meets.result (h s hs rfl)

theorem peek {next : Token.Located → Act α} (h : ∀ t, Seen O t → (next t).ReadsNext O Γ t P) :
    (Act.peek next).Reads O Γ P := by
  refine fun s hs hΓ => ⟨fun ho => ?_, (lookahead_drawn hs 0).error⟩
  obtain ⟨rfl, -⟩ := lookahead_eq_ok ho
  exact h _ ((lookahead_drawn hs 0).ok ho).2 _ hs hΓ ho

theorem expect {wanted : Fixed} {next : Token.Located → Act α}
    (hplain : wanted.token.isPlain = true) (h : ∀ t, (next t).Reads O Γ fun us a => P (t :: us) a) :
    (Act.op (.expect wanted) next).Reads O Γ P := by
  refine fun s hs hΓ => ⟨fun ho => ?_, (Op.run_drawn (o := .expect wanted) trivial hs).error⟩
  obtain ⟨htoken, rest, htokens, rfl⟩ := expect_eq_ok ho wanted.token_ne_eof
  exact (h _).after (.one htokens (htoken ▸ hplain)) hs hΓ

theorem optionalMatch {wanted : Fixed} {next : Bool → Act α} (hplain : wanted.token.isPlain = true)
    (htrue : ∀ t, (next true).Reads O Γ fun us a => P (t :: us) a)
    (hfalse : (next false).Reads O Γ P) :
    (Act.op (.optionalMatch wanted) next).Reads O Γ P := by
  refine fun s hs hΓ => ⟨fun ho => ?_, (Op.run_drawn (o := .optionalMatch wanted) trivial hs).error⟩
  rcases optionalMatch_eq_ok ho wanted.token_ne_eof with
    ⟨rfl, t, rest, htoken, htokens, rfl⟩ | ⟨rfl, rfl⟩
  · exact (htrue t).after (.one htokens (htoken ▸ hplain)) hs hΓ
  · exact hfalse _ hs hΓ

theorem expectIdent {next : String × Nat → Act α}
    (h : ∀ x t, (next x).Reads O Γ fun us a => P (t :: us) a) :
    (Act.op .expectIdent next).Reads O Γ P := by
  refine fun s hs hΓ => ⟨fun ho => ?_, (Op.run_drawn (o := .expectIdent) trivial hs).error⟩
  obtain ⟨t, rest, htoken, htokens, rfl⟩ := expectIdent_eq_ok ho
  exact (h _ t).after (.one htokens (by rw [htoken]; rfl)) hs hΓ

/-- Takes a token: a plain one that is no end of the text, or this is an error. -/
theorem advance {next : Token.Located → Act α}
    (h : ∀ t, Seen O t →
      (t.token ≠ .eof ∧ t.token.isPlain = true ∧ (next t).Reads O Γ fun us a => P (t :: us) a) ∨
      ∃ e, next t = .fail e ∧ O.line e.line) : (Act.op .advance next).Reads O Γ P := by
  refine fun s hs hΓ => ⟨fun {t _} ho => ?_, (advance_drawn hs).error⟩
  rcases h t ((advance_drawn hs).ok ho).2 with ⟨hne, hplain, h⟩ | ⟨e, he, hline⟩
  · obtain ⟨rest, htokens, rfl⟩ := advance_eq_ok_of_ne ho hne
    exact h.after (.one htokens hplain) hs hΓ
  · rw [he]
    exact hline

end Reads

/-- A token that has been looked at is the one that is taken. -/
theorem ReadsNext.advance {t : Token.Located} {next : Token.Located → Act α} (hne : t.token ≠ .eof)
    (hplain : t.token.isPlain = true) (h : (next t).Reads O Γ fun us a => P (t :: us) a) :
    (Act.op .advance next).ReadsNext O Γ t P := by
  refine fun s hs hΓ hpeek => ⟨fun {t' _} ho => ?_, (advance_drawn hs).error⟩
  obtain ⟨rest, htokens, rfl⟩ := advance_of_peek hpeek hne ho
  obtain rfl : t = t' := by simpa [htokens] using advance_eq_ok ho
  exact h.after (.one htokens hplain) hs hΓ

end Act

/-! ### The rules for expressions -/

theorem isPlain_of_op? {c : Chain} {t : Token} {op : Operator} (h : c.op? t = some op) :
    t.isPlain = true := by
  have hmark := Rule.mark_of_op? h
  simp only [List.mem_cons, Prod.mk.injEq, List.not_mem_nil, or_false] at hmark
  rcases hmark with ⟨-, rfl⟩ | ⟨-, rfl⟩ | ⟨-, rfl⟩ | ⟨-, rfl⟩ | ⟨-, rfl⟩ | ⟨-, rfl⟩ <;> rfl

theorem isPlain_of_comparisonOp? {t : Token} {op : Operator} (h : comparisonOp? t = some op) :
    t ≠ .eof ∧ t.isPlain = true := by
  unfold comparisonOp? at h
  split at h <;> simp_all [Token.isPlain]

namespace Rule

/-- The body of a rule reads what the rule does. -/
def BodyReads (O : Origin) (Γ : Scopes) (r : Rule α) : Prop :=
  r.Given O → r.body.Reads O Γ (r.Reads Γ)

theorem chain_reads (c : Chain) : BodyReads O Γ (.chain c) := by
  intro _
  have hrest : ∀ ts left, ts ⊆ O.tokens → left.From Γ ts →
      (Act.call (.chainRest c left) .done).Reads O Γ fun us e => e.From Γ (ts ++ us) :=
    fun ts left _ hleft => .last trivial fun us e he => he ts hleft
  cases c with
  | logical => exact .call trivial hrest
  | sum => exact .call trivial hrest
  | product => exact .call trivial hrest

theorem chainRest_reads (c : Chain) (left : Expr) : BodyReads O Γ (.chainRest c left) := by
  intro _
  refine .peek fun t _ => ?_
  cases hop : c.op? t.token with
  | none => exact Act.Reads.next (.done fun ls hleft => by simpa using hleft) t
  | some op =>
    refine .advance (ne_eof_of_op? hop) (isPlain_of_op? hop) ?_
    have hnext : ∀ rs right, rs ⊆ O.tokens → right.From Γ rs →
        (Act.call (.chainRest c (Expr.mkBinary t.line op left right)) .done).Reads O Γ
          fun us e => ∀ ls, left.From Γ ls → e.From Γ (ls ++ t :: (rs ++ us)) := by
      refine fun rs right _ hright => .last trivial fun us e he ls hleft => ?_
      simpa using he _ (hleft.binary hright)
    cases c with
    | logical => exact .call trivial hnext
    | sum => exact .call trivial hnext
    | product => exact .call trivial hnext

theorem relational_reads : BodyReads O Γ .relational := by
  intro _
  refine .call trivial fun cs condition _ hcondition => .peek fun t _ => ?_
  by_cases htoken : t.token = .mark .question
  · rw [if_neg (not_not.2 htoken)]
    refine .advance (by simp [htoken]) (by rw [htoken]; rfl) ?_
    refine .call trivial fun ys yes _ hyes => .expect rfl fun t' =>
      .call trivial fun ns no _ hno => .done ?_
    simpa [Reads] using hcondition.select hyes hno
  · rw [if_pos htoken]
    exact Act.Reads.next (.done (by simpa [Reads] using hcondition)) t

theorem comparison_reads : BodyReads O Γ .comparison := by
  intro _
  refine .call trivial fun ls left _ hleft => .peek fun t _ => ?_
  cases hop : comparisonOp? t.token with
  | none => exact Act.Reads.next (.done (by simpa [Reads] using hleft)) t
  | some op =>
    obtain ⟨hne, hplain⟩ := isPlain_of_comparisonOp? hop
    refine .advance hne hplain (.call trivial fun rs right _ hright => .done ?_)
    simpa [Reads] using hleft.binary hright

theorem unary_reads : BodyReads O Γ .unary := by
  intro _
  refine .peek fun t _ => ?_
  split
  · rename_i htoken
    refine .advance (by simp [htoken]) (by rw [htoken]; rfl)
      (.call trivial fun ts e _ he => .done ?_)
    simpa [Reads] using he.negate
  · rename_i htoken
    refine .advance (by simp [htoken]) (by rw [htoken]; rfl)
      (.call trivial fun ts e _ he => .done ?_)
    simpa [Reads] using he.negate
  · exact Act.Reads.next (.last (r := .primary) trivial fun _ _ he => he) t

theorem primary_reads : BodyReads O Γ .primary := by
  intro _
  refine .advance fun t ht => ?_
  cases htoken : t.token with
  | int | float | string | bool | null =>
    exact .inl ⟨by simp, rfl, .done (.literal (by rw [htoken]; rfl))⟩
  | hostName name => exact .inl ⟨by simp, rfl, .done (.host htoken)⟩
  | ident name =>
    refine .inl ⟨by simp, rfl, .peek fun t' _ => Act.Reads.next ?_ t'⟩
    split
    · refine .last ⟨t, ht.1 (by simp [htoken]), htoken, rfl⟩ ?_
      rintro _ e ⟨t', more, args, rfl, hargs, hcall⟩
      exact .call htoken hargs hcall
    · refine .call ht.2 fun ts p _ hp => .done ?_
      obtain ⟨rfl, hline, htyped⟩ := hp
      exact .load htoken hline.symm htyped
  | mark m =>
    cases m with
    | openParen =>
      refine .inl ⟨by simp, rfl, .call trivial fun ts e _ he => .expect rfl fun t' => .done ?_⟩
      simpa [Reads] using he.parens
    | _ => exact .inr ⟨_, rfl, ht.2⟩
  | _ => exact .inr ⟨_, rfl, ht.2⟩

theorem call_reads (name : String) (line : Nat) : BodyReads O Γ (.call name line) := by
  rintro ⟨t₀, ht₀, htoken₀, rfl⟩
  refine .expect rfl fun openMark => ?_
  -- with arguments or without, what comes after them is the same
  have hnext : ∀ (args : List Argument) (more : List Token.Located),
      Argument.tokensOf args ⊆ O.tokens →
      (∀ a ∈ args, a.expr.From Γ a.tokens) →
      (Act.ofExcept (Expr.mkCall t₀.line name (args.map Argument.expr))).Reads O Γ fun ts e =>
        Rule.Reads Γ (.call name t₀.line)
          (openMark :: (Argument.tokensOf args ++ (more ++ ts))) e := by
    intro args more hmem hargs
    cases hcall : Expr.mkCall t₀.line name (args.map Argument.expr) with
    | ok e => exact .done ⟨openMark, more, args, by simp, hargs, hcall⟩
    | error err =>
      refine .fail ?_
      rcases Expr.line_of_mkCall hcall with hline | ⟨arg, harg, hline⟩
      · exact hline ▸ O.lines t₀ ht₀
      · obtain ⟨a, ha, rfl⟩ := List.mem_map.1 harg
        obtain ⟨t, ht, hline'⟩ := (hargs a ha).exists_line
        rw [hline, ← hline']
        exact O.lines t (hmem (Argument.mem_tokensOf ha ht))
  refine .optionalMatch rfl (fun close => ?_) ?_
  · exact hnext [] [close] (by simp [Argument.tokensOf]) (by simp)
  · refine .call trivial fun ts es hmem hes => ?_
    obtain ⟨args, rfl, rfl, hargs⟩ := hes
    exact hnext args [] hmem hargs

theorem arguments_reads : BodyReads O Γ .arguments := by
  intro _
  refine .call trivial fun ts e _ he => .optionalMatch rfl (fun comma => ?_) ?_
  · refine .call trivial fun us es _ hes => .done ?_
    obtain ⟨args, rfl, rfl, hargs⟩ := hes
    exact ⟨⟨ts, comma, e⟩ :: args, by simp [Argument.tokensOf], rfl,
      List.forall_mem_cons.2 ⟨he, hargs⟩⟩
  · refine .expect rfl fun close => .done ?_
    exact ⟨[⟨ts, close, e⟩], by simp [Argument.tokensOf], rfl, List.forall_mem_singleton.2 he⟩

theorem place_reads (name : String) (line : Nat) : BodyReads O Γ (.place name line) := by
  intro hline
  refine .scopes ?_
  cases hslot : Γ.slot? name with
  | none => exact .fail hline
  | some slot =>
    refine .peek fun t _ => Act.Reads.next ?_ t
    by_cases hdot : t.token = .mark .dot
    · rw [if_neg (not_not.2 hdot)]
      cases hty : slot.ty with
      | record record =>
        refine .call trivial fun _ path _ _ => .scopes ?_
        cases hfield : (Γ.type? record).bind (List.lookup (".".intercalate path)) with
        | none => exact .fail hline
        | some ty =>
          obtain ⟨fields, hfields, hlookup⟩ := Option.bind_eq_some_iff.1 hfield
          exact .done ⟨rfl, rfl,
            fun hname => ⟨hname, slot, hslot, record, fields, hty, hfields, hlookup⟩⟩
      | _ => exact .fail hline
    · rw [if_pos hdot]
      exact .done ⟨rfl, rfl, fun hname => ⟨hname, slot, hslot, rfl⟩⟩

theorem segments_reads : BodyReads O Γ .segments := by
  intro _
  refine .optionalMatch rfl (fun _ => ?_) (.done trivial)
  exact .expectIdent fun _ _ => .call trivial fun _ _ _ _ => .done trivial

theorem bodyReads (r : Rule α) (hr : r.layer = 0) : r.BodyReads O Γ := by
  cases r with
  | expression => exact fun _ => .last trivial fun _ _ he => he
  | chain c => exact chain_reads c
  | chainRest c left => exact chainRest_reads c left
  | relational => exact relational_reads
  | comparison => exact comparison_reads
  | unary => exact unary_reads
  | primary => exact primary_reads
  | call name line => exact call_reads name line
  | arguments => exact arguments_reads
  | place name line => exact place_reads name line
  | segments => exact segments_reads
  | _ => simp [layer] at hr

end Rule

/-- **The rules for expressions read them from the tokens that they take.** -/
theorem reading_kept (O : Origin) (c : Activation) (hc : c.rule.layer = 0) :
    (reading O).Kept c := by
  have hholds : (reading O).Holds fun c => c.rule.layer = 0 :=
    fun c hc hpre => (c.rule.bodyReads hc hpre.2 c.state hpre.1 rfl).imp fun _ _ h _ => h
  exact hholds.outcome (fun _ _ hc hcalls => .inl (Nat.le_zero.1 (hc ▸ hcalls.layer_le))) c hc

/-! ### Parsers -/

theorem Rule.reads_of_outcome {r : Rule α} (hr : r.layer = 0) (t : Token.Located)
    (hgiven : r.Given (.unlined (t :: s.tokens))) {a : α} (h : r.outcome s = .ok (a, s')) :
    ∃ ts, s.Takes ts s' ∧ r.Reads s.scopes ts a :=
  (reading_kept _ ⟨r, s⟩ hr ⟨ParseState.drawn_unlined (List.suffix_cons t s.tokens), hgiven⟩).ok h

/-- **A parsed expression is read from the tokens that the parser has passed.** -/
theorem expression_reads {e : Expr} (h : expression s = .ok (e, s')) :
    ∃ ts, s.Takes ts s' ∧ e.From s.scopes ts := by
  rw [Rule.expression_eq] at h
  exact Rule.reads_of_outcome (r := .expression) rfl ⟨.eof, 0⟩ trivial h

theorem call_reads {name : String} {line : Nat} {e : Expr}
    (h : call expression name line s = .ok (e, s')) :
    ∃ ts, s.Takes ts s' ∧ (Rule.call name line).Reads s.scopes ts e := by
  rw [show call expression name line = _ from (Rule.call name line).parse_eq] at h
  exact Rule.reads_of_outcome (r := .call name line) rfl ⟨.ident name, line⟩ ⟨_, List.mem_cons_self,
    rfl, rfl⟩ h

theorem place_reads {name : String} {line : Nat} {p : Place} (h : place name line s = .ok (p, s')) :
    ∃ ts, s.Takes ts s' ∧ (IsName name → p.Typed s.scopes) := by
  rw [show place name line = _ from (Rule.place name line).parse_eq] at h
  obtain ⟨ts, hts, -, -, htyped⟩ :=
    Rule.reads_of_outcome (r := .place name line) rfl ⟨.eof, 0⟩ trivial h
  exact ⟨ts, hts, htyped⟩

end Parse

end BindScript
