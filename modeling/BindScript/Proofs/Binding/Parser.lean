/-
**Parsed bindings.**

No kind is bound twice, no name is listed twice in a body, and bodies have the shape that their
kinds ask for.  The expressions of bindings are read with no variable in sight, and each is checked
as soon as it has been read.  Braces stand between them, but open no scopes; so all of them are well
typed in the same scopes.

Main results:

* `parseBindings_parsed`, `parseBindings_typed` — **parsed bindings are well formed and well
  typed**;
* `compileBindings_eq_ok` — **compiled bindings are well formed**, and their programs are those of
  expressions.
-/

import BindScript.Proofs.Parser.Nodes

namespace BindScript

variable {α β : Type}

/-- A body has the shape that its kind asks for, and no two entries of one name. -/
def Binding.Body.Suits (kind : Binding.Kind) : Binding.Body α → Prop
  | .expr _ => kind.hasEntries = false
  | .entries es => kind.hasEntries = true ∧ (es.map Prod.fst).Nodup

/-- No kind is bound twice, and bodies have the shape that their kinds ask for. -/
structure Bindings.WellFormed (bindings : Bindings α) : Prop where
  kinds : bindings.kinds.Nodup
  bodies : ∀ b ∈ bindings, b.2.Suits b.1

def Binding.Body.codes : Binding.Body α → List α
  | .expr e => [e]
  | .entries es => es.map Prod.snd

def Bindings.codes (bindings : Bindings α) : List α := bindings.flatMap fun b => b.2.codes

/-- The expression has been read from tokens of the text that stand one after the other, and passes
the check. -/
structure Expr.Parsed (O : Origin) (Γ : Scopes) (e : Expr) : Prop where
  reads : ∃ ts, ts <:+: O.tokens ∧ e.From Γ ts
  check : e.check = .ok ()

/-- The bindings are well formed, and their expressions have been parsed. -/
structure Bindings.Parsed (O : Origin) (Γ : Scopes) (bindings : Bindings Expr) : Prop where
  wellFormed : bindings.WellFormed
  codes : ∀ e ∈ bindings.codes, e.Parsed O Γ

/-- The entries have distinct names, and their expressions have been parsed. -/
structure Table.Parsed (O : Origin) (Γ : Scopes) (es : Table Expr) : Prop where
  names : (es.map Prod.fst).Nodup
  codes : ∀ entry ∈ es, entry.2.Parsed O Γ

variable {O : Origin} {Γ : Scopes}

theorem Bindings.Parsed.nil : Bindings.Parsed O Γ [] :=
  ⟨⟨List.nodup_nil, by simp⟩, by simp [Bindings.codes]⟩

theorem Table.Parsed.nil : Table.Parsed O Γ [] := ⟨List.nodup_nil, by simp⟩

theorem Bindings.Parsed.snoc {done : Bindings Expr} {kind : Binding.Kind} {body : Binding.Body Expr}
    (hdone : done.Parsed O Γ) (hnew : ¬(done.find? kind).isSome = true) (hsuits : body.Suits kind)
    (hbody : ∀ e ∈ body.codes, e.Parsed O Γ) : Bindings.Parsed O Γ (done ++ [(kind, body)]) := by
  refine ⟨⟨?_, ?_⟩, ?_⟩
  · have hkind : kind ∉ done.kinds := hnew ∘ isSome_lookup.2
    rw [kinds, List.map_append]
    exact hdone.wellFormed.kinds.append (List.nodup_singleton _) (by simpa using hkind)
  · exact List.forall_mem_append.2 ⟨hdone.wellFormed.bodies, List.forall_mem_singleton.2 hsuits⟩
  · rw [Bindings.codes, List.flatMap_append]
    exact List.forall_mem_append.2 ⟨hdone.codes, by simpa using hbody⟩

theorem Table.Parsed.snoc {done : Table Expr} {name : String} {e : Expr}
    (hdone : Table.Parsed O Γ done) (hnew : ¬(done.lookup name).isSome = true) (he : e.Parsed O Γ) :
    Table.Parsed O Γ (done ++ [(name, e)]) := by
  refine ⟨?_, List.forall_mem_append.2 ⟨hdone.codes, List.forall_mem_singleton.2 he⟩⟩
  rw [List.map_append]
  exact hdone.names.append (List.nodup_singleton _) (by simpa using hnew ∘ isSome_lookup.2)

/-! ### The rules for bindings -/

namespace Parse

/-- Operations that leave the scopes as they are. -/
def Op.quiet : {β : Type} → Op β → Prop
  | _, .updateScopes _ | _, .openBlock | _, .closeBlock _ | _, .fieldLeaves _ _ _ => False
  | _, _ => True

theorem Op.quiet.scopes_eq {β : Type} {o : Op β} (ho : o.quiet) {s s' : ParseState} {b : β}
    (h : o.run s = .ok (b, s')) : s'.scopes = s.scopes := by
  cases o with
  | lookahead n => rw [(lookahead_eq_ok h).1]
  | advance => rcases advance_eq_ok h with ⟨rest, -, rfl⟩ | ⟨-, -, rfl⟩ <;> rfl
  | expect wanted =>
    obtain ⟨-, rest, -, rfl⟩ := expect_eq_ok h wanted.token_ne_eof
    rfl
  | optionalMatch wanted =>
    rcases optionalMatch_eq_ok h wanted.token_ne_eof with ⟨-, t, rest, -, -, rfl⟩ | ⟨-, rfl⟩ <;> rfl
  | expectIdent =>
    obtain ⟨t, rest, -, -, rfl⟩ := expectIdent_eq_ok h
    rfl
  | expectEnd => rw [expectEnd_eq_ok h]
  | scopes => rw [(scopes_eq_ok h).2]
  | _ => exact ho.elim

/-- What the rules for bindings are given. -/
def Rule.AsksParsed (O : Origin) (Γ : Scopes) : {α : Type} → Rule α → Prop
  | _, .expression | _, .clauses | _, .bindingBody _ | _, .entries => True
  | _, .clausesAfter done => done.Parsed O Γ
  | _, .entriesAfter done => Table.Parsed O Γ done
  | _, _ => False

/-- What the rules for bindings give. -/
def Rule.GivesParsed (O : Origin) (Γ : Scopes) : {α : Type} → Rule α → α → Prop
  | _, .expression, e => ∃ ts, ts <:+: O.tokens ∧ e.From Γ ts
  | _, .clauses, bindings | _, .clausesAfter _, bindings => bindings.Parsed O Γ
  | _, .bindingBody kind, body => body.Suits kind ∧ ∀ e ∈ body.codes, e.Parsed O Γ
  | _, .entries, es | _, .entriesAfter _, es => Table.Parsed O Γ es
  | _, _, _ => True

/-- Bindings are read in scopes that stay as they are. -/
def clausing (O : Origin) (Γ : Scopes) : Spec O where
  holds s := s.Drawn O ∧ s.scopes = Γ
  allows := Op.quiet
  asks := Rule.AsksParsed O Γ
  gives := Rule.GivesParsed O Γ
  drawn hs := hs.1
  asked {_ o} ho := by cases o <;> trivial
  run ho hs h hs' := ⟨hs', (ho.scopes_eq h).trans hs.2⟩

theorem checked_draws {α : Type} {P : α → Prop} {next : Expr → Act α}
    (h : ∀ e : Expr, e.Parsed O Γ → (next e).Draws (clausing O Γ) P) :
    (Act.checked next).Draws (clausing O Γ) P := by
  refine .call trivial fun e he => ?_
  cases hcheck : e.check with
  | ok u => exact h e ⟨he, hcheck⟩
  | error err =>
    obtain ⟨ts, hts, hfrom⟩ := he
    exact .fail ((hfrom.placed hts.subset).line_of_check hcheck)

namespace Rule

theorem clauses_draws : clauses.body.Draws (clausing O Γ) fun bindings => bindings.Parsed O Γ := by
  refine .op trivial fun t _ => ?_
  split
  · exact .done .nil
  · exact .call Bindings.Parsed.nil fun bindings h => .op trivial fun _ _ => .done h

theorem clausesAfter_draws {done : Bindings Expr} (hdone : done.Parsed O Γ) :
    (clausesAfter done).body.Draws (clausing O Γ) fun bindings => bindings.Parsed O Γ := by
  refine .op trivial fun ⟨name, line⟩ hname => ?_
  dsimp only
  split
  · exact .fail (Named.line hname)
  · rename_i kind _
    split
    · exact .fail (Named.line hname)
    · rename_i hnew
      refine .op trivial fun _ _ => .op trivial fun _ _ => .call trivial fun body hbody => ?_
      refine .op trivial fun _ _ => .op trivial fun more _ => ?_
      have hall := hdone.snoc hnew hbody.1 hbody.2
      cases more with
      | true => exact .last hall fun _ h => h
      | false => exact .done hall

theorem bindingBody_draws (kind : Binding.Kind) :
    (bindingBody kind).body.Draws (clausing O Γ) fun body =>
    body.Suits kind ∧ ∀ e ∈ body.codes, e.Parsed O Γ := by
  rw [body]
  split
  · rename_i hkind
    refine .call trivial fun es hes => .done ⟨⟨hkind, hes.names⟩, ?_⟩
    intro e he
    obtain ⟨entry, hentry, rfl⟩ := List.mem_map.1 he
    exact hes.codes entry hentry
  · rename_i hkind
    exact checked_draws fun e he =>
      .done ⟨by simpa [Binding.Body.Suits] using hkind, List.forall_mem_singleton.2 he⟩

theorem entries_draws : entries.body.Draws (clausing O Γ) (Table.Parsed O Γ) := by
  refine .op trivial fun t _ => ?_
  split
  · exact .done .nil
  · exact .last Table.Parsed.nil fun _ h => h

theorem entriesAfter_draws {done : Table Expr} (hdone : Table.Parsed O Γ done) :
    (entriesAfter done).body.Draws (clausing O Γ) (Table.Parsed O Γ) := by
  refine .op trivial fun t ht => ?_
  split
  · split
    · exact .fail ht.2
    · rename_i hnew
      refine .op trivial fun _ _ => checked_draws fun e he => .op trivial fun more _ => ?_
      have hall := hdone.snoc hnew he
      cases more with
      | true => exact .last hall fun _ h => h
      | false => exact .done hall
  · exact .fail ht.2

end Rule

/-- **The rules for bindings read well-formed bindings**, and their errors are at lines of the
text. -/
theorem clausing_kept (c : Activation) : (clausing O Γ).contract.Kept c := by
  refine (clausing O Γ).kept (fun r hr hasks => ?_) (fun r hr hasks => ?_) c
  · cases r with
    | expression =>
      refine ⟨trivial, fun s ts a s' hs hts hreads =>
        ⟨⟨hts.drawn hs.1, hts.scopes.trans hs.2⟩, ts, ?_, ?_⟩⟩
      · exact (hts.tokens ▸ List.prefix_append ts _).isInfix.trans hs.1.tokens.isInfix
      · exact hs.2 ▸ hreads
    | clauses | clausesAfter | bindingBody | entries | entriesAfter => simp [Rule.layer] at hr
    | _ => exact hasks.elim
  · cases r with
    | clauses => exact Rule.clauses_draws
    | clausesAfter done => exact Rule.clausesAfter_draws hasks
    | bindingBody kind => exact Rule.bindingBody_draws kind
    | entries => exact Rule.entries_draws
    | entriesAfter done => exact Rule.entriesAfter_draws hasks
    | expression => exact absurd rfl hr
    | _ => exact hasks.elim

end Parse

/-! ### Texts -/

variable {source : String}

theorem parseBindings_parsed {bindings : Bindings Expr} (h : parseBindings source = .ok bindings) :
    bindings.Parsed (.unlined (TokenRun.ofText source).tokens) [Scope.empty] :=
  (Parse.Spec.onText (r := .clauses) Parse.clausing_kept trivial
    ⟨ParseState.drawn_unlined List.suffix_rfl, rfl⟩).1 bindings h

/-- **Every expression of parsed bindings is well typed** with nothing in sight. -/
theorem parseBindings_typed {bindings : Bindings Expr} (h : parseBindings source = .ok bindings) :
    ∀ e ∈ bindings.codes, e.Typed [Scope.empty] := by
  intro e he
  obtain ⟨⟨ts, hts, hfrom⟩, hcheck⟩ := (parseBindings_parsed h).codes e he
  exact hfrom.sound (fun t ht => ParseState.wellNamed_start source [] t (hts.subset ht)) hcheck

theorem Binding.Body.Suits.map {kind : Binding.Kind} {body : Binding.Body α} (h : body.Suits kind)
    (f : α → β) : (body.map f).Suits kind := by
  cases body with
  | expr e => exact h
  | entries es =>
    refine ⟨h.1, ?_⟩
    rw [List.map_map]
    exact h.2

/-- **Compiled bindings are well formed**, and each program is that of an expression. -/
theorem compileBindings_eq_ok {p : Bindings Code} (h : compileBindings source = .ok p) :
    p.WellFormed ∧ ∃ bindings : Bindings Expr, p = bindings.map Expr.code := by
  cases hparse : parseBindings source with
  | error e =>
    rw [compileBindings, hparse] at h
    simp [Except.map] at h
  | ok bindings =>
    rw [compileBindings, hparse] at h
    obtain rfl : bindings.map Expr.code = p := Except.ok.inj h
    have hbindings := (parseBindings_parsed hparse).wellFormed
    refine ⟨⟨?_, fun b hb => ?_⟩, bindings, rfl⟩
    · rw [Bindings.kinds, Bindings.map, List.map_map]
      exact hbindings.kinds
    · obtain ⟨b', hb', rfl⟩ := List.mem_map.1 hb
      exact (hbindings.bodies b' hb').map Expr.code

end BindScript
