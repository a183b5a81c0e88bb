/-
**Ways through the parsers of statements.**

A parser that has succeeded went one of a few ways.  For each of the parsers of statements this
module says which ones there are, and through which states they lead, so that what holds of
statements can be shown by going along them.

Main results:

* `Parse.statementWith_results` — **statements**.
-/

import BindScript.Proofs.Parser.Basic
import BindScript.Tree.Parser.Statement

namespace BindScript

namespace Parse

/-! ### Results -/

/-- All results of a parser from a state have a property. -/
def Results {α : Type} (p : Parse α) (s : ParseState) (Q : α → ParseState → Prop) : Prop :=
  ∀ ⦃a s'⦄, p s = .ok (a, s') → Q a s'

namespace Results

variable {α β : Type} {Q : β → ParseState → Prop} {s : ParseState}

theorem bind {p : Parse α} {f : α → Parse β} (h : ∀ a s₁, p s = .ok (a, s₁) → Results (f a) s₁ Q) :
    Results (p >>= f) s Q := by
  intro b s' hb
  obtain ⟨a, s₁, ha, hb⟩ := bind_eq_ok.1 hb
  exact h a s₁ ha hb

theorem pure {b : β} (h : Q b s) : Results (Pure.pure b) s Q := by
  intro b' s' hb
  obtain ⟨rfl, rfl⟩ := pure_eq_ok.1 hb
  exact h

theorem fail {cause : CompileError.Cause} {line : Nat} : Results (Parse.fail cause line) s Q :=
  fun _ _ h => absurd h fail_ne_ok

theorem peek {f : Token.Located → Parse β}
    (h : ∀ t, Parse.peek s = .ok (t, s) → Results (f t) s Q) :
    Results (Parse.peek >>= f) s Q := by
  refine .bind fun t s₁ hpeek => ?_
  obtain ⟨rfl, -⟩ := peek_eq_ok hpeek
  exact h t hpeek

end Results

/-! ### Ways -/

/-- What follows the first block of a branch: nothing, a branch after `else`, or a block. -/
inductive Alternative (statement : Parse (Option Stmt)) (rounds : Nat) (s : ParseState) :
    Option Block → ParseState → Prop
  | alone {s'} : optionalMatch (.keyword .orElse) s = .ok (false, s') →
      Alternative statement rounds s none s'
  | branch {s₁ t other s'} : optionalMatch (.keyword .orElse) s = .ok (true, s₁) →
      peek s₁ = .ok (t, s₁) →
      t.token = .keyword .ifThen → branchRounds statement rounds s₁ = .ok (other, s') →
      Alternative statement rounds s (some (.mk [] [] [other])) s'
  | block {s₁ no s'} : optionalMatch (.keyword .orElse) s = .ok (true, s₁) →
      block statement s₁ = .ok (no, s') →
      Alternative statement rounds s (some no) s'

/-- A branch: its condition, its first block, and what follows. -/
inductive Branching (statement : Parse (Option Stmt)) (rounds : Nat) (s : ParseState) :
    Stmt → ParseState → Prop
  | mk {t s₁ condition s₂ yes s₃ no s'} : expect (.keyword .ifThen) s = .ok (t, s₁) →
      expression s₁ = .ok (condition, s₂) → block statement s₂ = .ok (yes, s₃) →
      Alternative statement rounds s₃ no s' →
      Branching statement rounds s (.branch t.line condition yes no) s'

/-- The ways of reading a statement, given the parser for statements in blocks. A declaration comes
after the token of its type, and a call after its name. -/
inductive Way (statement : Parse (Option Stmt)) (s : ParseState) : Option Stmt → ParseState → Prop
  | branch {st s'} : branch statement s = .ok (st, s') → Way statement s (some st) s'
  | loop {t s₁ condition s₂ body s'} : expect (.keyword .whileLoop) s = .ok (t, s₁) →
      expression s₁ = .ok (condition, s₂) → block statement s₂ = .ok (body, s') →
      Way statement s (some (.loop t.line condition body)) s'
  | record {s'} : recordDeclaration s = .ok ((), s') → Way statement s none s'
  | block {line b s'} : block statement s = .ok (b, s') → Way statement s (some (.block line b)) s'
  | declare {t rest ty line st s'} : s.tokens = t :: rest → t.token.isPlain = true →
      declaration ty line { s with tokens := rest } = .ok (st, s') → Way statement s (some st) s'
  | perform {t rest name line e s₁ t' s'} : s.tokens = t :: rest → t.token.isPlain = true →
      call expression name line { s with tokens := rest } = .ok (e, s₁) →
      expect (.mark .semicolon) s₁ = .ok (t', s') → Way statement s (some (.perform e)) s'
  | assign {st s'} : assignment s = .ok (st, s') → Way statement s (some st) s'

/-- Statements that are read one after the other, with declarations of record types between them. -/
inductive Sequence (statement : Parse (Option Stmt)) : ParseState → List Stmt → ParseState → Prop
  | nil {s} : Sequence statement s [] s
  | cons {s s₁ s' o ss} : statement s = .ok (o, s₁) → Sequence statement s₁ ss s' →
      Sequence statement s (o.toList ++ ss) s'

/-- The leaves of a field, by the token of its type. -/
inductive FieldLeaves (Γ : Scopes) (field : String) : Token → Fields → Prop
  | primitive {k ty} : k.ty? = some ty → ty.isLeaf = true →
      FieldLeaves Γ field (.keyword k) [(field, ty)]
  | record {type fields} : Γ.type? type = some fields →
      FieldLeaves Γ field (.ident type) (fields.map fun (path, ty) => (field ++ "." ++ path, ty))

/-- The fields of a record up to the closing brace: the tokens before and after them, and the
layout. -/
inductive ReadFields (record : String) (Γ : Scopes) :
    List Token.Located → Fields → Fields → List Token.Located → Prop
  | close {t rest fields} : t.token = .mark .closeBrace →
      ReadFields record Γ (t :: rest) fields fields rest
  | field {t tn ts tokens rest name leaves fields fields' all} : tn.token = .ident name →
      ts.token = .mark .semicolon → FieldLeaves Γ name t.token leaves →
      addLeaves record t.line fields leaves = .ok fields' →
      ReadFields record Γ tokens fields' all rest →
      ReadFields record Γ (t :: tn :: ts :: tokens) fields all rest

variable {s s' : ParseState} {ss : List Stmt} {st : Stmt} {b : Block}
    {statement : Parse (Option Stmt)}
  {rounds : Nat}

/-! ### Declarations -/

theorem fieldLeaves_eq_ok {type : Token} {field : String} {line : Nat} {leaves : Fields}
    (h : fieldLeaves type field line s = .ok (leaves, s')) :
    FieldLeaves s.scopes field type leaves ∧ s' = s := by
  cases type with
  | keyword k =>
    cases k with
    | int | float | string | bool =>
      obtain ⟨rfl, rfl⟩ := pure_eq_ok.1 h
      exact ⟨.primitive rfl rfl, rfl⟩
    | _ => exact absurd h fail_ne_ok
  | ident type =>
    obtain ⟨Γ, s₁, hscopes, h⟩ := bind_eq_ok.1 h
    obtain ⟨rfl, rfl⟩ := scopes_eq_ok hscopes
    cases htype : s₁.scopes.type? type with
    | some fields =>
      simp only [htype] at h
      obtain ⟨rfl, rfl⟩ := pure_eq_ok.1 h
      exact ⟨.record htype, rfl⟩
    | none =>
      simp only [htype] at h
      exact absurd h fail_ne_ok
  | _ => exact absurd h fail_ne_ok

theorem recordFields_eq_ok {record : String} {fields all : Fields}
    (h : recordFields record rounds fields s = .ok (all, s')) :
    ∃ rest, ReadFields record s.scopes s.tokens fields all rest ∧
      s' = { s with tokens := rest } := by
  induction rounds generalizing fields s with
  | zero => exact absurd h exhausted_ne_ok
  | succ rounds ih =>
    simp only [recordFields, bind_eq_ok] at h
    obtain ⟨b, s₁, hmatch, h⟩ := h
    rcases optionalMatch_eq_ok hmatch (by simp) with
      ⟨rfl, t, rest, htoken, htokens, rfl⟩ | ⟨rfl, rfl⟩
    · obtain ⟨rfl, rfl⟩ := pure_eq_ok.1 h
      exact ⟨rest, htokens ▸ .close htoken, rfl⟩
    · simp only [Bool.false_eq_true, if_false, bind_eq_ok] at h
      obtain ⟨t, s₂, hadvance, ⟨name, line⟩, s₃, hident, leaves, s₄, hfield, h⟩ := h
      obtain ⟨tn, rest₃, htn, htokens₃, rfl⟩ := expectIdent_eq_ok hident
      obtain ⟨hleaves, rfl⟩ := fieldLeaves_eq_ok hfield
      rcases advance_eq_ok hadvance with ⟨rest₂, htokens₂, rfl⟩ | ⟨hnil, -, rfl⟩
      · cases hadd : addLeaves record t.line fields leaves with
        | error e =>
          simp only [hadd] at h
          exact absurd h throw_ne_ok
        | ok fields₁ =>
          simp only [hadd, bind_eq_ok] at h
          obtain ⟨ts, s₅, hsemicolon, h⟩ := h
          obtain ⟨hts, rest₅, htokens₅, rfl⟩ := expect_eq_ok hsemicolon (by simp)
          obtain ⟨rest, hread, rfl⟩ := ih h
          simp only at htokens₃ htokens₅
          rw [htokens₂, htokens₃, htokens₅]
          exact ⟨rest, .field htn hts hleaves hadd hread, rfl⟩
      · -- at the end of the tokens no name follows the type
        exact absurd (hnil.symm.trans htokens₃) (by simp)

theorem recordDeclaration_eq_ok {u : Unit} (h : recordDeclaration s = .ok (u, s')) :
    ∃ t tn tb rest name line fields s₁ b s₂ Γ, s.tokens = t :: tn :: tb :: rest ∧
      t.token = .keyword .record ∧ tn.token = .ident name ∧ tb.token = .mark .openBrace ∧
      bounded (fun rounds => recordFields name rounds []) { s with tokens := rest } =
        .ok (fields, s₁) ∧
      optionalMatch (.mark .semicolon) s₁ = .ok (b, s₂) ∧
      s₂.scopes.addType name fields line = (.ok (), Γ) ∧
      s' = { s₂ with scopes := Γ } := by
  simp only [recordDeclaration, bind_eq_ok] at h
  obtain ⟨t, _, hrecord, ⟨name, line⟩, _, hident, tb, _, hbrace, fields, s₁, hfields, h⟩ := h
  obtain ⟨ht, rest₁, htokens₁, rfl⟩ := expect_eq_ok hrecord (by simp)
  obtain ⟨tn, rest₂, htn, htokens₂, rfl⟩ := expectIdent_eq_ok hident
  obtain ⟨htb, rest, htokens₃, rfl⟩ := expect_eq_ok hbrace (by simp)
  simp only at htokens₂ htokens₃
  split at h
  · obtain ⟨_, _, hfail, -⟩ := bind_eq_ok.1 h
    exact absurd hfail fail_ne_ok
  · obtain ⟨b, s₂, hsemicolon, h⟩ := bind_eq_ok.1 h
    obtain ⟨Γ, hadd, rfl⟩ := updateScopes_eq_ok h
    exact ⟨t, tn, tb, rest, name, line, fields, s₁, b, s₂, Γ, by rw [htokens₁, htokens₂, htokens₃],
      ht, htn, htb, hfields, hsemicolon, hadd, rfl⟩

theorem declaration_eq_ok {ty : Ty} {line : Nat} (h : declaration ty line s = .ok (st, s')) :
    ∃ name nameLine s₁ init s₂ t s₃ Γ, expectIdent s = .ok ((name, nameLine), s₁) ∧
      initializer ty name nameLine s₁ = .ok (init, s₂) ∧
      expect (.mark .semicolon) s₂ = .ok (t, s₃) ∧
      s₃.scopes.addVariable ty name nameLine = (.ok (), Γ) ∧ st = .declare line name ty init ∧
      s' = { s₃ with scopes := Γ } := by
  simp only [declaration, bind_eq_ok, pure_eq_ok] at h
  obtain ⟨⟨name, nameLine⟩, s₁, hident, init, s₂, hinit, t, s₃, hsemicolon, _, _, hupdate,
    rfl, rfl⟩ := h
  obtain ⟨Γ, hadd, rfl⟩ := updateScopes_eq_ok hupdate
  exact ⟨name, nameLine, s₁, init, s₂, t, s₃, Γ, hident, hinit, hsemicolon, hadd, rfl, rfl⟩

/-! ### Blocks -/

theorem closeBlock_eq_ok (h : closeBlock ss s = .ok (b, s')) :
    b = .mk s.scopes.top.slots s.scopes.top.types ss ∧ s' = { s with scopes := s.scopes.pop } := by
  have h : Except.ok (Block.mk s.scopes.top.slots s.scopes.top.types ss,
      ({ s with scopes := s.scopes.pop } : ParseState)) = Except.ok (b, s') := h
  obtain ⟨rfl, rfl⟩ := Prod.mk.inj (Except.ok.inj h)
  exact ⟨rfl, rfl⟩

theorem statementsToBrace_results : Results (statementsToBrace statement rounds) s fun ss s' =>
    ∃ s₁ t rest, Sequence statement s ss s₁ ∧ s₁.tokens = t :: rest ∧ t.token = .mark .closeBrace ∧
      s' = { s₁ with tokens := rest } := by
  induction rounds generalizing s with
  | zero => exact fun _ _ h => absurd h exhausted_ne_ok
  | succ rounds ih =>
    refine .peek fun t hpeek => ?_
    split
    · rename_i htoken
      refine .bind fun t' s₂ hadvance => .pure ?_
      obtain ⟨rest, htokens, rfl⟩ := advance_of_peek hpeek (by simp [htoken]) hadvance
      exact ⟨s, t, rest, .nil, htokens, htoken, rfl⟩
    · exact .fail
    · refine .bind fun o s₂ ho => .bind fun ss' s₃ hss' => .pure ?_
      obtain ⟨s₁, t', rest, hseq, hend⟩ := ih hss'
      exact ⟨s₁, t', rest, .cons ho hseq, hend⟩

theorem statementsToEnd_results :
    Results (statementsToEnd rounds) s (Sequence Parse.statement s) := by
  induction rounds generalizing s with
  | zero => exact fun _ _ h => absurd h exhausted_ne_ok
  | succ rounds ih =>
    refine .peek fun t _ => ?_
    split
    · exact .pure .nil
    · exact .bind fun o s₂ ho => .bind fun ss' s₃ hss' => .pure (.cons ho (ih hss'))

/-- A block: its statements are read in a scope of their own, which is then that of the block. -/
theorem block_eq_ok (h : block statement s = .ok (b, s')) :
    ∃ t rest s₁ t' rest', expect (.mark .openBrace) s = .ok (t, { s with tokens := rest }) ∧
      s.tokens = t :: rest ∧ t.token = .mark .openBrace ∧
      Sequence statement { s with tokens := rest, scopes := Scope.empty :: s.scopes }
        b.statements s₁ ∧
      s₁.tokens = t' :: rest' ∧ t'.token = .mark .closeBrace ∧
      b = .mk s₁.scopes.top.slots s₁.scopes.top.types b.statements ∧
      s' = { s₁ with tokens := rest', scopes := s₁.scopes.pop } := by
  simp only [block, bind_eq_ok] at h
  obtain ⟨t, _, hbrace, u, _, hmodify, ss, s₁, hss, h⟩ := h
  obtain rfl := modify_eq_ok hmodify
  obtain ⟨htoken, rest, htokens, rfl⟩ := expect_eq_ok hbrace (by simp)
  obtain ⟨rfl, rfl⟩ := closeBlock_eq_ok h
  obtain ⟨s₁, t', rest', hseq, htokens', htoken', rfl⟩ :=
    statementsToBrace_results (bounded_eq_ok.1 hss)
  exact ⟨t, rest, s₁, t', rest', hbrace, htokens, htoken, hseq, htokens', htoken', rfl, rfl⟩

/-! ### Statements -/

theorem branchRounds_results :
    Results (branchRounds statement (rounds + 1)) s (Branching statement rounds s) := by
  refine .bind fun t s₁ hif => .bind fun condition s₂ hcondition => .bind fun yes s₃ hyes => ?_
  refine .bind fun more s₄ helse => ?_
  cases more with
  | false => exact .pure (.mk hif hcondition hyes (.alone helse))
  | true =>
    refine .peek fun t' hpeek => ?_
    split
    · rename_i htoken
      exact .bind fun other s₅ hother =>
        .pure (.mk hif hcondition hyes (.branch helse hpeek htoken hother))
    · exact .bind fun no s₅ hno => .pure (.mk hif hcondition hyes (.block helse hno))

/-- A statement that begins with a name, which is the next token. -/
theorem namedStatement_results {t : Token.Located} {name : String} (hpeek : peek s = .ok (t, s))
    (htoken : t.token = .ident name) (line : Nat) :
    Results (namedStatement name line) s fun st s' => Way statement s (some st) s' := by
  have hadvance : ∀ {t' s₁}, advance s = .ok (t', s₁) →
      t.token.isPlain = true ∧ ∃ rest, s.tokens = t :: rest ∧ s₁ = { s with tokens := rest } :=
    fun h => ⟨by rw [htoken]; rfl, advance_of_peek hpeek (by simp [htoken]) h⟩
  refine .bind fun t₁ s₁ hlook => ?_
  obtain ⟨rfl, -⟩ := lookahead_eq_ok hlook
  split
  · refine .bind fun _ s₂ htake => .bind fun e s₃ hcall => .bind fun t₂ s₄ hsemicolon => .pure ?_
    obtain ⟨hplain, rest, htokens, rfl⟩ := hadvance htake
    exact .perform htokens hplain hcall hsemicolon
  · refine .bind fun Γ s₂ hscopes => ?_
    obtain ⟨-, rfl⟩ := scopes_eq_ok hscopes
    split
    · refine .bind fun _ s₃ htake => ?_
      obtain ⟨hplain, rest, htokens, rfl⟩ := hadvance htake
      exact fun _ _ h => .declare htokens hplain h
    · refine .bind fun t₂ s₃ _ => ?_
      split <;> exact .fail
  · exact fun _ _ h => .assign h

/-- **A statement is read in one of these ways.** -/
theorem statementWith_results : Results (statementWith statement) s (Way statement s) := by
  refine .peek fun t hpeek => ?_
  split
  · exact .bind fun st s₁ hbranch => .pure (.branch hbranch)
  · refine .bind fun st s₁ hloop => .pure ?_
    simp only [loop, bind_eq_ok, pure_eq_ok] at hloop
    obtain ⟨t', s₂, hwhile, c, s₃, hc, body, s₄, hbody, rfl, rfl⟩ := hloop
    exact .loop hwhile hc hbody
  · exact .bind fun _ s₁ hrecord => .pure (.record hrecord)
  · exact .bind fun b s₁ hblock => .pure (.block hblock)
  · exact .fail
  · rename_i k _ _ hrecord _ htoken
    split
    · refine .bind fun _ s₁ htake => .bind fun st s₂ hdeclaration => .pure ?_
      obtain ⟨rest, htokens, rfl⟩ := advance_of_peek hpeek (by simp [htoken]) htake
      refine .declare htokens ?_ hdeclaration
      rw [htoken]
      cases k with
      | record => exact absurd rfl hrecord
      | _ => rfl
    · exact .fail
  · rename_i htoken
    exact .bind fun st s₁ hnamed => .pure (namedStatement_results hpeek htoken _ hnamed)
  · exact .fail

/-- The result of a parser on a text, read back to the state at its end. -/
theorem onText_eq_ok {α : Type} {p : Parse α} {source : String} {initial : List Slot} {a : α}
    (h : p.onText source initial = .ok a) :
    ∃ s', p { ParseState.start source with scopes := [⟨initial, []⟩] } = .ok (a, s') := by
  simp only [Parse.onText] at h
  cases hp : p { ParseState.start source with scopes := [⟨initial, []⟩] } with
  | error e => simp [StateT.run, Scopes.push, hp, Except.map] at h
  | ok r =>
    obtain rfl : r.1 = a := by simpa [StateT.run, Scopes.push, hp, Except.map] using h
    exact ⟨r.2, rfl⟩

end Parse

/-- An accepted program: its statements are read to the end of the text, from the slots of the
globals on. -/
theorem parseProgram_statements {source : String} {globals : Globals} {root : Block}
    (h : parseProgram source globals = .ok root) :
    ∃ slots s, globalSlots globals = .ok slots ∧
      Parse.Sequence Parse.statement { ParseState.start source with scopes := [⟨slots, []⟩] }
        root.statements s ∧
      root = .mk s.scopes.top.slots s.scopes.top.types root.statements ∧ root.check = .ok () := by
  obtain ⟨slots, hslots, h⟩ := except_bind_eq_ok.1 h
  obtain ⟨root₁, htext, h⟩ := except_bind_eq_ok.1 h
  obtain ⟨u, hcheck, h⟩ := except_bind_eq_ok.1 h
  obtain rfl : root₁ = root := by simpa [pure, Except.pure] using h
  obtain ⟨s', hp⟩ := Parse.onText_eq_ok htext
  obtain ⟨ss, s, hss, hp⟩ := Parse.bind_eq_ok.1 hp
  obtain ⟨rfl, -⟩ := Parse.closeBlock_eq_ok hp
  exact ⟨slots, s, hslots, Parse.statementsToEnd_results (Parse.bounded_eq_ok.1 hss), rfl, hcheck⟩

end BindScript
