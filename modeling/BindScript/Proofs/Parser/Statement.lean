/-
**Parsed programs are typed.**

Statements change the scopes: a declaration extends the innermost one, and a block opens one and
closes it again.  As with expressions, what the parsers give is typed once it passes the check;
unlike there, the scopes after a statement are part of what is said.

Main results:

* `Parse.recordDeclaration_extends`, `Parse.declaration_extends` — declarations;
* `Parse.block_keeps` — blocks;
* `Parse.nestedStatement_extends` — statements;
* `parseProgram_typed` — accepted programs are well typed.
-/

import BindScript.Proofs.Parser.Expression
import BindScript.Proofs.Parser.RecordNames

namespace BindScript

variable {ss : List Stmt}

theorem checkStatements_append {ss' : List Stmt} :
    checkStatements (ss ++ ss') = .ok () ↔ checkStatements ss = .ok () ∧
    checkStatements ss' = .ok () := by
  induction ss with
  | nil => simp [checkStatements]
  | cons s ss ih => simp [checkStatements, seq_eq_ok, ih, and_assoc]

theorem checkStatements_singleton {s : Stmt} : checkStatements [s] = .ok () ↔ s.check = .ok () := by
  simp [checkStatements, seq_eq_ok]

theorem TypedAll.singleton {fresh : Prop} {Γ Γ' : Scopes} {s : Stmt} (h : Stmt.Typed fresh Γ s Γ') :
    TypedAll fresh Γ [s] Γ' := .cons h .nil

variable {s s' : ParseState} {fields : Fields}

namespace Parse

/-! ### Parsers between statements -/

/-- From good states with these scopes, the results of the parser have the property, and the state
after it is good and has the same scopes. -/
def Keeps {α : Type} (fresh : Prop) (Γ : Scopes) (p : Parse α) (Q : α → Prop) : Prop :=
  ∀ ⦃s a s'⦄, s.scopes = Γ → s.Good fresh → p s = .ok (a, s') →
    s'.Good fresh ∧ s'.scopes = Γ ∧ Q a

/-- From good states, the parser gives statements that are typed if they pass the check. The state
after it is good, and only the innermost scope is changed. -/
def Extends {α : Type} (fresh : Prop) (scope : Scope) (outer : Scopes) (p : Parse α)
    (statements : α → List Stmt) : Prop :=
  ∀ ⦃s a s'⦄, s.scopes = scope :: outer → s.Good fresh → p s = .ok (a, s') →
    s'.Good fresh ∧ ∃ scope', s'.scopes = scope' :: outer ∧
      (checkStatements (statements a) = .ok () →
        TypedAll fresh (scope :: outer) (statements a) (scope' :: outer))

variable {α β : Type} {fresh : Prop} {Γ : Scopes} {scope : Scope} {outer : Scopes}

theorem Yields.keeps {p : Parse α} {Q : α → Prop} (h : Yields Γ p Q) : Keeps fresh Γ p Q := by
  intro s a s' hΓ hs hp
  obtain ⟨ha, hpass⟩ := h hΓ hs.named hp
  exact ⟨hs.passes hpass, hpass.1.trans hΓ, ha⟩

namespace Keeps

variable {P : α → Prop} {Q : β → Prop}

theorem bind {p : Parse α} {f : α → Parse β} (hp : Keeps fresh Γ p P)
    (hf : ∀ a, P a → Keeps fresh Γ (f a) Q) : Keeps fresh Γ (p >>= f) Q := by
  intro s b s' hΓ hs h
  obtain ⟨a, s₁, hpa, hfa⟩ := bind_eq_ok.1 h
  obtain ⟨hs₁, hΓ₁, ha⟩ := hp hΓ hs hpa
  exact hf a ha hΓ₁ hs₁ hfa

theorem pure {a : α} (ha : P a) : Keeps fresh Γ (Pure.pure a) P := (Yields.pure ha).keeps

theorem exhausted : Keeps fresh Γ exhausted P := Yields.exhausted.keeps

end Keeps

/-! ### Declarations of records -/

/-- Fields have types that are plain tokens, and their leaves are primitive. -/
theorem FieldLeaves.isLeaf {type : Token} {field : String} {leaves : Fields}
    (h : FieldLeaves Γ field type leaves) (hΓ : Γ.LeafTyped) :
    type.isPlain = true ∧ ∀ leaf ∈ leaves, Ty.isLeaf leaf.2 = true := by
  cases h with
  | @primitive k ty hty hleaf =>
    refine ⟨?_, by simpa using hleaf⟩
    cases k with
    | record => cases hty
    | _ => rfl
  | record hfields =>
    refine ⟨rfl, ?_⟩
    intro leaf hleaf
    obtain ⟨entry, hentry, rfl⟩ := List.mem_map.1 hleaf
    exact hΓ.of_type? hfields entry hentry

/-- Leaves are added to a layout, unless it would have a path twice. -/
theorem addLeaves_cases (record : String) (line : Nat) (hfields : (fields.map Prod.fst).Nodup)
    (leaves : Fields) :
    ((fields ++ leaves).map Prod.fst).Nodup ∧
      addLeaves record line fields leaves = .ok (fields ++ leaves) ∨
      ∃ path, [path, path].Sublist ((fields ++ leaves).map Prod.fst) ∧
        addLeaves record line fields leaves = .error ⟨.repeatedField path record, line⟩ := by
  induction leaves generalizing fields with
  | nil => exact .inl ⟨by simpa using hfields, by simp [addLeaves]⟩
  | cons leaf leaves ih =>
    obtain ⟨path, ty⟩ := leaf
    by_cases hpath : path ∈ fields.map Prod.fst
    · refine .inr ⟨path, ?_, ?_⟩
      · rw [List.map_append]
        exact (List.singleton_sublist.2 hpath).append (List.singleton_sublist.2 List.mem_cons_self)
      · rw [addLeaves, if_pos (isSome_lookup.2 hpath)]
    · have hnew : ((fields ++ [(path, ty)]).map Prod.fst).Nodup := by
        rw [List.map_append, List.nodup_append']
        exact ⟨hfields, by simp, by simpa using hpath⟩
      rw [addLeaves, if_neg (hpath ∘ isSome_lookup.1)]
      simpa using ih hnew

/-- A layout stays flat when primitive leaves are added to it. -/
theorem addLeaves_flat {record : String} {line : Nat} {leaves fields' : Fields}
    (h : addLeaves record line fields leaves = .ok fields') (hfields : fields.Flat)
    (hleaves : ∀ field ∈ leaves, Ty.isLeaf field.2 = true) : fields'.Flat := by
  rcases addLeaves_cases record line hfields.distinct leaves with ⟨hnodup, hok⟩ | ⟨path, -, herror⟩
  · obtain rfl : fields ++ leaves = fields' := Except.ok.inj (hok.symm.trans h)
    exact ⟨List.forall_mem_append.2 ⟨hfields.leaf, hleaves⟩, hnodup⟩
  · exact absurd (herror.symm.trans h) (by simp)

/-- The fields of a record are plain tokens up to the closing brace, and their layout is flat. -/
theorem ReadFields.flat {record : String} {ts rest : List Token.Located} {all : Fields}
    (h : ReadFields record Γ ts fields all rest) (hΓ : Γ.LeafTyped) (hfields : fields.Flat) :
    all.Flat ∧ ∃ passed t, ts = passed ++ t :: rest ∧ (∀ t ∈ passed, t.token.isPlain = true) ∧
      t.token = .mark .closeBrace := by
  induction h with
  | @close t rest _ htoken => exact ⟨hfields, [], t, rfl, by simp, htoken⟩
  | @field t tn ts _ _ _ _ _ _ _ htn hts hleaves hadd _ ih =>
    obtain ⟨hplain, hleaf⟩ := hleaves.isLeaf hΓ
    obtain ⟨hall, passed, tc, rfl, hpassed, htc⟩ := ih (addLeaves_flat hadd hfields hleaf)
    have hnext : tn.token.isPlain = true ∧ ts.token.isPlain = true := by
      rw [htn, hts]; exact ⟨rfl, rfl⟩
    exact ⟨hall, t :: tn :: ts :: passed, tc, rfl,
      by simpa using ⟨hplain, hnext.1, hnext.2, hpassed⟩, htc⟩

/-- The declaration of a record leaves no statement behind. In a text with fresh record names, its
name is that of no record type in sight. -/
theorem recordDeclaration_extends : Extends fresh scope outer recordDeclaration fun _ => [] := by
  intro s u s' hscopes hs h
  obtain ⟨t, tn, tb, rest, name, line, fields, _, b, s₂, Γ', htokens, htoken, htn, htb, hfields,
    hsemicolon, hadd, rfl⟩ := recordDeclaration_eq_ok h
  obtain ⟨rest', hread, rfl⟩ := recordFields_eq_ok (bounded_eq_ok.1 hfields)
  obtain ⟨hflat, passed, tc, hpassed, hplain, htc⟩ := hread.flat hs.leaves ⟨by simp, by simp⟩
  have hpassed : rest = passed ++ tc :: rest' := hpassed
  subst hpassed
  have hnamed : ({ s with tokens := rest' } : ParseState).WellNamed :=
    fun t ht => hs.named t (by simp [htokens, show t ∈ rest' from ht])
  obtain ⟨-, hpass⟩ := optionalMatch_yields (by simp) rfl rfl hnamed hsemicolon
  have hscopes₂ : s₂.scopes = scope :: outer := hpass.1.trans hscopes
  rw [hscopes₂] at hadd
  obtain ⟨scope₀, outer₀, heq, hnew, hvariable, rfl⟩ := Scopes.addType_eq_ok hadd
  cases heq
  -- the scan sees the same declaration, and the braces around the fields
  have hscan : fresh →
      (s.scopes.recordNames.all fun names => !names.contains name) = true ∧
      recordNamesFresh (noteRecord name s.scopes.recordNames) (s₂.tokens.map (·.token)) = true := by
    intro hfresh
    have hnames := hs.names hfresh
    have hfields : ∀ t ∈ passed.map (·.token), t.isPlain = true := by simpa using hplain
    rw [htokens] at hnames
    simp only [List.map_cons, List.map_append, htoken, htn, htb, htc, recordNamesFresh,
      Bool.and_eq_true, recordNamesFresh_append _ hfields] at hnames
    obtain ⟨-, passed₂, hpassed₂, hplain₂⟩ := hpass
    simp only [List.drop_succ_cons, List.drop_zero] at hnames hpassed₂
    rw [hpassed₂, List.map_append, recordNamesFresh_append _ (by simpa using hplain₂)] at hnames
    exact hnames
  refine ⟨⟨hpass.wellNamed hnamed, ?_, ?_⟩, _, rfl, ?_⟩
  · intro scope' hscope'
    rcases List.mem_cons.1 hscope' with rfl | hscope'
    · intro entry hentry
      rcases List.mem_append.1 hentry with hentry | hentry
      · exact hs.leaves scope (by rw [hscopes]; exact List.mem_cons_self) entry hentry
      · obtain rfl : entry = (name, fields) := by simpa using hentry
        exact hflat
    · exact hs.leaves scope' (by rw [hscopes]; exact List.mem_cons_of_mem _ hscope')
  · intro hfresh
    have hnames := (hscan hfresh).2
    rw [hscopes] at hnames
    simpa [Scopes.recordNames, noteRecord] using hnames
  · intro _
    refine .record hflat ?_ hadd .nil
    intro hfresh
    have hnames := (hscan hfresh).1
    rw [hscopes] at hnames
    exact Scopes.type?_eq_none hnames

/-! ### Simple statements -/

/-- An initializer is converted to the type of the variable, which is no record. -/
theorem initializer_yields (ty : Ty) (name : String) (line : Nat) :
    Yields Γ (initializer ty name line) fun init =>
      ∀ e ∈ init, (∀ record, ty ≠ .record record) ∧ ∃ e₀ : Expr, e₀.Sound Γ ∧ e = e₀.coerce ty := by
  refine (optionalMatch_yields (by simp) rfl).bind fun b _ => ?_
  cases b with
  | false => exact .pure (by simp)
  | true =>
    cases ty with
    | record record => exact .fail
    | _ =>
      refine expression_yields.bind fun e he => .pure ?_
      intro e' he'
      obtain rfl : _ = e' := by simpa using he'
      exact ⟨by simp, e, he, rfl⟩

theorem isLeaf_of_ne {ty : Ty} (hrecord : ∀ record, ty ≠ .record record) (hvoid : ty ≠ .void) :
    ty.isLeaf = true := by
  cases ty with
  | void => exact absurd rfl hvoid
  | record record => exact absurd rfl (hrecord record)
  | _ => rfl

/-- A declaration is typed in the scopes before it; its variable is there after it. -/
theorem declaration_extends (ty : Ty) (line : Nat) :
    Extends fresh scope outer (declaration ty line) fun s => [s] := by
  intro s st s' hscopes hs h
  obtain ⟨name, nameLine, s₁, init, s₂, t, s₃, Γ', hident, hinitializer, hsemicolon, hadd,
    rfl, rfl⟩ :=
    declaration_eq_ok h
  obtain ⟨hs, hscopes, -⟩ := expectIdent_yields.keeps hscopes hs hident
  obtain ⟨hs, hscopes, hinit⟩ := (initializer_yields ty name nameLine).keeps hscopes hs hinitializer
  obtain ⟨hs, hscopes, -⟩ := (expect_yields (by simp) rfl).keeps hscopes hs hsemicolon
  refine ⟨hs.addVariable hadd, ?_⟩
  rw [hscopes] at hadd
  obtain ⟨scope₀, outer₀, value, heq, -, -, -, rfl⟩ := Scopes.addVariable_eq_ok hadd
  cases heq
  refine ⟨_, rfl, ?_⟩
  intro hcheck
  rw [checkStatements_singleton] at hcheck
  cases init with
  | none => exact .singleton (.declare hadd)
  | some e =>
    obtain ⟨hrecord, e₀, he₀, rfl⟩ := hinit e rfl
    simp only [Stmt.check, seq_eq_ok, checkAssignable, require_eq_ok] at hcheck
    obtain ⟨hty, hvoid⟩ := Expr.ty_coerce hcheck.2
    exact .singleton (.declareInit (he₀.coerce ty hcheck.1) hty (isLeaf_of_ne hrecord hvoid) hadd)

theorem assignment_yields :
    Yields Γ assignment fun s => s.check = .ok () → Stmt.Typed fresh Γ s Γ := by
  refine expectIdent_yields.bind fun r hname => ?_
  obtain ⟨name, line⟩ := r
  refine (place_yields hname line).bind fun target htarget => ?_
  refine (expect_yields (by simp) rfl).bind fun _ _ => ?_
  refine expression_yields.bind fun value hvalue => ?_
  refine (expect_yields (by simp) rfl).bind fun _ _ => .pure ?_
  intro hcheck
  simp only [Stmt.check, seq_eq_ok, checkAssignable, require_eq_ok] at hcheck
  obtain ⟨hty, hvoid⟩ := Expr.ty_coerce hcheck.2
  exact .assign htarget (hvalue.coerce target.ty hcheck.1) hty hvoid

/-! ### Blocks -/

section Blocks

variable {statement : Parse (Option Stmt)}
  (hstatement : ∀ scope outer, Extends fresh scope outer statement Option.toList)
include hstatement

/-- Statements extend the innermost scope, and are typed if they pass the check. -/
theorem Sequence.extends {scope : Scope} (h : Sequence statement s ss s')
    (hscopes : s.scopes = scope :: outer) (hs : s.Good fresh) :
    s'.Good fresh ∧ ∃ scope', s'.scopes = scope' :: outer ∧
      (checkStatements ss = .ok () → TypedAll fresh (scope :: outer) ss (scope' :: outer)) := by
  induction h generalizing scope with
  | nil => exact ⟨hs, scope, hscopes, fun _ => .nil⟩
  | cons ho _ ih =>
    obtain ⟨hs₁, scope₁, hscopes₁, htyped⟩ := hstatement scope outer hscopes hs ho
    obtain ⟨hs', scope', hscopes', htyped'⟩ := ih hscopes₁ hs₁
    refine ⟨hs', scope', hscopes', ?_⟩
    intro hcheck
    obtain ⟨hc, hc'⟩ := checkStatements_append.1 hcheck
    exact (htyped hc).append (htyped' hc')

theorem block_keeps : Keeps fresh Γ (block statement) fun b =>
    b.check = .ok () → Block.Typed fresh Γ b := by
  intro s b s' hΓ hs h
  obtain ⟨t, rest, s₁, t', rest', -, htokens, htoken, hseq, htokens', htoken', hb, rfl⟩ :=
    block_eq_ok h
  obtain ⟨hs₁, scope', hscopes', htyped⟩ := hseq.extends hstatement (congrArg (Scope.empty :: ·) hΓ)
    (hs.enter htokens htoken)
  refine ⟨hs₁.leave htokens' htoken', by simp [Scopes.pop, hscopes'], ?_⟩
  intro hcheck
  rw [hb, Block.check] at hcheck
  rw [hb, hscopes']
  exact .mk (htyped hcheck)

/-- A branch is typed; what follows `else if` is a branch in a block without a scope of its own. -/
theorem branchRounds_keeps (rounds : Nat) : Keeps fresh Γ (branchRounds statement rounds) fun s =>
    (∃ line condition yes no, s = .branch line condition yes no) ∧
      (s.check = .ok () → Stmt.Typed fresh Γ s Γ) := by
  induction rounds with
  | zero => exact .exhausted
  | succ rounds ih =>
    refine (expect_yields (by simp) rfl).keeps.bind fun _ _ => ?_
    refine expression_yields.keeps.bind fun condition hcondition => ?_
    refine (block_keeps hstatement).bind fun yes hyes => ?_
    refine (optionalMatch_yields (by simp) rfl).keeps.bind fun b _ => ?_
    cases b with
    | false =>
      refine .pure ⟨⟨_, _, _, _, rfl⟩, ?_⟩
      intro hcheck
      simp only [Stmt.check, seq_eq_ok] at hcheck
      obtain ⟨hc, hcty⟩ := Expr.checkCondition_eq_ok hcheck.1
      exact .branch (hcondition hc) hcty (hyes hcheck.2.1)
    | true =>
      refine peek_yields.keeps.bind fun t _ => ?_
      by_cases htoken : t.token = .keyword .ifThen
      · rw [if_pos htoken]
        refine ih.bind fun other hother => .pure ⟨⟨_, _, _, _, rfl⟩, ?_⟩
        obtain ⟨⟨line, c, y, n, rfl⟩, hother⟩ := hother
        intro hcheck
        simp only [Stmt.check, seq_eq_ok, checkOption, Block.check] at hcheck
        obtain ⟨hc, hcty⟩ := Expr.checkCondition_eq_ok hcheck.1
        -- this branch has been read without the scope of the block around it
        have hbranch := hother (checkStatements_singleton.1 hcheck.2.2)
        exact .branchElse (hcondition hc) hcty (hyes hcheck.2.1)
          (.mk (.singleton hbranch.insert_branch))
      · rw [if_neg htoken]
        refine (block_keeps hstatement).bind fun no hno => .pure ⟨⟨_, _, _, _, rfl⟩, ?_⟩
        intro hcheck
        simp only [Stmt.check, seq_eq_ok, checkOption] at hcheck
        obtain ⟨hc, hcty⟩ := Expr.checkCondition_eq_ok hcheck.1
        exact .branchElse (hcondition hc) hcty (hyes hcheck.2.1) (hno hcheck.2.2)

theorem branch_keeps : Keeps fresh Γ (branch statement) fun s =>
    s.check = .ok () → Stmt.Typed fresh Γ s Γ := by
  intro s st s' hΓ hs h
  obtain ⟨hs', hΓ', -, hst⟩ := branchRounds_keeps hstatement _ hΓ hs (bounded_eq_ok.1 h)
  exact ⟨hs', hΓ', hst⟩

theorem statementWith_extends :
    Extends fresh scope outer (statementWith statement) Option.toList := by
  intro s o s' hscopes hs h
  have hsame : ∀ {st : Stmt}, s'.Good fresh ∧ s'.scopes = scope :: outer ∧
      (st.check = .ok () → Stmt.Typed fresh (scope :: outer) st (scope :: outer)) →
      s'.Good fresh ∧ ∃ scope', s'.scopes = scope' :: outer ∧
        (checkStatements [st] = .ok () → TypedAll fresh (scope :: outer) [st] (scope' :: outer)) :=
    fun ⟨hs', hscopes', hst⟩ => ⟨hs', scope, hscopes', fun hcheck =>
      .singleton (hst (checkStatements_singleton.1 hcheck))⟩
  cases statementWith_results h with
  | branch hbranch => exact hsame (branch_keeps hstatement hscopes hs hbranch)
  | loop hwhile hcondition hbody =>
    obtain ⟨hs₁, hscopes₁, -⟩ := (expect_yields (by simp) rfl).keeps hscopes hs hwhile
    obtain ⟨hs₂, hscopes₂, hsound⟩ := expression_yields.keeps hscopes₁ hs₁ hcondition
    obtain ⟨hs', hscopes', htyped⟩ := block_keeps hstatement hscopes₂ hs₂ hbody
    refine hsame ⟨hs', hscopes', fun hcheck => ?_⟩
    simp only [Stmt.check, seq_eq_ok] at hcheck
    obtain ⟨hc, hcty⟩ := Expr.checkCondition_eq_ok hcheck.1
    exact .loop (hsound hc) hcty (htyped hcheck.2)
  | record hrecord => exact recordDeclaration_extends hscopes hs hrecord
  | block hblock =>
    obtain ⟨hs', hscopes', htyped⟩ := block_keeps hstatement hscopes hs hblock
    exact hsame ⟨hs', hscopes', fun hcheck => .block (htyped hcheck)⟩
  | declare htokens hplain hdeclaration =>
    exact declaration_extends _ _ (by exact hscopes) (hs.passes (.take htokens hplain)) hdeclaration
  | perform htokens hplain hcall hsemicolon =>
    obtain ⟨hs₁, hscopes₁, hsound, l, f, ty, args, rfl⟩ :=
      (call_yields _ _).keeps (by exact hscopes) (hs.passes (.take htokens hplain)) hcall
    obtain ⟨hs', hscopes', -⟩ := (expect_yields (by simp) rfl).keeps hscopes₁ hs₁ hsemicolon
    exact hsame ⟨hs', hscopes', fun hcheck => .perform (hsound hcheck)⟩
  | assign hassign => exact hsame (assignment_yields.keeps hscopes hs hassign)

end Blocks

theorem nestedStatement_extends (levels : Nat) (scope : Scope) (outer : Scopes) :
    Extends fresh scope outer (nestedStatement levels) Option.toList := by
  induction levels generalizing scope outer with
  | zero => exact fun _ _ _ _ _ h => absurd h exhausted_ne_ok
  | succ levels ih => exact statementWith_extends ih

end Parse

/-! ### Programs -/

variable {globals : Globals}

/-- An accepted program is well typed. Its outermost scope has the globals from the start. -/
theorem parseProgram_typed {source : String} {root : Block}
    (h : parseProgram source globals = .ok root) :
    ∃ slots, globalSlots globals = .ok slots ∧
      TypedAll (RecordNamesFresh source) [⟨slots, []⟩] root.statements
        [⟨root.slots, root.types⟩] := by
  obtain ⟨slots, s, hslots, hseq, hroot, hcheck⟩ := parseProgram_statements h
  obtain ⟨-, scope', hscopes', htyped⟩ := hseq.extends
    (fun scope outer _ _ _ hscopes hs h => Parse.nestedStatement_extends _ scope outer hscopes hs h)
      rfl
    (ParseState.good_start source slots)
  refine ⟨slots, hslots, ?_⟩
  rw [hroot, hscopes']
  rw [hroot] at hcheck
  exact htyped hcheck

variable {slots : List Slot}

/-- The slot of a global is bound, at its value, of its primitive type. -/
theorem globalSlots_cons_eq_ok {name : String} {value : Value}
    (h : globalSlots ((name, value) :: globals) = .ok slots) :
    ∃ rest, globalSlots globals = .ok rest ∧ slots = ⟨name, value.ty, value, true⟩ :: rest ∧
      value.ty.isLeaf = true := by
  cases hrest : globalSlots globals with
  | error e => cases value <;> simp [globalSlots, hrest, Except.map] at h
  | ok rest =>
    refine ⟨rest, rfl, ?_⟩
    cases value <;> simp_all [globalSlots, Except.map, Value.ty, Ty.isLeaf]

/-- The slots of the globals: one for each, bound, at its value, of its primitive type. -/
theorem globalSlots_eq_ok (h : globalSlots globals = .ok slots) :
    slots.map (·.name) = globals.map Prod.fst ∧
      ∀ slot ∈ slots, slot.bound = true ∧ slot.ty = slot.value.ty ∧ slot.ty.isLeaf = true := by
  induction globals generalizing slots with
  | nil =>
    obtain rfl : [] = slots := by simpa [globalSlots] using h
    simp
  | cons g globals ih =>
    obtain ⟨name, value⟩ := g
    obtain ⟨rest, hr, rfl, hleaf⟩ := globalSlots_cons_eq_ok h
    obtain ⟨hnames, hslots⟩ := ih hr
    refine ⟨by simp [hnames], ?_⟩
    intro slot hslot
    rcases List.mem_cons.1 hslot with rfl | hslot
    · exact ⟨rfl, rfl, hleaf⟩
    · exact hslots slot hslot

theorem map_globalSlots (h : globalSlots globals = .ok slots) :
    slots.map (fun s => (s.name, s.value)) = globals := by
  induction globals generalizing slots with
  | nil =>
    obtain rfl : [] = slots := by simpa [globalSlots] using h
    rfl
  | cons g globals ih =>
    obtain ⟨name, value⟩ := g
    obtain ⟨rest, hr, rfl, -⟩ := globalSlots_cons_eq_ok h
    rw [List.map_cons, ih hr]

end BindScript
