/-
**Where the nodes of a tree come from.**

What is known of the nodes of expressions holds of whole programs: whatever the rules for statements
read, the tokens that are left are still tokens of the text, and all that they build, and all
errors, have lines that were given to them.

Main results:

* `Parse.origins_kept` — **nodes and errors stand at lines of the text**;
* `parseProgram_sourced`, `parseExpression_sourced`,
  `parseBindings_sourced` — **where the calls of an accepted text come from**.
-/

import BindScript.Proofs.Binding.Parser
import BindScript.Proofs.Scoping.Reading

namespace BindScript

/-! ### All statements -/

def Stmt.expressions : Stmt → List Expr
  | .branch _ condition _ _ => [condition]
  | .loop _ condition _ => [condition]
  | .block _ _ => []
  | .declare _ _ _ init => init.toList
  | .assign _ _ value => [value]
  | .perform call => [call]

/-- A statement stands in a block, or in a block of one of its statements. -/
inductive Stmt.OccursIn (s : Stmt) : Block → Prop
  | here {b : Block} : s ∈ b.statements → Stmt.OccursIn s b
  | inside {b b' : Block} {s' : Stmt} : s' ∈ b.statements → b' ∈ s'.blocks → Stmt.OccursIn s b' →
      Stmt.OccursIn s b

/-- A property of all statements that stand in a block. -/
def Block.Each (P : Stmt → Prop) (b : Block) : Prop := ∀ s : Stmt, s.OccursIn b → P s

/-- A property of a statement and of all statements in its blocks. -/
def Stmt.Each (P : Stmt → Prop) (s : Stmt) : Prop := P s ∧ ∀ b ∈ s.blocks, b.Each P

theorem Block.Each.of_statements {P : Stmt → Prop} {b : Block} (h : ∀ s ∈ b.statements, s.Each P) :
    b.Each P := by
  intro s hs
  cases hs with
  | here hmem => exact (h s hmem).1
  | inside hmem hblock hs => exact (h _ hmem).2 _ hblock s hs

variable {s : Stmt} {Γ : Scopes} {line : Nat} {err : CompileError} {source : String}

theorem Block.Each.statement {P : Stmt → Prop} {b : Block} (h : b.Each P) (hs : s ∈ b.statements) :
    s.Each P :=
  ⟨h s (.here hs), fun _ hb s' hs' => h s' (.inside hs hb hs')⟩

/-- The calls in the expressions of a statement. -/
def Stmt.Sourced (T : List Token.Located) (s : Stmt) : Prop :=
  ∀ e ∈ s.expressions, e.Each (Expr.Sourced T)

variable {O : Origin}

/-- The lines that a statement has itself. A call that is a statement has none but that of the
call. -/
def Stmt.lines : Stmt → List Nat
  | .branch line _ _ _ | .loop line _ _ | .block line _ | .declare line _ _ _ => [line]
  | .assign line target _ => [line, target.line]
  | .perform _ => []

/-- The statement stands at a line of the text, and so do its expressions. -/
structure Stmt.Placed (O : Origin) (s : Stmt) : Prop where
  lines : ∀ line ∈ s.lines, O.line line
  expressions : ∀ e ∈ s.expressions, e.Each (Expr.Placed O)

/-! ### Errors of declarations -/

theorem Scopes.line_of_addVariable {ty : Ty} {name : String}
    (h : (Γ.addVariable ty name line).1 = .error err) : err.line = line := by
  unfold addVariable zeroValue at h
  split at h
  · cases h
    rfl
  · split at h
    · cases h
      rfl
    · grind

theorem Scopes.line_of_addType {name : String} {fields : Fields}
    (h : (Γ.addType name fields line).1 = .error err) : err.line = line := by
  unfold addType at h
  grind

theorem Parse.line_of_addLeaves {record : String} {fields leaves : Fields}
    (h : addLeaves record line fields leaves = .error err) : err.line = line := by
  induction leaves generalizing fields with
  | nil => cases h
  | cons leaf leaves ih =>
    rw [addLeaves] at h
    split at h
    · cases h
      rfl
    · exact ih h

/-! ### The rules for statements -/

namespace Parse

def Rule.Asks (O : Origin) : {α : Type} → Rule α → Prop
  | _, .call name line | _, .named name line => Named O name line
  | _, .place _ line | _, .declaration _ line | _, .initializer _ _ line => O.line line
  | _, .clauses | _, .clausesAfter _ | _, .bindingBody _ | _, .entries | _, .entriesAfter _ => False
  | _, _ => True

def Rule.Gives (O : Origin) : {α : Type} → Rule α → α → Prop
  | _, .expression, e | _, .call _ _, e | _, .wholeExpression, e => e.Each (Expr.Placed O)
  | _, .place _ _, p => O.line p.line
  | _, .initializer _ _ _, init => ∀ e ∈ init, e.Each (Expr.Placed O)
  | _, .wholeProgram, b | _, .block, b => b.Each (Stmt.Placed O)
  | _, .statementsToEnd, ss | _, .statementsToBrace, ss => ∀ s ∈ ss, s.Each (Stmt.Placed O)
  | _, .statement, o => ∀ s ∈ o, s.Each (Stmt.Placed O)
  | _, .branch, s | _, .loop, s | _, .declaration _ _, s | _, .assignment, s | _, .named _ _, s =>
    s.Each (Stmt.Placed O)
  | _, _, _ => True

/-- All that is read comes from the text, and errors are at its lines. -/
def origins (O : Origin) : Spec O where
  holds := ParseState.Drawn O
  allows := Op.Asks O
  asks := Rule.Asks O
  gives := Rule.Gives O
  drawn hs := hs
  asked ho := ho
  run _ _ _ hs' := hs'

variable {α : Type}

/-- The body of a rule keeps to what the rule gives. -/
def Rule.Draws (O : Origin) (r : Rule α) : Prop := r.Asks O → r.body.Draws (origins O) (r.Gives O)

namespace Rule

/-- A statement without blocks, and without an expression or with one. -/
theorem placed_simple (hlines : ∀ line ∈ s.lines, O.line line) (hblocks : s.blocks = [])
    (hexpressions : ∀ e ∈ s.expressions, e.Each (Expr.Placed O)) : s.Each (Stmt.Placed O) :=
  ⟨⟨hlines, hexpressions⟩, by simp [hblocks]⟩

theorem placed_append {o : Option Stmt} {ss : List Stmt} (ho : ∀ s ∈ o, s.Each (Stmt.Placed O))
    (hss : ∀ s ∈ ss, s.Each (Stmt.Placed O)) : ∀ s ∈ o.toList ++ ss, s.Each (Stmt.Placed O) := by
  intro s hs
  rcases List.mem_append.1 hs with hs | hs
  · exact ho s (by simpa using hs)
  · exact hss s hs

/-- The blocks of a closed scope have the statements that were read. -/
theorem closeBlock_draws {statements : List Stmt} (h : ∀ s ∈ statements, s.Each (Stmt.Placed O)) :
    (Act.op (.closeBlock statements) .done).Draws (origins O) fun b => b.Each (Stmt.Placed O) := by
  refine .op trivial fun b hb => .done (.of_statements ?_)
  rw [show b.statements = statements from hb]
  exact h

theorem statementsToEnd_draws : Draws O .statementsToEnd := by
  intro _
  refine .op trivial fun t _ => ?_
  split
  · exact .done (by simp [Gives])
  · exact .call trivial fun s hs => .call trivial fun rest hrest => .done (placed_append hs hrest)

theorem statementsToBrace_draws : Draws O .statementsToBrace := by
  intro _
  refine .op trivial fun t ht => ?_
  split
  · exact .op trivial fun _ _ => .done (by simp [Gives])
  · exact .fail ht.2
  · exact .call trivial fun s hs => .call trivial fun rest hrest => .done (placed_append hs hrest)

theorem statement_draws : Draws O .statement := by
  intro _
  -- most statements are what a single rule gives
  have hsome : ∀ {β : Type} {r : Rule β} (f : β → Stmt), r.Asks O →
      (∀ b, r.Gives O b → (f b).Each (Stmt.Placed O)) →
      (Act.call r fun b => .done (some (f b))).Draws (origins O) (Gives O .statement) := by
    intro β r f hr h
    refine .call hr fun b hb => .done ?_
    rintro s ⟨rfl⟩
    exact h b hb
  refine .op trivial fun t ht => ?_
  split
  · exact hsome id trivial fun s hs => hs
  · exact hsome id trivial fun s hs => hs
  · exact .call trivial fun _ _ => .done (by simp [Gives])
  · refine hsome (.block t.line) trivial fun b hb => ⟨⟨?_, by simp [Stmt.expressions]⟩, ?_⟩
    · exact List.forall_mem_singleton.2 ht.2
    · exact List.forall_mem_singleton.2 hb
  · exact .fail ht.2
  · split
    · exact .op trivial fun _ _ => hsome id ht.2 fun s hs => hs
    · exact .fail ht.2
  · rename_i name htoken
    exact hsome id ⟨t, ht.1 (by simp [htoken]), htoken, rfl⟩ fun s hs => hs
  · exact .fail ht.2

theorem branch_draws : Draws O .branch := by
  intro _
  refine .op trivial fun t ht => .call trivial fun condition hcondition => ?_
  refine .call trivial fun yes hyes => .op trivial fun more _ => ?_
  have hbranch : ∀ no : Option Block, (∀ b ∈ no, b.Each (Stmt.Placed O)) →
      (Stmt.branch t.line condition yes no).Each (Stmt.Placed O) := by
    intro no hno
    refine ⟨⟨List.forall_mem_singleton.2 (O.lines t ht), List.forall_mem_singleton.2 hcondition⟩,
      ?_⟩
    intro b hb
    rcases List.mem_cons.1 hb with rfl | hb
    · exact hyes
    · exact hno b (by simpa using hb)
  cases more with
  | false => exact .done (hbranch none (by simp))
  | true =>
    refine .op trivial fun next _ => ?_
    split
    -- what follows `else` is a block with the next `if` as its one statement
    · refine .call trivial fun other hother => .done (hbranch _ ?_)
      rintro b ⟨rfl⟩
      exact .of_statements (List.forall_mem_singleton.2 hother)
    · refine .call trivial fun no hno => .done (hbranch _ ?_)
      rintro b ⟨rfl⟩
      exact hno

theorem loop_draws : Draws O .loop := by
  intro _
  refine .op trivial fun t ht => .call trivial fun condition hcondition =>
    .call trivial fun b hb => .done ?_
  exact ⟨⟨List.forall_mem_singleton.2 (O.lines t ht), List.forall_mem_singleton.2 hcondition⟩,
    List.forall_mem_singleton.2 hb⟩

theorem record_draws : Draws O .record := by
  intro _
  refine .op trivial fun t ht => .op trivial fun ⟨name, line⟩ hname => .op trivial fun _ _ => ?_
  refine .call trivial fun fields _ => ?_
  split
  · exact .fail (O.lines t ht)
  · refine .op trivial fun _ _ => .op ?_ fun _ _ => .done trivial
    intro Γ e he
    rw [Scopes.line_of_addType he]
    exact Named.line hname

theorem recordFields_draws (name : String) (fields : Fields) :
    Draws O (.recordFields name fields) := by
  intro _
  refine .op trivial fun closed _ => ?_
  cases closed with
  | true => exact .done trivial
  | false =>
    refine .op trivial fun type htype => .op trivial fun ⟨field, _⟩ _ =>
      .op htype.2 fun leaves _ => ?_
    split
    · rename_i e he
      refine .fail ?_
      rw [line_of_addLeaves he]
      exact htype.2
    · exact .op trivial fun _ _ => .last trivial fun _ h => h

theorem declaration_draws (ty : Ty) (line : Nat) : Draws O (.declaration ty line) := by
  intro hline
  refine .op trivial fun ⟨name, nameLine⟩ hname => .call (Named.line hname) fun init hinit => ?_
  refine .op trivial fun _ _ => .op ?_ fun _ _ => .done (placed_simple ?_ rfl ?_)
  · intro Γ e he
    rw [Scopes.line_of_addVariable he]
    exact Named.line hname
  · exact List.forall_mem_singleton.2 hline
  · intro e he
    exact hinit e (by simpa [Stmt.expressions] using he)

theorem initializer_draws (ty : Ty) (name : String) (line : Nat) :
    Draws O (.initializer ty name line) := by
  intro hline
  refine .op trivial fun more _ => ?_
  cases more with
  | false => exact .done (by simp [Gives])
  | true =>
    cases ty with
    | record record => exact .fail hline
    | _ =>
      refine .call trivial fun e he => .done ?_
      rintro _ ⟨rfl⟩
      exact Expr.placed_coerce _ he

theorem assignment_draws : Draws O .assignment := by
  intro _
  refine .op trivial fun ⟨name, line⟩ hname => .call (Named.line hname) fun target htarget => ?_
  refine .op trivial fun _ _ => .call trivial fun value hvalue => .op trivial fun _ _ => .done ?_
  refine placed_simple ?_ rfl ?_
  · exact List.forall_mem_cons.2 ⟨Named.line hname, List.forall_mem_singleton.2 htarget⟩
  · exact List.forall_mem_singleton.2 (Expr.placed_coerce _ hvalue)

theorem named_draws (name : String) (line : Nat) : Draws O (.named name line) := by
  intro hname
  refine .op trivial fun t _ => ?_
  split
  · refine .op trivial fun _ _ => .call hname fun call hcall => .op trivial fun _ _ => .done ?_
    exact placed_simple (by simp [Stmt.lines]) rfl (List.forall_mem_singleton.2 hcall)
  · refine .op trivial fun Γ _ => ?_
    split
    · exact .op trivial fun _ _ => .last hname.line fun _ hs => hs
    · refine .op trivial fun t _ => ?_
      split
      · exact .fail hname.line
      · exact .fail hname.line
      · exact .fail hname.line
  · exact .last trivial fun _ hs => hs

theorem draws (r : Rule α) (hr : r.layer ≠ 0) : r.Draws O := by
  cases r with
  | wholeExpression => exact fun _ => .call trivial fun e he => .op trivial fun _ _ => .done he
  | wholeProgram => exact fun _ => .call trivial fun statements h => closeBlock_draws h
  | statementsToEnd => exact statementsToEnd_draws
  | statement => exact statement_draws
  | block =>
    exact fun _ => .op trivial fun _ _ => .op trivial fun _ _ =>
      .call trivial fun _ h => closeBlock_draws h
  | statementsToBrace => exact statementsToBrace_draws
  | branch => exact branch_draws
  | loop => exact loop_draws
  | record => exact record_draws
  | recordFields name fields => exact recordFields_draws name fields
  | declaration ty line => exact declaration_draws ty line
  | initializer ty name line => exact initializer_draws ty name line
  | assignment => exact assignment_draws
  | named name line => exact named_draws name line
  | clauses | clausesAfter | bindingBody | entries | entriesAfter => exact False.elim
  | _ => exact absurd rfl hr

/-- What the rules for expressions read comes from the text. -/
theorem gives_of_reads {r : Rule α} (hasks : r.Asks O) {ts : List Token.Located} {a : α}
    (hts : ts ⊆ O.tokens) (h : r.Reads Γ ts a) (hr : r.layer = 0) : r.Gives O a := by
  cases r with
  | expression => exact Expr.From.placed h hts
  | call name line =>
    obtain ⟨t₀, ht₀, htoken, rfl⟩ := hasks
    obtain ⟨t, more, args, rfl, hargs, hcall⟩ := h
    exact (Expr.From.call htoken hargs hcall).placed (List.cons_subset.2 ⟨ht₀, hts⟩)
  | place name line =>
    obtain ⟨-, rfl, -⟩ := h
    exact hasks
  | chain | chainRest | relational | comparison | unary | primary | arguments | segments => trivial
  | _ => simp [layer] at hr

end Rule

/-- **Nodes and errors stand at lines of the text.** -/
theorem origins_kept (c : Activation) : (origins O).contract.Kept c := by
  refine (origins O).kept (fun r hr hasks => ⟨?_, ?_⟩) (fun r hr hasks => r.draws hr hasks) c
  · cases r with
    | call | place => exact hasks
    | _ => trivial
  · intro s ts a s' hs hts hreads
    exact ⟨hts.drawn hs,
      Rule.gives_of_reads hasks (fun t ht => hs.tokens.subset (hts.subset ht)) hreads hr⟩

end Parse

/-! ### Texts -/

theorem Stmt.Placed.sourced (h : s.Placed O) : s.Sourced O.tokens :=
  fun e he x hx => (h.expressions e he x hx).2

theorem parseProgram_eq_ok {globals : Globals} {root : Block}
    (h : parseProgram source globals = .ok root) :
    ∃ slots, globalSlots globals = .ok slots ∧
      Parse.onText Parse.Rule.wholeProgram.parse source slots = .ok root := by
  obtain ⟨slots, hslots, h⟩ := except_bind_eq_ok.1 h
  obtain ⟨root₁, htext, h⟩ := except_bind_eq_ok.1 h
  obtain ⟨-, -, h⟩ := except_bind_eq_ok.1 h
  obtain rfl : root₁ = root := Except.ok.inj h
  exact ⟨slots, hslots, htext⟩

theorem parseExpression_eq_ok {e : Expr} (h : parseExpression source = .ok e) :
    Parse.onText Parse.Rule.wholeExpression.parse source [] = .ok e := by
  obtain ⟨e₁, htext, h⟩ := except_bind_eq_ok.1 h
  obtain ⟨-, -, h⟩ := except_bind_eq_ok.1 h
  obtain rfl : e₁ = e := Except.ok.inj h
  exact htext

theorem parseProgram_sourced {globals : Globals} {root : Block}
    (h : parseProgram source globals = .ok root) :
    root.Each (Stmt.Sourced (TokenRun.ofText source).tokens) := by
  obtain ⟨slots, -, htext⟩ := parseProgram_eq_ok h
  have hplaced := (Parse.Spec.onText (r := .wholeProgram) Parse.origins_kept trivial
    (ParseState.drawn_unlined List.suffix_rfl)).1 _ htext
  exact fun s hs => (hplaced s hs).sourced

theorem parseExpression_sourced {e : Expr} (h : parseExpression source = .ok e) :
    e.Each (Expr.Sourced (TokenRun.ofText source).tokens) := by
  obtain ⟨ts, hts, hfrom, -⟩ := parseExpression_reads h
  exact fun x hx => (hfrom.placed (O := .unlined _) hts x hx).2

theorem parseBindings_sourced {trees : Bindings Expr} (h : parseBindings source = .ok trees) :
    ∀ e ∈ trees.codes, e.Each (Expr.Sourced (TokenRun.ofText source).tokens) := by
  intro e he x hx
  obtain ⟨ts, hts, hfrom⟩ := ((parseBindings_parsed h).codes e he).reads
  exact (hfrom.placed hts.subset x hx).2

end BindScript
