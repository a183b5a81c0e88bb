/-
**The front end comes to an end.**

The loops of the parser are given a number of rounds, and the nesting of expressions and statements
a number of levels; if these ran out, the parser would fail.  They never do.  A parser that is given
more rounds than there are tokens does what its rule says, with parsers for the rules that it calls,
and these are right by induction on the measure of the rule.  So the parser satisfies the equations
of the rules, in which nothing is bounded, and to run them it takes a depth of calls that is linear
in the number of tokens.

The same goes for the scanner: a token takes a character, so that there are no more steps than
characters.

Main results:

* `Parse.Rule.parse_eq` — **the parser solves the equations of the rules**;
* `front_end_terminates` — **the front end ends on every text**, and no chain of calls comes back to
  a rule without a token having been taken.
-/

import BindScript.Proofs.Parser.Depth
import BindScript.Proofs.Token.Progress

namespace BindScript

variable {s : ParseState} {source : String}

namespace Parse

variable {α β : Type}

/-! ### Parsers of rules -/

/-- The parser of the operands of a chain, given that of nested expressions. -/
def Chain.operandWith (expr : Parse Expr) : Chain → Parse Expr
  | .logical => relational expr
  | .sum => factor expr
  | .product => unary expr

namespace Rule

/-- The parser of a rule, given those of nested expressions and of statements in blocks, and the
rounds of its loop, if it has one. -/
def parseWith (expr : Parse Expr) (stmt : Parse (Option Stmt)) (rounds : Nat) :
    {α : Type} → Rule α → Parse α
  | _, .expression => logical expr
  | _, .chain c => leftAssoc c.op? (c.operandWith expr)
  | _, .chainRest c left => leftAssocRest c.op? (c.operandWith expr) rounds left
  | _, .relational => Parse.relational expr
  | _, .comparison => Parse.comparison expr
  | _, .unary => unaryRounds expr rounds
  | _, .primary => Parse.primary expr
  | _, .call name line => Parse.call expr name line
  | _, .arguments => Parse.arguments expr rounds
  | _, .place name line => Parse.place name line
  | _, .segments => Parse.segments rounds
  | _, .wholeExpression => do
      let e ← Parse.expression
      expectEnd
      return e
  | _, .wholeProgram => do
      let statements ← bounded Parse.statementsToEnd
      closeBlock statements
  | _, .statementsToEnd => Parse.statementsToEnd rounds
  | _, .statement => statementWith stmt
  | _, .block => Parse.block stmt
  | _, .statementsToBrace => Parse.statementsToBrace stmt rounds
  | _, .branch => branchRounds stmt rounds
  | _, .loop => Parse.loop stmt
  | _, .record => recordDeclaration
  | _, .recordFields name fields => Parse.recordFields name rounds fields
  | _, .declaration ty line => Parse.declaration ty line
  | _, .initializer ty name line => Parse.initializer ty name line
  | _, .assignment => Parse.assignment
  | _, .named name line => namedStatement name line
  | _, .clauses => Parse.clauses
  | _, .clausesAfter done => Parse.clausesAfter rounds done
  | _, .bindingBody kind => Parse.bindingBody kind
  | _, .entries => Parse.entries
  | _, .entriesAfter done => Parse.entriesAfter rounds done

/-- The parser of a rule that is called: nested expressions and statements are read by the parsers
given for them. -/
def calleeWith (expr : Parse Expr) (stmt : Parse (Option Stmt)) (rounds : Nat) :
    {α : Type} → Rule α → Parse α
  | _, .expression => expr
  | _, .statement => stmt
  | _, r => r.parseWith expr stmt rounds

/-- The parsers of the rules that a rule calls. One at its own level goes on with its loop; others
begin their own. -/
def callees (r : Rule α) (expr : Parse Expr) (stmt : Parse (Option Stmt)) (rounds : Nat) :
    Reading :=
  fun _ r' s => r'.calleeWith expr stmt (if r'.level = r.level then rounds
    else s.tokens.length + 1) s

/-! ### One round -/

variable (expr : Parse Expr) (stmt : Parse (Option Stmt)) (rounds : Nat)

/-- A parser with one more round does what its rule says. -/
def Unfolds (r : Rule α) : Prop :=
  r.parseWith expr stmt (rounds + 1) = r.body.eval (r.callees expr stmt rounds)

theorem unfolds_chain (c : Chain) : Unfolds expr stmt rounds (.chain c) := by
  cases c <;> exact bind_congr fun left => (bind_pure _).symm

theorem unfolds_chainRest (c : Chain) (left : Expr) :
    Unfolds expr stmt rounds (.chainRest c left) := by
  refine bind_congr fun t => ?_
  dsimp only
  cases c.op? t.token with
  | none => rfl
  | some op =>
    refine bind_congr fun t' => ?_
    cases c <;> exact bind_congr fun right => (bind_pure _).symm

theorem unfolds_relational : Unfolds expr stmt rounds .relational := by
  refine bind_congr fun condition => bind_congr fun t => ?_
  dsimp only
  split <;> rfl

theorem unfolds_comparison : Unfolds expr stmt rounds .comparison := by
  refine bind_congr fun left => bind_congr fun t => ?_
  dsimp only
  cases comparisonOp? t.token <;> rfl

theorem unfolds_unary : Unfolds expr stmt rounds .unary := by
  refine bind_congr fun t => ?_
  dsimp only
  cases t.token with
  | mark m =>
    cases m with
    | minus | bang => rfl
    | _ => exact (bind_pure _).symm
  | _ => exact (bind_pure _).symm

theorem unfolds_primary : Unfolds expr stmt rounds .primary := by
  refine bind_congr fun t => ?_
  dsimp only
  cases t.token with
  | mark m => cases m <;> rfl
  | ident name =>
    refine bind_congr fun t' => ?_
    dsimp only
    split
    · exact (bind_pure _).symm
    · rfl
  | _ => rfl

theorem unfolds_call (name : String) (line : Nat) : Unfolds expr stmt rounds (.call name line) := by
  refine bind_congr fun t => bind_congr fun closed => ?_
  cases closed with
  | true =>
    simp only [if_true, pure_bind]
    cases Expr.mkCall line name [] <;> rfl
  | false =>
    refine bind_congr fun args => ?_
    dsimp only
    cases Expr.mkCall line name args <;> rfl

theorem unfolds_arguments : Unfolds expr stmt rounds .arguments := by
  refine bind_congr fun arg => bind_congr fun more => ?_
  cases more <;> rfl

theorem unfolds_place (name : String) (line : Nat) :
    Unfolds expr stmt rounds (.place name line) := by
  refine bind_congr fun Γ => ?_
  dsimp only
  cases Γ.slot? name with
  | none => rfl
  | some slot =>
    refine bind_congr fun t => ?_
    dsimp only
    split
    · rfl
    · cases slot.ty with
      | record type =>
        refine bind_congr fun names => bind_congr fun Δ => ?_
        dsimp only
        cases (Δ.type? type).bind (List.lookup (".".intercalate names)) <;> rfl
      | _ => rfl

theorem unfolds_segments : Unfolds expr stmt rounds .segments := by
  refine bind_congr fun more => ?_
  cases more <;> rfl

theorem unfolds_statement : Unfolds Parse.expression stmt rounds .statement := by
  refine bind_congr fun t => ?_
  dsimp only
  cases t.token with
  | keyword k => cases k <;> rfl
  | mark m => cases m <;> rfl
  | _ => rfl

theorem unfolds_statementsToBrace : Unfolds Parse.expression stmt rounds .statementsToBrace := by
  refine bind_congr fun t => ?_
  dsimp only
  cases t.token with
  | mark m => cases m <;> rfl
  | _ => rfl

theorem unfolds_branch : Unfolds Parse.expression stmt rounds .branch := by
  refine bind_congr fun t => bind_congr fun condition =>
    bind_congr fun yes => bind_congr fun more => ?_
  cases more with
  | false => rfl
  | true =>
    refine bind_congr fun next => ?_
    dsimp only
    split <;> rfl

theorem unfolds_record : Unfolds Parse.expression stmt rounds .record := by
  refine bind_congr fun t => bind_congr fun ⟨name, nameLine⟩ => bind_congr fun _ =>
    bind_congr fun fields => ?_
  dsimp only
  split
  · rfl
  · exact bind_congr fun _ => (bind_pure _).symm

theorem unfolds_recordFields (name : String) (fields : Fields) :
    Unfolds Parse.expression stmt rounds (.recordFields name fields) := by
  refine bind_congr fun closed => ?_
  cases closed with
  | true => rfl
  | false =>
    refine bind_congr fun type => bind_congr fun ⟨field, _⟩ => bind_congr fun leaves => ?_
    dsimp only
    cases addLeaves name type.line fields leaves with
    | error e => rfl
    | ok fields' => exact bind_congr fun _ => (bind_pure _).symm

theorem unfolds_initializer (ty : Ty) (name : String) (line : Nat) :
    Unfolds Parse.expression stmt rounds (.initializer ty name line) := by
  refine bind_congr fun more => ?_
  cases more with
  | false => rfl
  | true => cases ty <;> rfl

theorem unfolds_named (name : String) (line : Nat) :
    Unfolds Parse.expression stmt rounds (.named name line) := by
  refine bind_congr fun t => ?_
  dsimp only
  cases t.token with
  | mark m =>
    cases m with
    | openParen => rfl
    | _ => exact (bind_pure _).symm
  | ident _ =>
    refine bind_congr fun Γ => ?_
    dsimp only
    cases Γ.type? name with
    | some fields => exact bind_congr fun _ => (bind_pure _).symm
    | none =>
      refine bind_congr fun t' => ?_
      dsimp only
      cases t'.token with
      | mark m => cases m <;> rfl
      | _ => rfl
  | _ => exact (bind_pure _).symm

theorem unfolds_statementsToEnd :
    Unfolds Parse.expression Parse.statement rounds .statementsToEnd := by
  refine bind_congr fun t => ?_
  dsimp only
  split <;> rfl

theorem unfolds_clauses : Unfolds Parse.expression Parse.statement rounds .clauses := by
  refine bind_congr fun t => ?_
  dsimp only
  split <;> rfl

theorem eval_checked (reading : Reading) (hreading : reading _ .expression = Parse.expression)
    (next : Expr → Act α) :
    (Act.checked next).eval reading = checkedExpression >>= fun e => (next e).eval reading := by
  change (reading _ .expression >>= _) = _
  rw [hreading, checkedExpression, bind_assoc]
  refine bind_congr fun e => ?_
  dsimp only
  cases e.check <;> rfl

theorem unfolds_clausesAfter (done : Bindings Expr) :
    Unfolds Parse.expression Parse.statement rounds (.clausesAfter done) := by
  refine bind_congr fun ⟨name, line⟩ => ?_
  dsimp only
  cases Binding.Kind.ofName? name with
  | none => rfl
  | some kind =>
    dsimp only
    split
    · rfl
    · refine bind_congr fun _ => bind_congr fun _ => bind_congr fun b => bind_congr fun _ =>
        bind_congr fun more => ?_
      cases more with
      | true => exact (bind_pure _).symm
      | false => rfl

theorem unfolds_bindingBody (kind : Binding.Kind) :
    Unfolds Parse.expression Parse.statement rounds (.bindingBody kind) := by
  unfold Unfolds
  rw [parseWith, Parse.bindingBody, body]
  split
  · rfl
  · rw [eval_checked _ rfl]
    rfl

theorem unfolds_entries : Unfolds Parse.expression Parse.statement rounds .entries := by
  refine bind_congr fun t => ?_
  dsimp only
  split
  · rfl
  · exact (bind_pure _).symm

theorem unfolds_entriesAfter (done : Table Expr) :
    Unfolds Parse.expression Parse.statement rounds (.entriesAfter done) := by
  refine bind_congr fun t => ?_
  dsimp only
  cases t.token with
  | string name =>
    dsimp only
    split
    · rfl
    · refine bind_congr fun _ => ?_
      rw [eval_checked _ rfl]
      refine bind_congr fun e => bind_congr fun more => ?_
      cases more with
      | true => exact (bind_pure _).symm
      | false => rfl
  | _ => rfl

/-- **A parser with a round to go does what its rule says.** -/
theorem unfolds (r : Rule α) (hexpr : 0 < r.layer → expr = Parse.expression)
    (hstmt : 1 < r.layer → stmt = Parse.statement) : Unfolds expr stmt rounds r := by
  -- in statements the parser of expressions is known, and in texts that of statements too
  rcases Nat.lt_or_ge 0 r.layer with hlayer | hlayer
  · obtain rfl := hexpr hlayer
    rcases Nat.lt_or_ge 1 r.layer with htext | htext
    · obtain rfl := hstmt htext
      cases r with
      | wholeExpression => rfl
      | wholeProgram => exact bind_congr fun _ => (bind_pure _).symm
      | statementsToEnd => exact unfolds_statementsToEnd rounds
      | clauses => exact unfolds_clauses rounds
      | clausesAfter done => exact unfolds_clausesAfter rounds done
      | bindingBody kind => exact unfolds_bindingBody rounds kind
      | entries => exact unfolds_entries rounds
      | entriesAfter done => exact unfolds_entriesAfter rounds done
      | _ => simp [layer] at htext
    · have hone : r.layer = 1 := Nat.le_antisymm htext hlayer
      cases r with
      | statement => exact unfolds_statement stmt rounds
      | block =>
        exact bind_congr fun _ => bind_congr fun _ => bind_congr fun _ => (bind_pure _).symm
      | statementsToBrace => exact unfolds_statementsToBrace stmt rounds
      | branch => exact unfolds_branch stmt rounds
      | record => exact unfolds_record stmt rounds
      | recordFields name fields => exact unfolds_recordFields stmt rounds name fields
      | initializer ty name line => exact unfolds_initializer stmt rounds ty name line
      | named name line => exact unfolds_named stmt rounds name line
      | loop | declaration | assignment => rfl
      | _ => simp [layer] at hone
  · cases r with
    | expression => exact (bind_pure _).symm
    | chain c => exact unfolds_chain expr stmt rounds c
    | chainRest c left => exact unfolds_chainRest expr stmt rounds c left
    | relational => exact unfolds_relational expr stmt rounds
    | comparison => exact unfolds_comparison expr stmt rounds
    | unary => exact unfolds_unary expr stmt rounds
    | primary => exact unfolds_primary expr stmt rounds
    | call name line => exact unfolds_call expr stmt rounds name line
    | arguments => exact unfolds_arguments expr stmt rounds
    | place name line => exact unfolds_place expr stmt rounds name line
    | segments => exact unfolds_segments expr stmt rounds
    | _ => simp [layer] at hlayer

/-! ### Enough rounds -/

/-- **A parser with more rounds than there are tokens does what its rule says**, if those of nested
expressions and statements do so further on. -/
theorem parseWith_eq {rounds : Nat} (r : Rule α) (hexpr : 0 < r.layer → expr = Parse.expression)
    (hstmt : 1 < r.layer → stmt = Parse.statement)
    (hexpr' : ∀ s', Rule.expression.Below s'.tokens.length r s.tokens.length →
      expr s' = Rule.expression.outcome s')
    (hstmt' : 0 < r.layer → ∀ s', Rule.statement.Below s'.tokens.length r s.tokens.length →
      stmt s' = Rule.statement.outcome s') (hrounds : s.tokens.length < rounds) :
    r.parseWith expr stmt rounds s = r.outcome s := by
  -- induction on the measure, which is less for each call
  induction hn : r.measure s.tokens.length using Nat.strongRecOn generalizing α s rounds with
  | ind n ih =>
    subst hn
    obtain ⟨rounds, rfl⟩ : ∃ m, rounds = m + 1 := ⟨rounds - 1, by omega⟩
    rw [unfolds expr stmt rounds r hexpr hstmt]
    refine eval_eq_outcome fun γ r' s' hlayer hbelow => ?_
    have hparse : r'.parseWith expr stmt (if r'.level = r.level then rounds
      else s'.tokens.length + 1) s' =
        r'.outcome s' := by
      refine ih _ hbelow.measure_lt r' (fun h => hexpr (by omega))
        (fun h => hstmt (by omega)) ?_ ?_ ?_ rfl
      · intro s'' h
        exact hexpr' s'' (Below.trans h hbelow)
      · intro hpos s'' h
        exact hstmt' (by omega) s'' (Below.trans h hbelow)
      · -- a rule that goes on with its loop has taken a token
        unfold Below at hbelow
        split <;> omega
    cases r' with
    | expression => exact hexpr' s' hbelow
    | statement => exact hstmt' hlayer s' hbelow
    | _ => exact hparse

theorem nested_eq {levels : Nat} (h : s.tokens.length < levels) :
    nested levels s = Rule.expression.outcome s := by
  induction levels generalizing s with
  | zero => exact absurd h (Nat.not_lt_zero _)
  | succ levels ih =>
    refine parseWith_eq (nested levels) Parse.statement .expression nofun nofun ?_ nofun
      (Nat.lt_succ_self s.tokens.length)
    intro s' hbelow
    exact ih (by unfold Below at hbelow; omega)

theorem expression_eq : Parse.expression = Rule.expression.outcome :=
  funext fun s => nested_eq (Nat.lt_succ_self s.tokens.length)

theorem nestedStatement_eq {levels : Nat} (h : s.tokens.length < levels) :
    nestedStatement levels s = Rule.statement.outcome s := by
  induction levels generalizing s with
  | zero => exact absurd h (Nat.not_lt_zero _)
  | succ levels ih =>
    refine parseWith_eq Parse.expression (nestedStatement levels) .statement (fun _ => rfl) nofun ?_
      ?_ (Nat.lt_succ_self s.tokens.length)
    · intro s' _
      rw [expression_eq]
    · intro _ s' hbelow
      exact ih (by unfold Below at hbelow; omega)

theorem statement_eq : Parse.statement = Rule.statement.outcome :=
  funext fun s => nestedStatement_eq (Nat.lt_succ_self s.tokens.length)

/-- The parser of a rule. Its loop has a round for every token that is left, and one more. -/
def parse (r : Rule α) : Parse α :=
  bounded fun rounds => r.calleeWith Parse.expression Parse.statement rounds

/-- **The parser of a rule does what the rule says.** -/
theorem parse_eq (r : Rule α) : r.parse = r.outcome := by
  funext s
  have hparse : r.parseWith Parse.expression Parse.statement (s.tokens.length + 1) s =
      r.outcome s := by
    refine parseWith_eq _ _ r (fun _ => rfl) (fun _ => rfl) ?_ ?_ (Nat.lt_succ_self _)
    · intro s' _
      rw [expression_eq]
    · intro _ s' _
      rw [statement_eq]
  change r.calleeWith Parse.expression Parse.statement (s.tokens.length + 1) s = r.outcome s
  generalize s.tokens.length + 1 = rounds at hparse ⊢
  cases r with
  | expression => exact congrFun expression_eq s
  | statement => exact congrFun statement_eq s
  | _ => exact hparse

theorem parses_eq : (fun _ r => r.parse : Reading) = fun _ r => r.outcome :=
  funext fun _ => funext fun r => r.parse_eq

end Rule

end Parse

/-! ### Scanning -/

namespace TokenRun

/-- The tokens that a scanner reads, if it does so in this many steps. -/
def within : Nat → Scanner → Option TokenRun
  | 0, _ => none
  | steps + 1, s =>
    match s.next with
    | (.error e, _) => some ⟨[], .error e⟩
    | (.ok t, s') =>
      if t.token = .eof then some ⟨[], .ok t.line⟩ else (within steps s').map (cons t)

/-- A step for every character, and one more for the end of the text, are enough. -/
theorem within_eq {steps fuel : Nat} {s : Scanner} (hsteps : s.rest.length < steps)
    (hfuel : s.rest.length < fuel) :
    within steps s = some (ofScanner fuel s) := by
  induction steps generalizing fuel s with
  | zero => exact absurd hsteps (Nat.not_lt_zero _)
  | succ steps ih =>
    obtain ⟨fuel, rfl⟩ : ∃ m, fuel = m + 1 := ⟨fuel - 1, by omega⟩
    cases hnext : s.next with
    | mk result s' =>
      cases result with
      | error e => simp only [within, ofScanner, hnext]
      | ok t =>
        rcases Scanner.next_progress hnext with ⟨heof, -⟩ | ⟨hne, hlength⟩
        · simp only [within, ofScanner, hnext, if_pos heof]
        · simp only [within, ofScanner, hnext, if_neg hne]
          rw [ih (by omega) (Nat.lt_of_lt_of_le hlength (Nat.le_of_lt_succ hfuel))]
          rfl

end TokenRun

/-- All tokens of a text, if they are read in this many steps. -/
def lex? (steps : Nat) (source : String) : Option (Except CompileError (List Token.Located)) :=
  (TokenRun.within steps (Scanner.start source)).map fun run =>
    run.ending.map fun line => run.tokens ++ [⟨.eof, line⟩]

/-! ### Texts -/

/-- What a rule makes of a text, if its calls are nested at most this deep. -/
def Parse.Rule.onText? {α : Type} (depth : Nat) (r : Parse.Rule α) (source : String)
    (initial : List Slot) :
    Option (Except CompileError α) :=
  (Parse.Rule.within depth α r { ParseState.start source with
    scopes := Scopes.push [] initial }).map fun x =>
    x.map (·.1)

theorem Parse.Rule.onText?_eq {α : Type} {depth : Nat} (r : Parse.Rule α)
    (h : Parse.Rule.levels * ((TokenRun.ofText source).tokens.length + 1) ≤ depth)
    (initial : List Slot) :
    r.onText? depth source initial = some (Parse.onText r.parse source initial) := by
  have hwithin : ∀ s : ParseState, s.tokens = (TokenRun.ofText source).tokens →
      Parse.Rule.within depth α r s = some (r.parse s) := by
    intro s hs
    have hlevel := r.level_lt
    rw [r.parse_eq]
    refine Parse.Rule.within_eq r ?_
    rw [hs]
    unfold Parse.Rule.measure Parse.Rule.levels at *
    omega
  rw [onText?, hwithin _ rfl]
  rfl

/-- The program that a text is, if the calls of the parser are nested at most this deep. -/
def parseProgram? (depth : Nat) (source : String) (globals : Globals) :
    Option (Except CompileError Block) :=
  match globalSlots globals with
  | .error e => some (.error e)
  | .ok slots => (Parse.Rule.wholeProgram.onText? depth source slots).map fun x => do
      let root ← x
      root.check
      return root

/-- The expression that a text is, if the calls of the parser are nested at most this deep. -/
def parseExpression? (depth : Nat) (source : String) : Option (Except CompileError Expr) :=
  (Parse.Rule.wholeExpression.onText? depth source []).map fun x => do
    let e ← x
    e.check
    return e

/-- The bindings of a text, if the calls of the parser are nested at most this deep. -/
def parseBindings? (depth : Nat) (source : String) : Option (Except CompileError (Bindings Expr)) :=
  Parse.Rule.clauses.onText? depth source []

theorem parseProgram?_eq {depth : Nat}
    (h : Parse.Rule.levels * ((TokenRun.ofText source).tokens.length + 1) ≤ depth)
    (globals : Globals) :
    parseProgram? depth source globals = some (parseProgram source globals) := by
  unfold parseProgram? parseProgram
  cases globalSlots globals with
  | error e => rfl
  | ok slots =>
    simp only [Parse.Rule.onText?_eq _ h]
    rfl

/-- A chain of calls on the tokens of a text takes none of its ends, and it takes a token if it
comes back to a level. -/
theorem Parse.Activation.taken_of_transGen {c c' : Parse.Activation}
    (hc : c.state.tokens <:+ (TokenRun.ofText source).tokens)
    (h : Relation.TransGen (Parse.Activation.Calls fun _ r => r.parse) c c') :
    ∃ taken, c.state.tokens = taken ++ c'.state.tokens ∧ (∀ t ∈ taken, t.token ≠ .eof) ∧
      (c.rule.level ≤ c'.rule.level → taken ≠ []) := by
  rw [Parse.Rule.parses_eq] at h
  obtain ⟨⟨taken, htaken⟩, hbelow⟩ := Parse.Activation.below_of_transGen h
  refine ⟨taken, htaken.symm, ?_, ?_⟩
  · intro t ht
    have hmem : t ∈ (TokenRun.ofText source).tokens :=
      hc.subset (htaken ▸ List.mem_append_left _ ht)
    exact (TokenRun.exists_readToken hmem).1
  · rintro hlevel rfl
    rw [List.nil_append] at htaken
    rcases hbelow with hlt | ⟨-, hlower⟩
    · exact absurd hlt (by rw [htaken]; exact Nat.lt_irrefl _)
    · exact absurd hlower (Nat.not_lt.2 hlevel)

/-- **The front end ends on every text**, with a result or an error.  The scanner takes no more
steps than there are characters, and one for the end.  The parser solves the equations of its rules,
in which nothing is bounded, and a depth of calls that is linear in the number of tokens is enough
for them.  A chain of calls that comes back to a rule, or to one of its level, has taken a token,
and not the end of the text. -/
theorem front_end_terminates (source : String) (globals : Globals) :
    (∀ steps, source.toList.length < steps → lex? steps source = some (lex source)) ∧
    (∀ depth, Parse.Rule.levels * ((TokenRun.ofText source).tokens.length + 1) ≤ depth →
      parseProgram? depth source globals = some (parseProgram source globals) ∧
      parseExpression? depth source = some (parseExpression source) ∧
      parseBindings? depth source = some (parseBindings source)) ∧
    (∀ (α : Type) (r : Parse.Rule α), r.parse = r.body.eval fun _ r' => r'.parse) ∧
    ∀ c c' : Parse.Activation, c.state.tokens <:+ (TokenRun.ofText source).tokens →
      Relation.TransGen (Parse.Activation.Calls fun _ r => r.parse) c c' →
      ∃ taken, c.state.tokens = taken ++ c'.state.tokens ∧ (∀ t ∈ taken, t.token ≠ .eof) ∧
        (c.rule.level ≤ c'.rule.level → taken ≠ []) := by
  refine ⟨?_, ?_, ?_, fun c c' => Parse.Activation.taken_of_transGen⟩
  · intro steps hsteps
    rw [lex?, TokenRun.within_eq hsteps (Nat.lt_succ_self _)]
    rfl
  · intro depth hdepth
    refine ⟨parseProgram?_eq hdepth globals, ?_, Parse.Rule.clauses.onText?_eq hdepth []⟩
    rw [parseExpression?, Parse.Rule.onText?_eq _ hdepth]
    rfl
  · intro α r
    rw [Parse.Rule.parses_eq, r.parse_eq]
    exact funext r.outcome_eq

/-- Two blocks are opened and not closed.  The inner one is read by calls of the outer one, after
its brace. -/
theorem front_end_terminates_unclosed :
    lex? 3 "\x7b\x7b" = some (.ok [⟨.mark .openBrace, 1⟩, ⟨.mark .openBrace, 1⟩, ⟨.eof, 1⟩]) ∧
    parseProgram? 27 "\x7b\x7b" [] = some (.error ⟨.unclosedBlock, 1⟩) ∧
    ∃ inner, Relation.TransGen (Parse.Activation.Calls fun _ r => r.parse)
        ⟨.block, ParseState.start "\x7b\x7b"⟩ ⟨.block, inner⟩ ∧
      ∃ taken, (ParseState.start "\x7b\x7b").tokens = taken ++ inner.tokens ∧
        (∀ t ∈ taken, t.token ≠ .eof) ∧ taken ≠ [] := by
  obtain ⟨hlex, hparse, -, hcalls⟩ := front_end_terminates "\x7b\x7b" []
  have htokens : (TokenRun.ofText "\x7b\x7b").tokens =
      [⟨.mark .openBrace, 1⟩, ⟨.mark .openBrace, 1⟩] := rfl
  refine ⟨(hlex 3 (by decide)).trans rfl, ?_, ?_⟩
  · have hdepth : Parse.Rule.levels * ((TokenRun.ofText "\x7b\x7b").tokens.length + 1) ≤ 27 := by
      rw [htokens]
      decide
    exact (hparse 27 hdepth).1.trans rfl
  · -- the block calls for the statements up to its brace, and these begin with the inner block
    have hchain : Relation.TransGen (Parse.Activation.Calls fun _ r => r.parse)
        ⟨.block, ParseState.start "\x7b\x7b"⟩
        ⟨.block, ⟨[⟨.mark .openBrace, 1⟩], .ok 1, Scopes.push [] []⟩⟩ := by
      refine .head ⟨_, _, rfl, _, _, rfl, .inl rfl⟩ ?_
      refine .head ⟨_, _, rfl, .inl rfl⟩ ?_
      exact .single ⟨_, _, rfl, .inl rfl⟩
    obtain ⟨taken, htaken, hne, hlevel⟩ := hcalls _ _ (List.suffix_refl _) hchain
    exact ⟨_, hchain, taken, htaken, hne, hlevel (Nat.le_refl _)⟩

end BindScript
