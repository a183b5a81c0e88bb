/-
**The parser as a system of rules.**

The rules of the parser call each other, and its loops call themselves.  Here each rule is written
down as what it does between its calls: operations that look at tokens or take them, one at a time.
Nothing bounds the calls, so the rules are equations, of which it has to be shown that they have a
solution.

Each rule has a level in the grammar.  A rule calls another one after it has taken a token, or else
at a lower level.  So no chain of calls comes back to a rule, or to another one at its level,
without a token having been taken, and the depth of calls is bounded by the number of tokens times
the number of levels.

Whether this is so can be seen from the numbers of tokens alone: operations say how many they leave,
calls are assumed to leave no more than there were, and for each rule this is then checked by going
through what it does.

Main results:

* `Parse.Rule.goesDown` — **all rules go down**.
-/

import BindScript.Binding.Parser
import BindScript.Tree.Parser.Statement

namespace BindScript.Parse

/-! ### Operations -/

/-- A token that is always spelled alike. It is not the end of the text. -/
inductive Fixed where
  | mark (m : Mark)
  | keyword (k : Keyword)

def Fixed.token : Fixed → Token
  | .mark m => .mark m
  | .keyword k => .keyword k

theorem Fixed.token_ne_eof (wanted : Fixed) : wanted.token ≠ .eof := by
  cases wanted <;> simp [token]

/-- What a rule can do without calling another one. -/
inductive Op : Type → Type
  | lookahead (n : Nat) : Op Token.Located
  | advance : Op Token.Located
  | expect (wanted : Fixed) : Op Token.Located
  | optionalMatch (wanted : Fixed) : Op Bool
  | expectIdent : Op (String × Nat)
  | expectEnd : Op Unit
  | scopes : Op Scopes
  | updateScopes (f : Scopes → Except CompileError Unit × Scopes) : Op Unit
  | openBlock : Op Unit
  | closeBlock (statements : List Stmt) : Op Block
  | fieldLeaves (type : Token) (field : String) (line : Nat) : Op Fields

def Op.run : {β : Type} → Op β → Parse β
  | _, .lookahead n => Parse.lookahead n
  | _, .advance => Parse.advance
  | _, .expect wanted => Parse.expect wanted.token
  | _, .optionalMatch wanted => Parse.optionalMatch wanted.token
  | _, .expectIdent => Parse.expectIdent
  | _, .expectEnd => Parse.expectEnd
  | _, .scopes => Parse.scopes
  | _, .updateScopes f => Parse.updateScopes f
  | _, .openBlock => modify fun s => { s with scopes := s.scopes.push [] }
  | _, .closeBlock statements => Parse.closeBlock statements
  | _, .fieldLeaves type field line => Parse.fieldLeaves type field line

/-- What an operation with a result makes of a number of tokens. Only tokens that are no end of the
text are counted. -/
def Op.Leaves : {β : Type} → Op β → Nat → β → Nat → Prop
  | _, .lookahead n, k, t, k' => k' = k ∧ (t.token ≠ .eof → n < k)
  | _, .advance, k, t, k' => k' = k - 1 ∧ (t.token ≠ .eof → 0 < k)
  | _, .expect _, k, _, k' => k' + 1 = k
  | _, .optionalMatch _, k, matched, k' => k' + matched.toNat = k
  | _, .expectIdent, k, _, k' => k' + 1 = k
  | _, _, k, _, k' => k' = k

/-! ### Rules -/

/-- The chains of operators of one level. -/
inductive Chain where
  | logical
  | sum
  | product
  deriving DecidableEq

/-- The operator of a chain that a token is. -/
def Chain.op? : Chain → Token → Option Operator
  | .logical => logicalOp?
  | .sum => additiveOp?
  | .product => multiplicativeOp?

/-- The rules, by what they read. A rule that is called `…Rest` or `…After` is the rest of a
loop. -/
inductive Rule : Type → Type
  | expression : Rule Expr
  | chain (c : Chain) : Rule Expr
  | chainRest (c : Chain) (left : Expr) : Rule Expr
  | relational : Rule Expr
  | comparison : Rule Expr
  | unary : Rule Expr
  | primary : Rule Expr
  | call (name : String) (line : Nat) : Rule Expr
  | arguments : Rule (List Expr)
  | place (name : String) (line : Nat) : Rule Place
  | segments : Rule (List String)
  | wholeExpression : Rule Expr
  | wholeProgram : Rule Block
  | statementsToEnd : Rule (List Stmt)
  | statement : Rule (Option Stmt)
  | block : Rule Block
  | statementsToBrace : Rule (List Stmt)
  | branch : Rule Stmt
  | loop : Rule Stmt
  | record : Rule Unit
  | recordFields (record : String) (fields : Fields) : Rule Fields
  | declaration (ty : Ty) (line : Nat) : Rule Stmt
  | initializer (ty : Ty) (name : String) (line : Nat) : Rule (Option Expr)
  | assignment : Rule Stmt
  | named (name : String) (line : Nat) : Rule Stmt
  | clauses : Rule (Bindings Expr)
  | clausesAfter (done : Bindings Expr) : Rule (Bindings Expr)
  | bindingBody (kind : Binding.Kind) : Rule (Binding.Body Expr)
  | entries : Rule (Table Expr)
  | entriesAfter (done : Table Expr) : Rule (Table Expr)

def Chain.operand : Chain → Rule Expr
  | .logical => .relational
  | .sum => .chain .product
  | .product => .unary

/-- What a rule does: it ends, or it does an operation or calls a rule and goes on with the
result. -/
inductive Act (α : Type) : Type 1
  | done (a : α)
  | fail (e : CompileError)
  | op {β : Type} (o : Op β) (next : β → Act α)
  | call {β : Type} (r : Rule β) (next : β → Act α)

namespace Act

variable {α : Type}

/-- Ends with a result or an error. -/
def ofExcept : Except CompileError α → Act α
  | .ok a => .done a
  | .error e => .fail e

def peek (next : Token.Located → Act α) : Act α := .op (.lookahead 0) next

/-- Reads an expression that passes the type check. -/
def checked (next : Expr → Act α) : Act α :=
  .call .expression fun e =>
    match e.check with
    | .ok () => next e
    | .error err => .fail err

end Act

namespace Rule

/-- **What the rules do.** -/
def body : {α : Type} → Rule α → Act α
  | _, .expression => .call (.chain .logical) .done
  | _, .chain c => .call c.operand fun left => .call (.chainRest c left) .done
  | _, .chainRest c left => .peek fun t =>
    match c.op? t.token with
    | none => .done left
    | some op => .op .advance fun t => .call c.operand fun right =>
      .call (.chainRest c (Expr.mkBinary t.line op left right)) .done
  | _, .relational => .call .comparison fun condition => .peek fun t =>
    if t.token ≠ .mark .question then .done condition
    else .op .advance fun t => .call .expression fun yes => .op (.expect (.mark .colon)) fun _ =>
      .call .expression fun no => .done (Expr.mkSelect t.line condition yes no)
  | _, .comparison => .call (.chain .sum) fun left => .peek fun t =>
    match comparisonOp? t.token with
    | none => .done left
    | some op => .op .advance fun t => .call (.chain .sum) fun right =>
      .done (Expr.mkBinary t.line op left right)
  | _, .unary => .peek fun t =>
    match t.token with
    | .mark .minus => .op .advance fun t => .call .unary fun e => .done (.negate t.line false e)
    | .mark .bang => .op .advance fun t => .call .unary fun e => .done (.negate t.line true e)
    | _ => .call .primary .done
  | _, .primary => .op .advance fun t =>
    match t.token with
    | .int n => .done (.literal t.line (.int n))
    | .float x => .done (.literal t.line (.float x))
    | .string s => .done (.literal t.line (.string s))
    | .bool b => .done (.literal t.line (.bool b))
    | .null => .done (.literal t.line .null)
    | .hostName name => .done (.host t.line name)
    | .mark .openParen => .call .expression fun inner =>
      .op (.expect (.mark .closeParen)) fun _ => .done inner
    | .ident name => .peek fun t' =>
      if t'.token = .mark .openParen then .call (.call name t.line) .done
      else .call (.place name t.line) fun p => .done (.load p)
    | other => .fail ⟨.inExpression other, t.line⟩
  | _, .call name line => .op (.expect (.mark .openParen)) fun _ =>
    .op (.optionalMatch (.mark .closeParen)) fun closed =>
      if closed then .ofExcept (Expr.mkCall line name [])
      else .call .arguments fun args => .ofExcept (Expr.mkCall line name args)
  | _, .arguments => .call .expression fun arg => .op (.optionalMatch (.mark .comma)) fun more =>
    if more then .call .arguments fun args => .done (arg :: args)
    else .op (.expect (.mark .closeParen)) fun _ => .done [arg]
  | _, .place name line => .op .scopes fun Γ =>
    match Γ.slot? name with
    | none => .fail ⟨.undefinedVariable name, line⟩
    | some slot => .peek fun t =>
      if t.token ≠ .mark .dot then .done ⟨line, name, none, slot.ty⟩
      else
        match slot.ty with
        | .record type => .call .segments fun names => .op .scopes fun Γ =>
          match (Γ.type? type).bind (List.lookup (".".intercalate names)) with
          | some ty => .done ⟨line, name, some (".".intercalate names), ty⟩
          | none => .fail ⟨.noField type (".".intercalate names), line⟩
        | ty => .fail ⟨.notRecord name ty, line⟩
  | _, .segments => .op (.optionalMatch (.mark .dot)) fun more =>
    if more then .op .expectIdent fun (name, _) =>
      .call .segments fun names => .done (name :: names)
    else .done []
  | _, .wholeExpression => .call .expression fun e => .op .expectEnd fun _ => .done e
  | _, .wholeProgram => .call .statementsToEnd fun statements => .op (.closeBlock statements) .done
  | _, .statementsToEnd => .peek fun t =>
    if t.token = .eof then .done []
    else .call .statement fun s => .call .statementsToEnd fun rest => .done (s.toList ++ rest)
  | _, .statement => .peek fun t =>
    match t.token with
    | .keyword .ifThen => .call .branch fun s => .done (some s)
    | .keyword .whileLoop => .call .loop fun s => .done (some s)
    | .keyword .record => .call .record fun _ => .done none
    | .mark .openBrace => .call .block fun b => .done (some (.block t.line b))
    | .keyword .void => .fail ⟨.voidVariable, t.line⟩
    | .keyword k =>
      match k.ty? with
      | some ty => .op .advance fun _ => .call (.declaration ty t.line) fun s => .done (some s)
      | none => .fail ⟨.statementStart t.token, t.line⟩
    | .ident name => .call (.named name t.line) fun s => .done (some s)
    | other => .fail ⟨.statementStart other, t.line⟩
  | _, .block => .op (.expect (.mark .openBrace)) fun _ => .op .openBlock fun _ =>
    .call .statementsToBrace fun statements => .op (.closeBlock statements) .done
  | _, .statementsToBrace => .peek fun t =>
    match t.token with
    | .mark .closeBrace => .op .advance fun _ => .done []
    | .eof => .fail ⟨.unclosedBlock, t.line⟩
    | _ => .call .statement fun s => .call .statementsToBrace fun rest => .done (s.toList ++ rest)
  | _, .branch => .op (.expect (.keyword .ifThen)) fun t => .call .expression fun condition =>
    .call .block fun yes => .op (.optionalMatch (.keyword .orElse)) fun more =>
      if more then .peek fun next =>
        if next.token = .keyword .ifThen then .call .branch fun other =>
          .done (.branch t.line condition yes (some (.mk [] [] [other])))
        else .call .block fun no => .done (.branch t.line condition yes (some no))
      else .done (.branch t.line condition yes none)
  | _, .loop => .op (.expect (.keyword .whileLoop)) fun t => .call .expression fun condition =>
    .call .block fun b => .done (.loop t.line condition b)
  | _, .record => .op (.expect (.keyword .record)) fun t => .op .expectIdent fun (name, nameLine) =>
    .op (.expect (.mark .openBrace)) fun _ => .call (.recordFields name []) fun fields =>
      if fields.isEmpty then .fail ⟨.emptyRecord name, t.line⟩
      else .op (.optionalMatch (.mark .semicolon)) fun _ =>
        .op (.updateScopes fun s => s.addType name fields nameLine) .done
  | _, .recordFields name fields => .op (.optionalMatch (.mark .closeBrace)) fun closed =>
    if closed then .done fields
    else .op .advance fun type => .op .expectIdent fun (field, _) =>
      .op (.fieldLeaves type.token field type.line) fun leaves =>
        match addLeaves name type.line fields leaves with
        | .error e => .fail e
        | .ok fields =>
          .op (.expect (.mark .semicolon)) fun _ => .call (.recordFields name fields) .done
  | _, .declaration ty line => .op .expectIdent fun (name, nameLine) =>
    .call (.initializer ty name nameLine) fun init => .op (.expect (.mark .semicolon)) fun _ =>
      .op (.updateScopes fun s => s.addVariable ty name nameLine) fun _ =>
        .done (.declare line name ty init)
  | _, .initializer ty name line => .op (.optionalMatch (.mark .eq)) fun more =>
    if more then
      match ty with
      | .record _ => .fail ⟨.recordInitializer name, line⟩
      | ty => .call .expression fun e => .done (some (e.coerce ty))
    else .done none
  | _, .assignment => .op .expectIdent fun (name, line) => .call (.place name line) fun target =>
    .op (.expect (.mark .eq)) fun _ => .call .expression fun value =>
      .op (.expect (.mark .semicolon)) fun _ => .done (.assign line target (value.coerce target.ty))
  | _, .named name line => .op (.lookahead 1) fun t =>
    match t.token with
    | .mark .openParen => .op .advance fun _ => .call (.call name line) fun call =>
      .op (.expect (.mark .semicolon)) fun _ => .done (.perform call)
    | .ident _ => .op .scopes fun Γ =>
      match Γ.type? name with
      | some _ => .op .advance fun _ => .call (.declaration (.record name) line) .done
      | none => .op (.lookahead 2) fun t =>
        match t.token with
        | .mark .semicolon | .mark .eq => .fail ⟨.unknownType name, line⟩
        | _ => .fail ⟨.identAfter name, line⟩
    | _ => .call .assignment .done
  | _, .clauses => .peek fun t =>
    if t.token = .eof then .done []
    else .call (.clausesAfter []) fun bindings => .op .expectEnd fun _ => .done bindings
  | _, .clausesAfter done => .op .expectIdent fun (name, line) =>
    match Binding.Kind.ofName? name with
    | none => .fail ⟨.unknownBinding name, line⟩
    | some kind =>
      if (done.find? kind).isSome then .fail ⟨.repeatedBinding name, line⟩
      else .op (.expect (.mark .colon)) fun _ => .op (.expect (.mark .openBrace)) fun _ =>
        .call (.bindingBody kind) fun b => .op (.expect (.mark .closeBrace)) fun _ =>
          .op (.optionalMatch (.mark .comma)) fun more =>
            if more then .call (.clausesAfter (done ++ [(kind, b)])) .done
            else .done (done ++ [(kind, b)])
  | _, .bindingBody kind =>
    if kind.hasEntries then .call .entries fun es => .done (.entries es)
    else .checked fun e => .done (.expr e)
  | _, .entries => .peek fun t =>
    if t.token = .mark .closeBrace then .done [] else .call (.entriesAfter []) .done
  | _, .entriesAfter done => .op .advance fun t =>
    match t.token with
    | .string name =>
      if (done.lookup name).isSome then .fail ⟨.repeatedEntry name, t.line⟩
      else .op (.expect (.mark .colon)) fun _ => .checked fun e =>
        .op (.optionalMatch (.mark .comma)) fun more =>
          if more then .call (.entriesAfter (done ++ [(name, e)])) .done
          else .done (done ++ [(name, e)])
    | other => .fail ⟨.quotedNameExpected other, t.line⟩

end Rule

/-! ### Levels -/

namespace Rule

variable {α β : Type}

/-- The level of a rule. Without taking a token, a rule calls rules of lower levels only. -/
def level : {α : Type} → Rule α → Nat
  | _, .chain .product => 2
  | _, .chain .sum => 3
  | _, .comparison => 4
  | _, .relational => 5
  | _, .chain .logical => 6
  | _, .expression => 7
  | _, .unary | _, .place _ _ | _, .record | _, .named _ _ | _, .entries | _, .clauses => 1
  | _, .statement => 2
  | _, .statementsToBrace | _, .statementsToEnd => 3
  | _, .wholeProgram => 4
  | _, .arguments | _, .bindingBody _ | _, .wholeExpression => 8
  | _, _ => 0

/-- The number of levels. -/
def levels : Nat := 9

theorem level_lt (r : Rule α) : r.level < levels := by
  cases r with
  | chain c => cases c <;> decide
  | _ => exact Nat.lt_of_sub_eq_succ rfl

/-- The calls of a rule at a number of tokens are not nested deeper than this. -/
def measure (r : Rule α) (tokens : Nat) : Nat := levels * tokens + r.level

/-- The layer of a rule: expressions, statements, or texts. No rule calls one of a higher layer. -/
def layer : {α : Type} → Rule α → Nat
  | _, .expression | _, .chain _ | _, .chainRest _ _ | _, .relational | _, .comparison | _, .unary
  | _, .primary | _, .call _ _ | _, .arguments | _, .place _ _ | _, .segments => 0
  | _, .wholeExpression | _, .wholeProgram | _, .statementsToEnd | _, .clauses | _, .clausesAfter _
  | _, .bindingBody _ | _, .entries | _, .entriesAfter _ => 2
  | _, _ => 1

/-- Whether the rule takes a token unless it fails. -/
def takes : {α : Type} → Rule α → Bool
  | _, .chainRest _ _ | _, .place _ _ | _, .segments | _, .wholeProgram | _, .statementsToEnd
  | _, .initializer _ _ _ | _, .clauses | _, .bindingBody _ | _, .entries => false
  | _, _ => true

/-- A rule with a number of tokens is below another one with its own: tokens have been taken, or the
level is lower. -/
def Below (r' : Rule β) (k' : Nat) (r : Rule α) (k : Nat) : Prop :=
  k' < k ∨ k' = k ∧ r'.level < r.level

/-- A rule that has come to an end leaves no more tokens than there were. -/
def Keeps (r : Rule α) (k k' : Nat) : Prop := k' ≤ k ∧ (r.takes = true → k' < k)

theorem Below.trans {γ : Type} {r'' : Rule γ} {r' : Rule β} {r : Rule α} {k'' k' k : Nat}
    (h' : Below r'' k'' r' k') (h : Below r' k' r k) : Below r'' k'' r k := by
  unfold Below at *
  omega

theorem Below.measure_lt {r' : Rule β} {r : Rule α} {k' k : Nat} (h : Below r' k' r k) :
    r'.measure k' < r.measure k := by
  have hlevel := r'.level_lt
  unfold measure levels at *
  rcases h with h | ⟨rfl, h⟩ <;> omega

end Rule

/-- What is done from a number of tokens on, in the body of a rule that began with another one: all
calls are below the rule, and at the end it has kept to what it says about tokens. Calls are taken
to do so. -/
def Act.Fits {α₀ : Type} (r : Rule α₀) (k₀ : Nat) {α : Type} : Act α → Nat → Prop
  | .done _, k => r.Keeps k₀ k
  | .fail _, _ => True
  | .op o next, k => ∀ b k', o.Leaves k b k' → (next b).Fits r k₀ k'
  | .call r' next, k => r'.layer ≤ r.layer ∧ r'.Below k r k₀ ∧
      ∀ b k', r'.Keeps k k' → (next b).Fits r k₀ k'

/-- **A rule goes down**: from any number of tokens on, its calls are below it. -/
def Rule.GoesDown {α : Type} (r : Rule α) : Prop := ∀ k, r.body.Fits r k k

namespace Act.Fits

variable {α α₀ β : Type} {r : Rule α₀} {k₀ k : Nat}

theorem done_lt {a : α} (h : k < k₀) : (Act.done a).Fits r k₀ k := ⟨Nat.le_of_lt h, fun _ => h⟩

theorem done_le {a : α} (hr : r.takes = false) (h : k ≤ k₀) : (Act.done a).Fits r k₀ k :=
  ⟨h, fun htakes => absurd (hr.symm.trans htakes) (by decide)⟩

theorem fail {e : CompileError} : (Act.fail e : Act α).Fits r k₀ k := trivial

theorem ofExcept_lt {x : Except CompileError α} (h : k < k₀) : (Act.ofExcept x).Fits r k₀ k := by
  cases x with
  | ok a => exact done_lt h
  | error e => exact fail

theorem lookahead {n : Nat} {next : Token.Located → Act α}
    (h : ∀ t, (t.token ≠ .eof → n < k) → (next t).Fits r k₀ k) :
    (Act.op (.lookahead n) next).Fits r k₀ k := by
  rintro t k' ⟨rfl, hne⟩
  exact h t hne

theorem peek {next : Token.Located → Act α}
    (h : ∀ t, (t.token ≠ .eof → 0 < k) → (next t).Fits r k₀ k) : (Act.peek next).Fits r k₀ k :=
  lookahead h

theorem advance {next : Token.Located → Act α}
    (h : ∀ t, (t.token ≠ .eof → 0 < k) → (next t).Fits r k₀ (k - 1)) :
    (Act.op .advance next).Fits r k₀ k := by
  rintro t k' ⟨rfl, hne⟩
  exact h t hne

theorem expect {wanted : Fixed} {next : Token.Located → Act α}
    (h : ∀ t, 0 < k → (next t).Fits r k₀ (k - 1)) : (Act.op (.expect wanted) next).Fits r k₀ k := by
  intro t k' hleaves
  obtain rfl : k' + 1 = k := hleaves
  exact h t (Nat.succ_pos k')

theorem optionalMatch {wanted : Fixed} {next : Bool → Act α}
    (htrue : 0 < k → (next true).Fits r k₀ (k - 1)) (hfalse : (next false).Fits r k₀ k) :
    (Act.op (.optionalMatch wanted) next).Fits r k₀ k := by
  intro matched k' hleaves
  obtain rfl : k' + matched.toNat = k := hleaves
  cases matched with
  | true => exact htrue (Nat.succ_pos k')
  | false => exact hfalse

theorem expectIdent {next : String × Nat → Act α} (h : ∀ x, 0 < k → (next x).Fits r k₀ (k - 1)) :
    (Act.op .expectIdent next).Fits r k₀ k := by
  intro x k' hleaves
  obtain rfl : k' + 1 = k := hleaves
  exact h x (Nat.succ_pos k')

theorem keep {o : Op β} {next : β → Act α} (ho : ∀ b k', o.Leaves k b k' → k' = k)
    (h : ∀ b, (next b).Fits r k₀ k) : (Act.op o next).Fits r k₀ k := by
  intro b k' hleaves
  obtain rfl := ho b k' hleaves
  exact h b

theorem later {r' : Rule β} {next : β → Act α} (hlayer : r'.layer.ble r.layer = true) (hlt : k < k₀)
    (h : ∀ b k', k' ≤ k → (next b).Fits r k₀ k') : (Act.call r' next).Fits r k₀ k :=
  ⟨Nat.le_of_ble_eq_true hlayer, .inl hlt, fun b k' hkeeps => h b k' hkeeps.1⟩

theorem lower {r' : Rule β} {next : β → Act α} (hlayer : r'.layer.ble r.layer = true)
    (hlevel : r'.level < r.level) (h : ∀ b k', r'.Keeps k₀ k' → (next b).Fits r k₀ k') :
    (Act.call r' next).Fits r k₀ k₀ :=
  ⟨Nat.le_of_ble_eq_true hlayer, .inr ⟨rfl, hlevel⟩, h⟩

theorem lower_takes {r' : Rule β} {next : β → Act α} (hlayer : r'.layer.ble r.layer = true)
    (hlevel : r'.level < r.level) (htakes : r'.takes = true)
    (h : ∀ b k', k' < k₀ → (next b).Fits r k₀ k') :
    (Act.call r' next).Fits r k₀ k₀ :=
  lower hlayer hlevel fun b k' hkeeps => h b k' (hkeeps.2 htakes)

/-- Reading an expression and checking it: the check takes no token. -/
theorem checked {next : Expr → Act α} (hlayer : Rule.expression.layer.ble r.layer = true)
    (hbelow : Rule.expression.Below k r k₀) (h : ∀ e k', k' < k → (next e).Fits r k₀ k') :
    (Act.checked next).Fits r k₀ k := by
  refine ⟨Nat.le_of_ble_eq_true hlayer, hbelow, ?_⟩
  intro e k' hkeeps
  dsimp only
  split
  · exact h e k' (hkeeps.2 rfl)
  · exact fail

end Act.Fits

namespace Rule

/-! ### Expressions go down -/

theorem mark_of_op? {c : Chain} {t : Token} {op : Operator} (h : c.op? t = some op) :
    (c, t) ∈ [(.logical, .mark .and), (.logical, .mark .or), (.sum, .mark .plus),
      (.sum, .mark .minus), (.product, .mark .star), (Chain.product, Token.mark .slash)] := by
  cases c with
  | logical =>
    simp only [Chain.op?, logicalOp?] at h
    split at h <;> simp_all
  | sum =>
    simp only [Chain.op?, additiveOp?] at h
    split at h <;> simp_all
  | product =>
    simp only [Chain.op?, multiplicativeOp?] at h
    split at h <;> simp_all

theorem ne_eof_of_op? {c : Chain} {t : Token} {op : Operator} (h : c.op? t = some op) :
    t ≠ .eof := by
  rintro rfl
  simpa using mark_of_op? h

theorem chain_fits (c : Chain) : GoesDown (.chain c) := by
  intro k
  have hoperand : c.operand.layer = 0 ∧ c.operand.level < (chain c).level ∧
      c.operand.takes = true := by
    cases c <;> decide
  obtain ⟨hlayer, hlevel, htakes⟩ := hoperand
  refine .lower_takes (by rw [hlayer]; rfl) hlevel htakes fun left k₁ h₁ => ?_
  exact .later rfl h₁ fun e k₂ h₂ => .done_lt (by omega)

theorem chainRest_fits (c : Chain) (left : Expr) : GoesDown (.chainRest c left) := by
  intro k
  refine .peek fun t ht => ?_
  cases hop : c.op? t.token with
  | none => exact .done_le rfl (Nat.le_refl k)
  | some op =>
    have hpos := ht (ne_eof_of_op? hop)
    refine .advance fun t' _ => .later ?_ (by omega) fun right k₁ h₁ => ?_
    · cases c <;> rfl
    · exact .later rfl (by omega) fun e k₂ h₂ => .done_le rfl (by omega)

theorem relational_fits : GoesDown .relational := by
  intro k
  refine .lower_takes rfl (by decide) rfl fun condition k₁ h₁ => .peek fun t ht => ?_
  split
  · exact .done_lt h₁
  · refine .advance fun t' _ => .later rfl (by omega) fun yes k₂ h₂ => ?_
    refine .expect fun _ hpos => .later rfl (by omega) fun no k₃ h₃ => ?_
    exact .done_lt (by omega)

theorem comparison_fits : GoesDown .comparison := by
  intro k
  refine .lower_takes rfl (by decide) rfl fun left k₁ h₁ => .peek fun t ht => ?_
  split
  · exact .done_lt h₁
  · refine .advance fun t' _ => .later rfl (by omega) fun right k₂ h₂ => ?_
    exact .done_lt (by omega)

theorem unary_fits : GoesDown .unary := by
  intro k
  refine .peek fun t ht => ?_
  have hnegate : ∀ logical : Bool, t.token ≠ .eof →
      (Act.op .advance fun t => .call .unary fun e => .done (.negate t.line logical e)).Fits
        (α := Expr) .unary k k := by
    intro logical hne
    have hpos := ht hne
    refine .advance fun t' _ => .later rfl (by omega) fun e k₁ h₁ => ?_
    exact .done_lt (by omega)
  split
  · rename_i htoken
    exact hnegate false (by simp [htoken])
  · rename_i htoken
    exact hnegate true (by simp [htoken])
  · exact .lower_takes rfl (by decide) rfl fun e k₁ h₁ => .done_lt h₁

theorem primary_fits : GoesDown .primary := by
  intro k
  refine .advance fun t ht => ?_
  -- whatever the token is, it is not the end of the text, or this fails
  have hpos : t.token ≠ .eof → k - 1 < k := fun hne => by
    have := ht hne
    omega
  cases htoken : t.token with
  | int n | float x | string s | bool b | null | hostName name =>
    exact .done_lt (hpos (by simp [htoken]))
  | ident name =>
    have hlt := hpos (by simp [htoken])
    refine .peek fun t' _ => ?_
    split
    · exact .later rfl hlt fun e k₁ h₁ => .done_lt (by omega)
    · exact .later rfl hlt fun p k₁ h₁ => .done_lt (by omega)
  | mark m =>
    have hlt := hpos (by simp [htoken])
    cases m with
    | openParen =>
      refine .later rfl hlt fun e k₁ h₁ => .expect fun _ _ => ?_
      exact .done_lt (by omega)
    | _ => exact .fail
  | _ => exact .fail

theorem call_fits (name : String) (line : Nat) : GoesDown (.call name line) := by
  intro k
  refine .expect fun _ hpos => .optionalMatch ?_ ?_
  · intro _
    exact .ofExcept_lt (by omega)
  · exact .later rfl (by omega) fun args k₁ h₁ => .ofExcept_lt (by omega)

theorem arguments_fits : GoesDown .arguments := by
  intro k
  refine .lower_takes rfl (by decide) rfl fun arg k₁ h₁ => .optionalMatch ?_ ?_
  · intro hpos
    exact .later rfl (by omega) fun args k₂ h₂ => .done_lt (by omega)
  · exact .expect fun _ _ => .done_lt (by omega)

theorem place_fits (name : String) (line : Nat) : GoesDown (.place name line) := by
  intro k
  refine .keep (fun _ _ h => h) fun Γ => ?_
  cases Γ.slot? name with
  | none => exact .fail
  | some slot =>
    refine .peek fun t _ => ?_
    split
    · exact .done_le rfl (Nat.le_refl k)
    · split
      · refine .lower rfl (by simp [level]) fun names k₁ h₁ => .keep (fun _ _ h => h) fun Γ => ?_
        split
        · exact .done_le rfl h₁.1
        · exact .fail
      · exact .fail

theorem segments_fits : GoesDown .segments := by
  intro k
  refine .optionalMatch ?_ ?_
  · intro hpos
    refine .expectIdent fun _ _ => .later rfl (by omega) fun names k₁ h₁ => ?_
    exact .done_le rfl (by omega)
  · exact .done_le rfl (Nat.le_refl k)

theorem wholeExpression_fits : GoesDown .wholeExpression := by
  intro k
  refine .lower_takes rfl (by decide) rfl fun e k₁ h₁ => .keep (fun _ _ h => h) fun _ => ?_
  exact .done_lt h₁

/-! ### Statements go down -/

theorem statementsToEnd_fits : GoesDown .statementsToEnd := by
  intro k
  refine .peek fun t _ => ?_
  split
  · exact .done_le rfl (Nat.le_refl k)
  · refine .lower_takes rfl (by decide) rfl fun s k₁ h₁ => ?_
    exact .later rfl h₁ fun rest k₂ h₂ => .done_le rfl (by omega)

theorem wholeProgram_fits : GoesDown .wholeProgram := by
  intro k
  refine .lower rfl (by decide) fun statements k₁ h₁ => .keep (fun _ _ h => h) fun b => ?_
  exact .done_le rfl h₁.1

theorem statement_fits : GoesDown .statement := by
  intro k
  have hlower : ∀ {β : Type} {r : Rule β} {next : β → Option Stmt}, r.layer.ble 1 = true →
      r.level < 2 →
      r.takes = true → (Act.call r fun b => .done (next b)).Fits .statement k k := by
    intro β r next hlayer hlevel htakes
    exact .lower_takes hlayer hlevel htakes fun b k₁ h₁ => .done_lt h₁
  refine .peek fun t ht => ?_
  cases htoken : t.token with
  | ident name => exact hlower rfl (by simp [level]) rfl
  | mark m =>
    cases m with
    | openBrace => exact hlower rfl (by decide) rfl
    | _ => exact .fail
  | keyword word =>
    have hpos := ht (by simp [htoken])
    have hdeclare : ∀ ty : Ty, (Act.op .advance fun _ =>
        .call (.declaration ty t.line) fun s => .done (some s)).Fits .statement k k := by
      intro ty
      refine .advance fun _ _ => .later rfl (by omega) fun s k₁ h₁ => ?_
      exact .done_lt (by omega)
    cases word with
    | ifThen => exact hlower rfl (by decide) rfl
    | whileLoop => exact hlower rfl (by decide) rfl
    | record => exact hlower rfl (by decide) rfl
    | orElse => exact .fail
    | void => exact .fail
    | int => exact hdeclare .int
    | float => exact hdeclare .float
    | string => exact hdeclare .string
    | bool => exact hdeclare .bool
  | _ => exact .fail

theorem block_fits : GoesDown .block := by
  intro k
  refine .expect fun _ hpos => .keep (fun _ _ h => h) fun _ => ?_
  refine .later rfl (by omega) fun statements k₁ h₁ => .keep (fun _ _ h => h) fun b => ?_
  exact .done_lt (by omega)

theorem statementsToBrace_fits : GoesDown .statementsToBrace := by
  intro k
  refine .peek fun t ht => ?_
  split
  · rename_i htoken
    have hpos := ht (by simp [htoken])
    exact .advance fun _ _ => .done_lt (by omega)
  · exact .fail
  · refine .lower_takes rfl (by decide) rfl fun s k₁ h₁ => ?_
    exact .later rfl h₁ fun rest k₂ h₂ => .done_lt (by omega)

theorem branch_fits : GoesDown .branch := by
  intro k
  refine .expect fun t hpos => .later rfl (by omega) fun condition k₁ h₁ => ?_
  refine .later rfl (by omega) fun yes k₂ h₂ => .optionalMatch ?_ ?_
  · intro hpos₂
    refine .peek fun next _ => ?_
    split
    · exact .later rfl (by omega) fun other k₃ h₃ => .done_lt (by omega)
    · exact .later rfl (by omega) fun no k₃ h₃ => .done_lt (by omega)
  · exact .done_lt (by omega)

theorem loop_fits : GoesDown .loop := by
  intro k
  refine .expect fun t hpos => .later rfl (by omega) fun condition k₁ h₁ => ?_
  exact .later rfl (by omega) fun b k₂ h₂ => .done_lt (by omega)

theorem record_fits : GoesDown .record := by
  intro k
  refine .expect fun t hpos => .expectIdent fun x _ => .expect fun _ _ => ?_
  refine .later rfl (by omega) fun fields k₁ h₁ => ?_
  split
  · exact .fail
  · refine .optionalMatch ?_ ?_
    · intro _
      exact .keep (fun _ _ h => h) fun _ => .done_lt (by omega)
    · exact .keep (fun _ _ h => h) fun _ => .done_lt (by omega)

theorem recordFields_fits (name : String) (fields : Fields) :
    GoesDown (.recordFields name fields) := by
  intro k
  refine .optionalMatch ?_ ?_
  · intro hpos
    exact .done_lt (by omega)
  · refine .advance fun type _ => .expectIdent fun x hpos => .keep (fun _ _ h => h) fun leaves => ?_
    cases addLeaves name type.line fields leaves with
    | error e => exact .fail
    | ok fields' =>
      refine .expect fun _ hpos' => .later rfl (by omega) fun all k₁ h₁ => ?_
      exact .done_lt (by omega)

theorem initializer_fits (ty : Ty) (name : String) (line : Nat) :
    GoesDown (.initializer ty name line) := by
  intro k
  refine .optionalMatch ?_ ?_
  · intro hpos
    cases ty with
    | record type => exact .fail
    | _ => exact .later rfl (by omega) fun e k₁ h₁ => .done_le rfl (by omega)
  · exact .done_le rfl (Nat.le_refl k)

theorem declaration_fits (ty : Ty) (line : Nat) : GoesDown (.declaration ty line) := by
  intro k
  refine .expectIdent fun x hpos => .later rfl (by omega) fun init k₁ h₁ => ?_
  refine .expect fun _ _ => .keep (fun _ _ h => h) fun _ => ?_
  exact .done_lt (by omega)

theorem assignment_fits : GoesDown .assignment := by
  intro k
  refine .expectIdent fun x hpos => .later rfl (by omega) fun target k₁ h₁ => ?_
  refine .expect fun _ _ => .later rfl (by omega) fun value k₂ h₂ => ?_
  exact .expect fun _ _ => .done_lt (by omega)

/-- The token after the name says which statement it is. If there is one, then there is the name
before it. -/
theorem named_fits (name : String) (line : Nat) : GoesDown (.named name line) := by
  intro k
  refine .lookahead fun t ht => ?_
  have hassign : (Act.call .assignment .done).Fits (.named name line) k k :=
    .lower_takes rfl (by simp [level]) rfl fun s k₁ h₁ => .done_lt h₁
  cases htoken : t.token with
  | mark m =>
    cases m with
    | openParen =>
      have hpos := ht (by simp [htoken])
      refine .advance fun _ _ => .later rfl (by omega) fun e k₁ h₁ => .expect fun _ _ => ?_
      exact .done_lt (by omega)
    | _ => exact hassign
  | ident _ =>
    have hpos := ht (by simp [htoken])
    refine .keep (fun _ _ h => h) fun Γ => ?_
    split
    · exact .advance fun _ _ => .later rfl (by omega) fun s k₁ h₁ => .done_lt (by omega)
    · refine .lookahead fun t' _ => ?_
      split <;> exact .fail
  | _ => exact hassign

/-! ### Bindings go down -/

theorem clauses_fits : GoesDown .clauses := by
  intro k
  refine .peek fun t _ => ?_
  split
  · exact .done_le rfl (Nat.le_refl k)
  · refine .lower rfl (by decide) fun bindings k₁ h₁ => .keep (fun _ _ h => h) fun _ => ?_
    exact .done_le rfl h₁.1

theorem clausesAfter_fits (done : Bindings Expr) : GoesDown (.clausesAfter done) := by
  intro k
  refine .expectIdent fun ⟨name, line⟩ hpos => ?_
  dsimp only
  split
  · exact .fail
  · split
    · exact .fail
    · refine .expect fun _ _ => .expect fun _ _ => ?_
      refine .later rfl (by omega) fun b k₁ h₁ => .expect fun _ _ => .optionalMatch ?_ ?_
      · intro _
        exact .later rfl (by omega) fun all k₂ h₂ => .done_lt (by omega)
      · exact .done_lt (by omega)

theorem bindingBody_fits (kind : Binding.Kind) : GoesDown (.bindingBody kind) := by
  intro k
  rw [body]
  split
  · refine .lower rfl (by simp [level]) fun es k₁ h₁ => ?_
    exact .done_le rfl h₁.1
  · exact .checked rfl (.inr ⟨rfl, by simp [level]⟩) fun e k₁ h₁ => .done_le rfl (by omega)

theorem entries_fits : GoesDown .entries := by
  intro k
  refine .peek fun t _ => ?_
  split
  · exact .done_le rfl (Nat.le_refl k)
  · exact .lower rfl (by decide) fun es k₁ h₁ => .done_le rfl h₁.1

theorem entriesAfter_fits (done : Table Expr) : GoesDown (.entriesAfter done) := by
  intro k
  refine .advance fun t ht => ?_
  split
  · rename_i htoken
    have hpos := ht (by simp [htoken])
    split
    · exact .fail
    · refine .expect fun _ _ => .checked rfl (.inl (by omega)) fun e k₁ h₁ => ?_
      refine .optionalMatch ?_ ?_
      · intro _
        exact .later rfl (by omega) fun all k₂ h₂ => .done_lt (by omega)
      · exact .done_lt (by omega)
  · exact .fail

/-- **All rules go down.** -/
theorem goesDown {α : Type} (r : Rule α) : r.GoesDown := by
  cases r with
  | expression =>
    intro k
    exact .lower_takes rfl (by decide) rfl fun e k₁ h₁ => .done_lt h₁
  | chain c => exact chain_fits c
  | chainRest c left => exact chainRest_fits c left
  | relational => exact relational_fits
  | comparison => exact comparison_fits
  | unary => exact unary_fits
  | primary => exact primary_fits
  | call name line => exact call_fits name line
  | arguments => exact arguments_fits
  | place name line => exact place_fits name line
  | segments => exact segments_fits
  | wholeExpression => exact wholeExpression_fits
  | wholeProgram => exact wholeProgram_fits
  | statementsToEnd => exact statementsToEnd_fits
  | statement => exact statement_fits
  | block => exact block_fits
  | statementsToBrace => exact statementsToBrace_fits
  | branch => exact branch_fits
  | loop => exact loop_fits
  | record => exact record_fits
  | recordFields name fields => exact recordFields_fits name fields
  | declaration ty line => exact declaration_fits ty line
  | initializer ty name line => exact initializer_fits ty name line
  | assignment => exact assignment_fits
  | named name line => exact named_fits name line
  | clauses => exact clauses_fits
  | clausesAfter done => exact clausesAfter_fits done
  | bindingBody kind => exact bindingBody_fits kind
  | entries => exact entries_fits
  | entriesAfter done => exact entriesAfter_fits done

end Rule

end BindScript.Parse
