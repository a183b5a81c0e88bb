/-
**The levels of the grammar.**

`Expr.From` leaves the order of operators open.  Here the grammar is told with its levels, so that
tokens are grouped in one way only: a sum is made of products, a comparison of two sums, and the
right operand of an operator stands one level higher than what the operator makes.  A choice is
taken to the end of its last branch, so it stands at the lowest level and nowhere else.

The parser finds whatever this grammar allows.  An operator of the same level after an expression
would go on with it, so the expression is found where what comes next is an operator of a lower
level, or none.  The parser solves the equations of its rules, so that no bound on its rounds has to
be counted.

Main results:

* `Expr.FromLevel.finds` — **the parser finds what the grammar allows**, by induction over the
  grammar.
-/

import BindScript.Proofs.Parser.Expression

namespace BindScript

/-! ### The grammar -/

/-- The level of the operator that a token is, and zero if it is none. -/
def Token.level : Token → Nat
  | .mark .and | .mark .or => 1
  | .mark .question => 2
  | .mark .eqEq | .mark .ne | .mark .gt | .mark .lt | .mark .ge | .mark .le => 3
  | .mark .plus | .mark .minus => 4
  | .mark .star | .mark .slash => 5
  | _ => 0

/-- The operators of the levels at which operands are joined from the left. -/
def Parse.chainOp? : Nat → Token → Option Operator
  | 1 => Parse.logicalOp?
  | 4 => Parse.additiveOp?
  | 5 => Parse.multiplicativeOp?
  | _ => fun _ => none

/-- Commas stand between arguments, and a parenthesis closes them. -/
inductive Argument.Closed : List Argument → Prop
  | last {a} : a.mark.token = .mark .closeParen → Argument.Closed [a]
  | more {a args} : a.mark.token = .mark .comma → Argument.Closed args → Argument.Closed (a :: args)

variable {args : List Argument} {wanted : Token} {name : String} {op : Operator}
    {rs : List Token.Located}
  {right : Expr}

/-- Expressions of a level and the tokens that they are read from. -/
inductive Expr.FromLevel : Nat → List Token.Located → Expr → Prop
  | climb {k ts e} : Expr.FromLevel (k + 1) ts e → Expr.FromLevel k ts e
  | select {t t' cs ys ns condition yes no} : t.token = .mark .question → t'.token = .mark .colon →
      Expr.FromLevel 3 cs condition → Expr.FromLevel 0 ys yes → Expr.FromLevel 0 ns no →
      Expr.FromLevel 0 (cs ++ t :: (ys ++ t' :: ns)) (Expr.mkSelect t.line condition yes no)
  | compare {t op ls rs left right} : Parse.comparisonOp? t.token = some op →
      Expr.FromLevel 4 ls left → Expr.FromLevel 4 rs right →
      Expr.FromLevel 3 (ls ++ t :: rs) (Expr.mkBinary t.line op left right)
  | join {k t op ls rs left right} : Parse.chainOp? k t.token = some op →
      Expr.FromLevel k ls left → Expr.FromLevel (k + 1) rs right →
      Expr.FromLevel k (ls ++ t :: rs) (Expr.mkBinary t.line op left right)
  | negate {t ts logical e} : t.token = .mark (if logical then .bang else .minus) →
      Expr.FromLevel 6 ts e → Expr.FromLevel 6 (t :: ts) (.negate t.line logical e)
  | literal {t v} : t.token.value? = some v → Expr.FromLevel 6 [t] (.literal t.line v)
  | host {t name} : t.token = .hostName name → Expr.FromLevel 6 [t] (.host t.line name)
  | parens {t t' ts e} : t.token = .mark .openParen → t'.token = .mark .closeParen →
      Expr.FromLevel 0 ts e → Expr.FromLevel 6 (t :: (ts ++ [t'])) e
  | emptyCall {t t' t'' name e} : t.token = .ident name → t'.token = .mark .openParen →
      t''.token = .mark .closeParen → Expr.mkCall t.line name [] = .ok e →
      Expr.FromLevel 6 [t, t', t''] e
  | call {t t' name e} {args : List Argument} : t.token = .ident name →
      t'.token = .mark .openParen →
      Argument.Closed args → (∀ a ∈ args, Expr.FromLevel 0 a.tokens a.expr) →
      Expr.mkCall t.line name (args.map Argument.expr) = .ok e →
      Expr.FromLevel 6 (t :: t' :: Argument.tokensOf args) e

theorem Expr.FromLevel.of_le {j k : Nat} {ts : List Token.Located} {e : Expr}
    (h : Expr.FromLevel j ts e) (hle : k ≤ j) : Expr.FromLevel k ts e := by
  induction hle with
  | refl => exact h
  | step _ ih => exact ih h.climb

/-- An expression does not begin with a closing parenthesis. -/
theorem Expr.FromLevel.head {k : Nat} {ts : List Token.Located} {e : Expr}
    (h : Expr.FromLevel k ts e) :
    ∃ t rest, ts = t :: rest ∧ t.token ≠ .mark .closeParen := by
  induction h with
  | climb _ ih => exact ih
  | select _ _ _ _ _ ih _ _ | compare _ _ _ ih _ | join _ _ _ ih _ =>
    obtain ⟨t, rest, rfl, ht⟩ := ih
    exact ⟨t, _, rfl, ht⟩
  | @negate t ts logical e ht =>
    refine ⟨t, _, rfl, ?_⟩
    rw [ht]
    cases logical <;> decide
  | @literal t v ht =>
    refine ⟨t, [], rfl, ?_⟩
    intro hclose
    rw [hclose] at ht
    exact nomatch ht
  | host ht | parens ht | emptyCall ht | call ht => exact ⟨_, _, rfl, by simp [ht]⟩

/-! ### States -/

/-- The state before tokens. -/
def ParseState.before (s : ParseState) (ts : List Token.Located) : ParseState :=
  { s with tokens := ts ++ s.tokens }

@[simp] theorem ParseState.before_before (s : ParseState) (ts us : List Token.Located) :
    (s.before us).before ts = s.before (ts ++ us) := by
  simp only [before, List.append_assoc]

namespace Parse

section Success

variable {α β : Type} {s s' : ParseState} {t : Token.Located} {ts : List Token.Located}

theorem peek_before (s : ParseState) (t : Token.Located) (ts : List Token.Located) :
    peek (s.before (t :: ts)) = .ok (t, s.before (t :: ts)) := rfl

theorem advance_before (s : ParseState) (t : Token.Located) (ts : List Token.Located) :
    advance (s.before (t :: ts)) = .ok (t, s.before ts) := rfl

theorem expect_before (ht : t.token = wanted) :
    expect wanted (s.before (t :: ts)) = .ok (t, s.before ts) := by
  rw [expect, bind_of_ok (advance_before s t ts), if_pos ht]
  rfl

theorem expectIdent_before (ht : t.token = .ident name) :
    expectIdent (s.before (t :: ts)) = .ok ((name, t.line), s.before ts) := by
  rw [expectIdent, bind_of_ok (advance_before s t ts), ht]
  rfl

theorem optionalMatch_before (ht : t.token = wanted) :
    optionalMatch wanted (s.before (t :: ts)) = .ok (true, s.before ts) := by
  rw [optionalMatch, bind_of_ok (peek_before s t ts), if_pos ht, bind_of_ok (advance_before s t ts)]
  rfl

theorem optionalMatch_of_ne (ht : t.token ≠ wanted) :
    optionalMatch wanted (s.before (t :: ts)) = .ok (false, s.before (t :: ts)) := by
  rw [optionalMatch, bind_of_ok (peek_before s t ts), if_neg ht]
  rfl

theorem eval_last (r : Rule α) (s : ParseState) :
    (Act.call r .done).eval (fun _ r => r.outcome) s = r.outcome s := congrFun (bind_pure _) s

end Success

/-- An expression of level `k` is over: what comes next is an operator of a lower level, or none. -/
def Stops (k : Nat) (s : ParseState) : Prop :=
  ∃ t, peek s = .ok (t, s) ∧ (t.token.level = 0 ∨ t.token.level < k)

theorem Stops.mono {j k : Nat} {s : ParseState} (h : Stops j s) (hle : j ≤ k) : Stops k s := by
  obtain ⟨t, hpeek, hlevel⟩ := h
  exact ⟨t, hpeek, by omega⟩

theorem stops_before {k : Nat} {s : ParseState} {t : Token.Located} {ts : List Token.Located}
    (h : t.token.level = 0 ∨ t.token.level < k) : Stops k (s.before (t :: ts)) :=
  ⟨t, peek_before s t ts, h⟩

/-! ### The rules of the levels -/

/-- The rule of a level. -/
def ruleAt : Nat → Rule Expr
  | 0 => .expression
  | 1 => .chain .logical
  | 2 => .relational
  | 3 => .comparison
  | 4 => .chain .sum
  | 5 => .chain .product
  | _ => .unary

/-- The levels at which operands are joined from the left. -/
inductive Chain.At : Nat → Chain → Prop
  | logical : Chain.At 1 .logical
  | sum : Chain.At 4 .sum
  | product : Chain.At 5 .product

theorem Chain.At.level_eq {k : Nat} {c : Chain} {t : Token} (h : Chain.At k c)
    (hop : c.op? t = some op) :
    t.level = k := by
  have hmark := Rule.mark_of_op? hop
  cases h with
  | logical | sum | product =>
    obtain rfl | rfl : _ ∨ _ := by simpa using hmark
    · rfl
    · rfl

theorem exists_chain {k : Nat} {t : Token} (h : chainOp? k t = some op) :
    ∃ c, Chain.At k c ∧ c.op? t = some op := by
  unfold chainOp? at h
  split at h
  · exact ⟨.logical, .logical, h⟩
  · exact ⟨.sum, .sum, h⟩
  · exact ⟨.product, .product, h⟩
  · cases h

/-- An operator of a lower level does not go on with a chain. -/
theorem Chain.At.op?_eq_none {k : Nat} {c : Chain} {t : Token} (h : Chain.At k c)
    (hlevel : t.level = 0 ∨ t.level < k) : c.op? t = none := by
  cases hop : c.op? t with
  | none => rfl
  | some op =>
    have heq := h.level_eq hop
    cases h <;> omega

theorem level_of_comparisonOp? {t : Token} (h : comparisonOp? t = some op) : t.level = 3 := by
  unfold comparisonOp? at h
  split at h
  case h_7 => cases h
  all_goals rfl

/-! ### Chains of operators -/

section Chains

variable {c : Chain} {left : Expr}

theorem chainRest_stop {s : ParseState} {t : Token.Located} (hpeek : peek s = .ok (t, s))
    (hop : c.op? t.token = none) : (Rule.chainRest c left).outcome s = .ok (left, s) := by
  rw [Rule.outcome_eq]
  refine (bind_of_ok hpeek).trans ?_
  simp only [hop]
  rfl

theorem chainRest_step {s : ParseState} {t : Token.Located} (hop : c.op? t.token = some op)
    (hright : c.operand.outcome (s.before rs) = .ok (right, s)) :
    (Rule.chainRest c left).outcome (s.before (t :: rs)) =
      (Rule.chainRest c (Expr.mkBinary t.line op left right)).outcome s := by
  rw [Rule.outcome_eq]
  refine (bind_of_ok (peek_before s t rs)).trans ?_
  simp only [hop]
  exact (bind_of_ok (advance_before s t rs)).trans ((bind_of_ok hright).trans (eval_last _ s))

end Chains

/-! ### What the rules make of tokens -/

/-- **The rule of level `k` finds an expression in tokens** wherever the expression is over after
them. Where operands are joined from the left it comes as far as to ask for the next operator, of
whatever level. -/
structure Finds (k : Nat) (ts : List Token.Located) (e : Expr) : Prop where
  result : ∀ s, Stops k s → (ruleAt k).outcome (s.before ts) = .ok (e, s)
  chain : ∀ c, Chain.At k c → ∀ s, Stops (k + 1) s →
    (ruleAt k).outcome (s.before ts) = (Rule.chainRest c e).outcome s

namespace Finds

variable {k : Nat} {ts : List Token.Located} {e : Expr}

/-- At a level where operands are joined from the left it is enough to come to the next operator. -/
theorem ofChain {c : Chain} (hk : Chain.At k c) (h : ∀ s, Stops (k + 1) s →
    (ruleAt k).outcome (s.before ts) = (Rule.chainRest c e).outcome s) : Finds k ts e where
  result s hs := by
    rw [h s (hs.mono (Nat.le_succ k))]
    obtain ⟨t, hpeek, hlevel⟩ := hs
    exact chainRest_stop hpeek (hk.op?_eq_none hlevel)
  chain c' hk' := by
    cases hk <;> cases hk' <;> exact h

/-- What is found at a level is found at the one below, if it is over there. -/
theorem climb (h : Finds (k + 1) ts e) : Finds k ts e := by
  have hchain : ∀ {c}, Chain.At k c → Finds k ts e := by
    intro c hk
    refine ofChain hk fun s hs => ?_
    have hoperand : c.operand.outcome (s.before ts) = .ok (e, s) := by
      cases hk <;> exact h.result s hs
    rw [show ruleAt k = .chain c by cases hk <;> rfl, Rule.outcome_eq]
    exact (bind_of_ok hoperand).trans (eval_last _ s)
  match k with
  | 0 =>
    refine ⟨fun s hs => ?_, nofun⟩
    rw [ruleAt, Rule.outcome_eq]
    exact (eval_last _ _).trans (h.result s (hs.mono (Nat.zero_le 1)))
  | 1 => exact hchain .logical
  | 2 =>
    refine ⟨fun s hs => ?_, nofun⟩
    have hcondition : Rule.comparison.outcome (s.before ts) = .ok (e, s) :=
      h.result s (hs.mono (Nat.le_succ 2))
    obtain ⟨t, hpeek, hlevel⟩ := hs
    -- what stops a level is no operator of it
    have hne : t.token ≠ .mark .question := by
      intro ht
      rw [ht] at hlevel
      exact absurd hlevel (by decide)
    rw [ruleAt, Rule.outcome_eq]
    refine (bind_of_ok hcondition).trans ((bind_of_ok hpeek).trans ?_)
    dsimp only
    rw [if_pos hne]
    rfl
  | 3 =>
    refine ⟨fun s hs => ?_, nofun⟩
    have hleft : (Rule.chain .sum).outcome (s.before ts) = .ok (e, s) :=
      h.result s (hs.mono (Nat.le_succ 3))
    obtain ⟨t, hpeek, hlevel⟩ := hs
    have hnone : comparisonOp? t.token = none := by
      cases hop : comparisonOp? t.token with
      | none => rfl
      | some op =>
        have := level_of_comparisonOp? hop
        omega
    rw [ruleAt, Rule.outcome_eq]
    refine (bind_of_ok hleft).trans ((bind_of_ok hpeek).trans ?_)
    simp only [hnone]
    rfl
  | 4 => exact hchain .sum
  | 5 => exact hchain .product
  | n + 6 => exact ⟨fun s hs => h.result s (hs.mono (Nat.le_succ _)), nofun⟩

variable {t : Token.Located}

/-- An operator joins what is found at its level to what is found one level higher. -/
theorem join {ls : List Token.Located} {left : Expr} (hop : chainOp? k t.token = some op)
    (hleft : Finds k ls left) (hright : Finds (k + 1) rs right) :
    Finds k (ls ++ t :: rs) (Expr.mkBinary t.line op left right) := by
  obtain ⟨c, hk, hop⟩ := exists_chain hop
  have hlevel := hk.level_eq hop
  refine ofChain hk fun s hs => ?_
  have hoperand : c.operand.outcome (s.before rs) = .ok (right, s) := by
    cases hk <;> exact hright.result s hs
  -- the operator does not end the left operand for good, but it ends the one before it, one level
  -- higher
  have hnext : Stops (k + 1) (s.before (t :: rs)) := stops_before (.inr (by omega))
  rw [← ParseState.before_before, hleft.chain c hk _ hnext, chainRest_step hop hoperand]

theorem compare {ls : List Token.Located} {left : Expr} (hop : comparisonOp? t.token = some op)
    (hleft : Finds 4 ls left) (hright : Finds 4 rs right) :
    Finds 3 (ls ++ t :: rs) (Expr.mkBinary t.line op left right) := by
  refine ⟨fun s hs => ?_, nofun⟩
  have hlevel := level_of_comparisonOp? hop
  have hl : (Rule.chain .sum).outcome ((s.before (t :: rs)).before ls) =
      .ok (left, s.before (t :: rs)) :=
    hleft.result _ (stops_before (.inr (by omega)))
  have hr : (Rule.chain .sum).outcome (s.before rs) = .ok (right, s) :=
    hright.result s (hs.mono (Nat.le_succ 3))
  rw [← ParseState.before_before, ruleAt, Rule.outcome_eq]
  refine (bind_of_ok hl).trans ((bind_of_ok (peek_before s t rs)).trans ?_)
  simp only [hop]
  exact (bind_of_ok (advance_before s t rs)).trans (bind_of_ok hr)

theorem select {t' : Token.Located} {cs ys ns : List Token.Located} {condition yes no : Expr}
    (ht : t.token = .mark .question) (ht' : t'.token = .mark .colon)
    (hcondition : Finds 3 cs condition) (hyes : Finds 0 ys yes) (hno : Finds 0 ns no) :
    Finds 0 (cs ++ t :: (ys ++ t' :: ns)) (Expr.mkSelect t.line condition yes no) := by
  refine ⟨fun s hs => ?_, nofun⟩
  have hc : Rule.comparison.outcome ((s.before (t :: (ys ++ t' :: ns))).before cs) =
      .ok (condition, s.before (t :: (ys ++ t' :: ns))) :=
    hcondition.result _ (stops_before (.inr (by rw [ht]; decide)))
  have hy : Rule.expression.outcome (s.before (ys ++ t' :: ns)) =
      .ok (yes, s.before (t' :: ns)) := by
    rw [← ParseState.before_before]
    exact hyes.result _ (stops_before (.inl (by rw [ht']; rfl)))
  have hchoice : Rule.relational.outcome (s.before (cs ++ t :: (ys ++ t' :: ns))) =
      .ok (Expr.mkSelect t.line condition yes no, s) := by
    rw [← ParseState.before_before, Rule.outcome_eq]
    refine (bind_of_ok hc).trans ((bind_of_ok (peek_before s t _)).trans ?_)
    dsimp only
    rw [if_neg (not_not.2 ht)]
    refine (bind_of_ok (advance_before s t _)).trans
      ((bind_of_ok hy).trans ((bind_of_ok (expect_before ht')).trans ?_))
    exact bind_of_ok (hno.result s hs)
  -- the last branch has taken every operator that could follow, so the chain around the choice is
  -- over
  obtain ⟨t₁, hpeek, hlevel⟩ := hs
  rw [ruleAt, Rule.outcome_eq]
  refine (eval_last _ _).trans ?_
  rw [Rule.outcome_eq]
  have hnone := Chain.At.logical.op?_eq_none (t := t₁.token) (by omega)
  exact (bind_of_ok hchoice).trans ((eval_last _ s).trans (chainRest_stop hpeek hnone))

theorem negate {logical : Bool} (ht : t.token = .mark (if logical then .bang else .minus))
    (h : Finds 6 ts e) :
    Finds 6 (t :: ts) (.negate t.line logical e) := by
  refine ⟨fun s hs => ?_, nofun⟩
  change Rule.unary.outcome _ = _
  rw [Rule.outcome_eq]
  refine (bind_of_ok (peek_before s t ts)).trans ?_
  have hoperand : (Act.op .advance fun t => .call .unary fun e =>
    .done (Expr.negate t.line logical e)).eval
      (fun _ r => r.outcome) (s.before (t :: ts)) = .ok (.negate t.line logical e, s) :=
    (bind_of_ok (advance_before s t ts)).trans (bind_of_ok (h.result s hs))
  dsimp only
  rw [ht]
  cases logical <;> exact hoperand

theorem ofPrimary (hminus : t.token ≠ .mark .minus) (hbang : t.token ≠ .mark .bang)
    (h : ∀ s : ParseState, Rule.primary.outcome (s.before (t :: ts)) = .ok (e, s)) :
    Finds 6 (t :: ts) e := by
  refine ⟨fun s _ => ?_, nofun⟩
  change Rule.unary.outcome _ = _
  rw [Rule.outcome_eq]
  refine (bind_of_ok (peek_before s t ts)).trans ?_
  have hlast := (eval_last .primary (s.before (t :: ts))).trans (h s)
  dsimp only
  cases htoken : t.token with
  | mark m =>
    cases m with
    | minus => exact absurd htoken hminus
    | bang => exact absurd htoken hbang
    | _ => exact hlast
  | _ => exact hlast

end Finds

/-! ### Primary expressions -/

section Primary

variable {t t' : Token.Located} {ts : List Token.Located} {e : Expr}

theorem primary_literal {v : Value} (ht : t.token.value? = some v) (s : ParseState) :
    Rule.primary.outcome (s.before [t]) = .ok (.literal t.line v, s) := by
  rw [Rule.outcome_eq]
  refine (bind_of_ok (advance_before s t [])).trans ?_
  dsimp only
  cases htoken : t.token with
  | int | float | string | bool | null =>
    rw [htoken] at ht
    cases ht
    rfl
  | _ =>
    rw [htoken] at ht
    exact nomatch ht

theorem primary_host (ht : t.token = .hostName name) (s : ParseState) :
    Rule.primary.outcome (s.before [t]) = .ok (.host t.line name, s) := by
  rw [Rule.outcome_eq]
  refine (bind_of_ok (advance_before s t [])).trans ?_
  simp only [ht]
  rfl

theorem primary_parens (ht : t.token = .mark .openParen) (ht' : t'.token = .mark .closeParen)
    (h : Finds 0 ts e) (s : ParseState) :
    Rule.primary.outcome (s.before (t :: (ts ++ [t']))) = .ok (e, s) := by
  have hinner : Rule.expression.outcome (s.before (ts ++ [t'])) = .ok (e, s.before [t']) := by
    rw [← ParseState.before_before]
    exact h.result _ (stops_before (.inl (by rw [ht']; rfl)))
  rw [Rule.outcome_eq]
  refine (bind_of_ok (advance_before s t _)).trans ?_
  simp only [ht]
  exact (bind_of_ok hinner).trans (bind_of_ok (expect_before ht'))

theorem arguments_before (hclosed : Argument.Closed args) (h : ∀ a ∈ args, Finds 0 a.tokens a.expr)
    (s : ParseState) :
    Rule.arguments.outcome (s.before (Argument.tokensOf args)) =
      .ok (args.map Argument.expr, s) := by
  induction hclosed with
  | @last a ha =>
    have harg : Rule.expression.outcome (s.before (Argument.tokensOf [a])) =
        .ok (a.expr, s.before [a.mark]) := by
      have htokens : Argument.tokensOf [a] = a.tokens ++ [a.mark] := by simp [Argument.tokensOf]
      rw [htokens, ← ParseState.before_before]
      exact (h a List.mem_cons_self).result _ (stops_before (.inl (by rw [ha]; rfl)))
    rw [Rule.outcome_eq]
    refine (bind_of_ok harg).trans
      ((bind_of_ok (optionalMatch_of_ne (by rw [ha]; decide))).trans ?_)
    exact bind_of_ok (expect_before ha)
  | @more a args ha _ ih =>
    have htokens : Argument.tokensOf (a :: args) = a.tokens ++
        a.mark :: Argument.tokensOf args := by
      simp [Argument.tokensOf]
    have harg : Rule.expression.outcome (s.before (Argument.tokensOf (a :: args))) =
        .ok (a.expr, s.before (a.mark :: Argument.tokensOf args)) := by
      rw [htokens, ← ParseState.before_before]
      exact (h a List.mem_cons_self).result _ (stops_before (.inl (by rw [ha]; rfl)))
    rw [Rule.outcome_eq]
    refine (bind_of_ok harg).trans ((bind_of_ok (optionalMatch_before ha)).trans ?_)
    exact bind_of_ok (ih fun a' ha' => h a' (List.mem_cons_of_mem _ ha'))

theorem primary_name (ht : t.token = .ident name) (ht' : t'.token = .mark .openParen)
    (s : ParseState) :
    Rule.primary.outcome (s.before (t :: t' :: ts)) = (Rule.call name t.line).outcome
      (s.before (t' :: ts)) := by
  rw [Rule.outcome_eq]
  refine (bind_of_ok (advance_before s t _)).trans ?_
  simp only [ht]
  refine (bind_of_ok (peek_before s t' ts)).trans ?_
  dsimp only
  rw [if_pos ht']
  exact eval_last _ _

theorem primary_emptyCall {t'' : Token.Located} (ht : t.token = .ident name)
    (ht' : t'.token = .mark .openParen) (ht'' : t''.token = .mark .closeParen)
    (hcall : Expr.mkCall t.line name [] = .ok e) (s : ParseState) :
    Rule.primary.outcome (s.before [t, t', t'']) = .ok (e, s) := by
  rw [primary_name ht ht', Rule.outcome_eq]
  refine (bind_of_ok (expect_before ht')).trans ((bind_of_ok (optionalMatch_before ht'')).trans ?_)
  simp only [if_true, hcall]
  rfl

theorem primary_call (ht : t.token = .ident name) (ht' : t'.token = .mark .openParen)
    (hclosed : Argument.Closed args)
    (hfirst : ∃ t₁ rest, Argument.tokensOf args = t₁ :: rest ∧ t₁.token ≠ .mark .closeParen)
    (h : ∀ a ∈ args, Finds 0 a.tokens a.expr)
    (hcall : Expr.mkCall t.line name (args.map Argument.expr) = .ok e) (s : ParseState) :
    Rule.primary.outcome (s.before (t :: t' :: Argument.tokensOf args)) = .ok (e, s) := by
  obtain ⟨t₁, rest, htokens, hne⟩ := hfirst
  have hopen : optionalMatch (.mark .closeParen) (s.before (Argument.tokensOf args)) =
      .ok (false, s.before (Argument.tokensOf args)) := by
    rw [htokens]
    exact optionalMatch_of_ne hne
  rw [primary_name ht ht', Rule.outcome_eq]
  refine (bind_of_ok (expect_before ht')).trans ((bind_of_ok hopen).trans ?_)
  refine (bind_of_ok (arguments_before hclosed h s)).trans ?_
  simp only [hcall]
  rfl

end Primary

end Parse

/-! ### The parser finds what the grammar allows -/

open Parse in
/-- **The rule of a level finds what the grammar allows at it.** -/
theorem Expr.FromLevel.finds {k : Nat} {ts : List Token.Located} {e : Expr}
    (h : Expr.FromLevel k ts e) :
    Finds k ts e := by
  induction h with
  | climb _ ih => exact ih.climb
  | select ht ht' _ _ _ ihc ihy ihn => exact .select ht ht' ihc ihy ihn
  | compare hop _ _ ihl ihr => exact .compare hop ihl ihr
  | join hop _ _ ihl ihr => exact .join hop ihl ihr
  | negate ht _ ih => exact .negate ht ih
  | @literal t v ht =>
    refine .ofPrimary ?_ ?_ (primary_literal ht)
    · intro hminus
      rw [hminus] at ht
      exact nomatch ht
    · intro hbang
      rw [hbang] at ht
      exact nomatch ht
  | host ht => exact .ofPrimary (by simp [ht]) (by simp [ht]) (primary_host ht)
  | parens ht ht' _ ih => exact .ofPrimary (by simp [ht]) (by simp [ht]) (primary_parens ht ht' ih)
  | emptyCall ht ht' ht'' hcall =>
    exact .ofPrimary (by simp [ht]) (by simp [ht]) (primary_emptyCall ht ht' ht'' hcall)
  | @call t t' name e args ht ht' hclosed hargs hcall ih =>
    refine .ofPrimary (by simp [ht]) (by simp [ht]) (primary_call ht ht' hclosed ?_ ih hcall)
    cases hclosed with
    | last _ | more _ _ =>
      obtain ⟨t₁, rest, htokens, hne⟩ := (hargs _ List.mem_cons_self).head
      exact ⟨t₁, _, by rw [Argument.tokensOf, List.flatMap_cons, htokens]; rfl, hne⟩

/-- A text whose tokens the grammar allows is parsed, if the expression passes the check. -/
theorem parseExpression_of_fromLevel {source : String} {ts : List Token.Located} {line : Nat}
    {e : Expr} (hsource : TokenRun.ofText source = ⟨ts, .ok line⟩) (h : Expr.FromLevel 0 ts e)
    (hcheck : e.check = .ok ()) : parseExpression source = .ok e := by
  -- the state after the tokens, where there is nothing but the end of the text
  let last : ParseState := ⟨[], .ok line, Scopes.push [] []⟩
  have hstart : { ParseState.start source with scopes := Scopes.push [] [] } = last.before ts := by
    simp only [ParseState.start, hsource, ParseState.before, last, List.append_nil]
  have hexpr : Parse.expression (last.before ts) = .ok (e, last) := by
    rw [Parse.Rule.expression_eq]
    exact h.finds.result last ⟨⟨.eof, line⟩, rfl, .inl rfl⟩
  have htext : Parse.onText (do
      let e ← Parse.expression
      Parse.expectEnd
      return e) source [] = .ok e := by
    rw [Parse.onText, hstart, StateT.run, Parse.bind_of_ok hexpr]
    rfl
  rw [parseExpression, htext]
  change (do e.check; return e) = Except.ok e
  rw [hcheck]
  rfl

end BindScript
