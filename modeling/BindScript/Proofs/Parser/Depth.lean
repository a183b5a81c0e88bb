/-
**How deep the rules of the parser call each other.**

Rules are run to a given depth of calls, and have no outcome if their calls go deeper.  Every call
is below the rule that makes it, so a depth above the measure of a rule is always enough: the rule
comes to a result or to an error.  What it comes to does not depend on the depth any more; these
outcomes solve the equations of the rules, and any parsers that solve them where they are called are
equal to the outcomes.

Main results:

* `Parse.Rule.within_eq` — **rules come to an end**, within a depth that is linear in the number of
  tokens;
* `Parse.Activation.Calls.below`, `Parse.Activation.below_of_transGen` — **no chain of calls
  comes back to a level without having taken a token**.
-/

import Mathlib.Logic.Relation
import BindScript.Proofs.Parser.Inversion
import BindScript.Proofs.Parser.Rules

namespace BindScript.Parse

variable {α β : Type}

/-! ### What operations leave -/

variable {s s' : ParseState}

theorem expectEnd_eq_ok {u : Unit} (h : expectEnd s = .ok (u, s')) : s' = s := by
  simp only [expectEnd, bind_eq_ok] at h
  obtain ⟨t, s₁, hpeek, h⟩ := h
  obtain ⟨rfl, -⟩ := peek_eq_ok hpeek
  split at h
  · exact (pure_eq_ok.1 h).2.symm
  · exact absurd h fail_ne_ok

/-- Operations leave a part of the tokens, and as many as they say. -/
theorem Op.run_eq_ok {o : Op β} {b : β} (h : o.run s = .ok (b, s')) :
    s'.tokens <:+ s.tokens ∧ o.Leaves s.tokens.length b s'.tokens.length := by
  cases o with
  | lookahead n =>
    obtain ⟨rfl, htoken⟩ := lookahead_eq_ok h
    refine ⟨List.suffix_refl _, rfl, fun hne => ?_⟩
    rcases htoken with htoken | ⟨-, heof⟩
    · exact (List.getElem?_eq_some_iff.1 htoken).1
    · exact absurd heof hne
  | advance =>
    rcases advance_eq_ok h with ⟨rest, hrest, rfl⟩ | ⟨hnil, heof, rfl⟩
    · exact ⟨hrest ▸ List.suffix_cons b rest, by simp [Op.Leaves, hrest]⟩
    · exact ⟨List.suffix_refl _, by simp [Op.Leaves, hnil, heof]⟩
  | expect wanted =>
    obtain ⟨-, rest, hrest, rfl⟩ := expect_eq_ok h wanted.token_ne_eof
    exact ⟨hrest ▸ List.suffix_cons b rest, by simp [Op.Leaves, hrest]⟩
  | optionalMatch wanted =>
    rcases optionalMatch_eq_ok h wanted.token_ne_eof with ⟨rfl, t, rest, -, hrest, rfl⟩ | ⟨rfl, rfl⟩
    · exact ⟨hrest ▸ List.suffix_cons t rest, by simp [Op.Leaves, hrest]⟩
    · exact ⟨List.suffix_refl _, rfl⟩
  | expectIdent =>
    obtain ⟨t, rest, -, hrest, rfl⟩ := expectIdent_eq_ok h
    exact ⟨hrest ▸ List.suffix_cons t rest, by simp [Op.Leaves, hrest]⟩
  | expectEnd =>
    obtain rfl := expectEnd_eq_ok h
    exact ⟨List.suffix_refl _, rfl⟩
  | scopes =>
    obtain ⟨-, rfl⟩ := scopes_eq_ok h
    exact ⟨List.suffix_refl _, rfl⟩
  | updateScopes f =>
    obtain ⟨Γ, -, rfl⟩ := updateScopes_eq_ok h
    exact ⟨List.suffix_refl _, rfl⟩
  | openBlock =>
    obtain rfl := modify_eq_ok h
    exact ⟨List.suffix_refl _, rfl⟩
  | closeBlock statements =>
    obtain ⟨-, rfl⟩ := closeBlock_eq_ok h
    exact ⟨List.suffix_refl _, rfl⟩
  | fieldLeaves type field line =>
    obtain ⟨-, rfl⟩ := fieldLeaves_eq_ok h
    exact ⟨List.suffix_refl _, rfl⟩

/-! ### Running rules -/

/-- What a parser comes to: an error, or a result and the state after it. -/
abbrev Outcome (α : Type) := Except CompileError (α × ParseState)

/-- A parser for every rule. -/
abbrev Reading := ∀ α : Type, Rule α → Parse α

/-- Outcomes of rules, of which some may be missing. -/
abbrev Answers := ∀ α : Type, Rule α → ParseState → Option (Outcome α)

namespace Act

/-- Runs an act with parsers for the rules that it calls. -/
def eval (reading : Reading) : Act α → Parse α
  | .done a => pure a
  | .fail e => throw e
  | .op o next => o.run >>= fun b => (next b).eval reading
  | .call r next => reading _ r >>= fun b => (next b).eval reading

/-- Runs an act with the outcomes of the rules that it calls. -/
def eval? (answers : Answers) : Act α → ParseState → Option (Outcome α)
  | .done a, s => some (.ok (a, s))
  | .fail e, _ => some (.error e)
  | .op o next, s =>
    match o.run s with
    | .error e => some (.error e)
    | .ok (b, s') => (next b).eval? answers s'
  | .call r next, s =>
    match answers _ r s with
    | none => none
    | some (.error e) => some (.error e)
    | some (.ok (b, s')) => (next b).eval? answers s'

theorem eval?_some (reading : Reading) (act : Act α) (s : ParseState) :
    act.eval? (fun _ r s => some (reading _ r s)) s = some (act.eval reading s) := by
  induction act generalizing s with
  | done a => rfl
  | fail e => rfl
  | op o next ih =>
    change _ = some (Except.bind (o.run s) fun x => (next x.1).eval reading x.2)
    simp only [eval?]
    cases o.run s with
    | error e => rfl
    | ok x => exact ih x.1 x.2
  | call r next ih =>
    change _ = some (Except.bind (reading _ r s) fun x => (next x.1).eval reading x.2)
    simp only [eval?]
    cases reading _ r s with
    | error e => rfl
    | ok x => exact ih x.1 x.2

theorem eval?_mono {answers more : Answers}
    (h : ∀ β (r : Rule β) s x, answers β r s = some x → more β r s = some x) {act : Act α}
    {x : Outcome α} (hx : act.eval? answers s = some x) : act.eval? more s = some x := by
  induction act generalizing s with
  | done a => exact hx
  | fail e => exact hx
  | op o next ih =>
    simp only [eval?] at hx ⊢
    cases ho : o.run s with
    | error e => simpa only [ho] using hx
    | ok y =>
      simp only [ho] at hx ⊢
      exact ih y.1 hx
  | call r next ih =>
    simp only [eval?] at hx ⊢
    cases hr : answers _ r s with
    | none => simp [hr] at hx
    | some y =>
      simp only [hr] at hx
      rw [h _ r s y hr]
      cases y with
      | error e => exact hx
      | ok z => exact ih z.1 hx

end Act

variable {depth : Nat}

namespace Rule

/-- The outcome of a rule, if its calls are nested at most this deep. -/
def within : Nat → Answers
  | 0, _, _, _ => none
  | depth + 1, _, r, s => r.body.eval? (within depth) s

theorem within_succ (depth : Nat) (r : Rule α) (s : ParseState) (x : Outcome α)
    (h : within depth α r s = some x) : within (depth + 1) α r s = some x := by
  induction depth generalizing α s with
  | zero => simp [within] at h
  | succ depth ih => exact Act.eval?_mono (fun β r' s' y hy => ih r' s' y hy) h

theorem within_mono {depth' : Nat} (hle : depth ≤ depth') {r : Rule α} {x : Outcome α}
    (h : within depth α r s = some x) : within depth' α r s = some x := by
  induction hle with
  | refl => exact h
  | step hle ih => exact within_succ _ r s x ih

/-! ### Coming to an end -/

/-- There is an outcome, and if it is a result, then it leaves a part of the tokens, as the rule
says. -/
def Ended (r : Rule β) (s : ParseState) (outcome : Option (Outcome α)) : Prop :=
  ∃ x, outcome = some x ∧
    ∀ a s', x = .ok (a, s') → s'.tokens <:+ s.tokens ∧ r.Keeps s.tokens.length s'.tokens.length

theorem ended_error {r : Rule β} (e : CompileError) :
    Ended r s (some (.error e) : Option (Outcome α)) := by
  refine ⟨_, rfl, ?_⟩
  intro a s' h
  cases h

/-- What a rule does from some state on comes to an end, if all calls below the rule do. -/
theorem ended_eval? {r : Rule β} {s₀ : ParseState} {answers : Answers}
    (hanswers : ∀ γ (r' : Rule γ) s, r'.Below s.tokens.length r s₀.tokens.length →
      Ended r' s (answers γ r' s))
    {act : Act α} (hs : s.tokens <:+ s₀.tokens) (h : act.Fits r s₀.tokens.length s.tokens.length) :
    Ended r s₀ (act.eval? answers s) := by
  induction act generalizing s with
  | done a =>
    refine ⟨_, rfl, ?_⟩
    rintro a' s' ⟨rfl, rfl⟩
    exact ⟨hs, h⟩
  | fail e => exact ended_error e
  | op o next ih =>
    simp only [Act.eval?]
    cases ho : o.run s with
    | error e => exact ended_error e
    | ok x =>
      obtain ⟨b, s'⟩ := x
      exact ih b ((Op.run_eq_ok ho).1.trans hs) (h b _ (Op.run_eq_ok ho).2)
  | call r' next ih =>
    -- the rule that is called is below, so its answer is known
    obtain ⟨-, hbelow, hnext⟩ := h
    obtain ⟨x, hx, hkeeps⟩ := hanswers _ r' s hbelow
    simp only [Act.eval?, hx]
    cases x with
    | error e => exact ended_error e
    | ok y =>
      obtain ⟨b, s'⟩ := y
      obtain ⟨hsuffix, hcount⟩ := hkeeps b s' rfl
      exact ih b (hsuffix.trans hs) (hnext b _ hcount)

/-- **Rules come to an end**, if they are run deeper than their measure. -/
theorem ended_within (depth : Nat) (r : Rule α) (s : ParseState)
    (h : r.measure s.tokens.length < depth) :
    Ended r s (within depth α r s) := by
  induction depth generalizing α s with
  | zero => exact absurd h (Nat.not_lt_zero _)
  | succ depth ih =>
    refine ended_eval? (fun γ r' s' hbelow => ih r' s' ?_) (List.suffix_refl _) (r.goesDown _)
    exact Nat.lt_of_lt_of_le hbelow.measure_lt (Nat.le_of_lt_succ h)

theorem isSome_within (r : Rule α) (s : ParseState) :
    (within (r.measure s.tokens.length + 1) α r s).isSome = true := by
  obtain ⟨x, hx, -⟩ := ended_within _ r s (Nat.lt_succ_self _)
  rw [hx]
  rfl

/-- What a rule comes to. -/
def outcome (r : Rule α) : Parse α := fun s =>
  (within (r.measure s.tokens.length + 1) α r s).get (r.isSome_within s)

/-- What a rule comes to is the same for all depths above its measure. -/
theorem within_eq (r : Rule α) (h : r.measure s.tokens.length < depth) :
    within depth α r s = some (r.outcome s) :=
  within_mono h (Option.some_get _).symm

theorem outcome_of_within {r : Rule α} {x : Outcome α} (h : within depth α r s = some x) :
    r.outcome s = x := by
  have hmore := within_mono (Nat.le_max_left depth (r.measure s.tokens.length + 1)) h
  rw [within_eq r (Nat.le_max_right depth (r.measure s.tokens.length + 1))] at hmore
  exact Option.some.inj hmore

theorem outcome_eq_ok {r : Rule α} {a : α} (h : r.outcome s = .ok (a, s')) :
    s'.tokens <:+ s.tokens ∧ r.Keeps s.tokens.length s'.tokens.length := by
  obtain ⟨x, hx, hkeeps⟩ := ended_within _ r s (Nat.lt_succ_self _)
  exact hkeeps a s' ((outcome_of_within hx).symm.trans h)

/-- **The outcomes satisfy the equations of the rules.** -/
theorem outcome_eq (r : Rule α) (s : ParseState) :
    r.outcome s = r.body.eval (fun _ r' => r'.outcome) s := by
  have hwithin : r.body.eval? (within (r.measure s.tokens.length)) s = some (r.outcome s) :=
    within_eq r (Nat.lt_succ_self _)
  have hall : r.body.eval? (fun _ r' s' => some (r'.outcome s')) s = some (r.outcome s) := by
    refine Act.eval?_mono ?_ hwithin
    intro β r' s' x hx
    exact congrArg some (outcome_of_within hx)
  rw [Act.eval?_some] at hall
  exact (Option.some.inj hall).symm

/-! ### Equal parsers -/

/-- What a rule does from some state on is the same with parsers that are right about the calls
below the rule. -/
theorem eval_congr {r : Rule β} {s₀ : ParseState} {reading : Reading}
    (hreading : ∀ γ (r' : Rule γ) s, r'.layer ≤ r.layer →
      r'.Below s.tokens.length r s₀.tokens.length → reading γ r' s = r'.outcome s) {act : Act α}
    (h : act.Fits r s₀.tokens.length s.tokens.length) :
    act.eval reading s = act.eval (fun _ r' => r'.outcome) s := by
  induction act generalizing s with
  | done a => rfl
  | fail e => rfl
  | op o next ih =>
    change Except.bind (o.run s) (fun x => (next x.1).eval reading x.2) =
      Except.bind (o.run s) fun x => (next x.1).eval _ x.2
    cases ho : o.run s with
    | error e => rfl
    | ok x => exact ih x.1 (h x.1 _ (Op.run_eq_ok ho).2)
  | call r' next ih =>
    obtain ⟨hlayer, hbelow, hnext⟩ := h
    change Except.bind (reading _ r' s) (fun x => (next x.1).eval reading x.2) =
      Except.bind (r'.outcome s) fun x => (next x.1).eval _ x.2
    rw [hreading _ r' s hlayer hbelow]
    cases hr : r'.outcome s with
    | error e => rfl
    | ok x => exact ih x.1 (hnext x.1 _ (outcome_eq_ok hr).2)

/-- Parsers that are right about the calls below a rule are right about the rule. -/
theorem eval_eq_outcome {r : Rule α} {reading : Reading}
    (hreading : ∀ γ (r' : Rule γ) s', r'.layer ≤ r.layer →
      r'.Below s'.tokens.length r s.tokens.length → reading γ r' s' = r'.outcome s') :
    r.body.eval reading s = r.outcome s :=
  (eval_congr hreading (r.goesDown _)).trans (r.outcome_eq s).symm

end Rule

/-! ### Calls -/

/-- A rule that is called, and the state in which it is. -/
structure Activation where
  {result : Type}
  rule : Rule result
  state : ParseState

/-- The calls that are made when an act is run. -/
def Act.Makes (reading : Reading) : Act α → ParseState → Activation → Prop
  | .done _, _, _ => False
  | .fail _, _, _ => False
  | .op o next, s, c => ∃ b s', o.run s = .ok (b, s') ∧ (next b).Makes reading s' c
  | .call r next, s, c =>
    c = ⟨r, s⟩ ∨ ∃ b s', reading _ r s = .ok (b, s') ∧ (next b).Makes reading s' c

variable {c c' : Activation}

namespace Activation

/-- One rule calls another one when it is run. -/
def Calls (reading : Reading) (c c' : Activation) : Prop := c.rule.body.Makes reading c.state c'

/-- The second activation is further on: it has a part of the tokens, and fewer of them or a lower
level. -/
def Below (c' c : Activation) : Prop :=
  c'.state.tokens <:+ c.state.tokens ∧
    c'.rule.Below c'.state.tokens.length c.rule c.state.tokens.length

theorem Below.trans {c c' c'' : Activation} (h' : Below c'' c') (h : Below c' c) : Below c'' c :=
  ⟨h'.1.trans h.1, Rule.Below.trans h'.2 h.2⟩

/-- The calls of a rule from some state on are below it, and their layer is no higher. -/
theorem below_of_makes {act : Act α} (hs : s.tokens <:+ c.state.tokens)
    (h : act.Fits c.rule c.state.tokens.length s.tokens.length)
    (hmakes : act.Makes (fun _ r => r.outcome) s c') :
    Below c' c ∧ c'.rule.layer ≤ c.rule.layer := by
  induction act generalizing s with
  | done a => exact hmakes.elim
  | fail e => exact hmakes.elim
  | op o next ih =>
    obtain ⟨b, s', ho, hmakes⟩ := hmakes
    exact ih b ((Op.run_eq_ok ho).1.trans hs) (h b _ (Op.run_eq_ok ho).2) hmakes
  | call r next ih =>
    obtain ⟨hlayer, hbelow, hnext⟩ := h
    rcases hmakes with rfl | ⟨b, s', hr, hmakes⟩
    · exact ⟨⟨hs, hbelow⟩, hlayer⟩
    · obtain ⟨hsuffix, hkeeps⟩ := Rule.outcome_eq_ok hr
      exact ih b (hsuffix.trans hs) (hnext b _ hkeeps) hmakes

/-- **Every call is below the rule that makes it.** -/
theorem Calls.below (h : Calls (fun _ r => r.outcome) c c') : Below c' c :=
  (below_of_makes (List.suffix_refl _) (c.rule.goesDown _) h).1

theorem Calls.layer_le (h : Calls (fun _ r => r.outcome) c c') : c'.rule.layer ≤ c.rule.layer :=
  (below_of_makes (List.suffix_refl _) (c.rule.goesDown _) h).2

/-- **A chain of calls goes down**. -/
theorem below_of_transGen (h : Relation.TransGen (Calls fun _ r => r.outcome) c c') :
    Below c' c := by
  induction h with
  | single h => exact h.below
  | tail _ h ih => exact h.below.trans ih

end Activation

end BindScript.Parse
