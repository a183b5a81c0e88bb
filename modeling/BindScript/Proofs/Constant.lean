/-
**Constant expressions on the machine.**

An expression can be evaluated directly, as long as it needs nothing but its literals, or it can be
compiled and run.  Both ways lead to the same result.  They differ in one place: direct evaluation
knows which negation is meant, and the machine asks the operand; the types of the operands settle
that.  Chance is left out, since direct evaluation draws from a source of its own.

Main results:

* `Machine.evaluate_code` — **direct evaluation agrees with the machine**.
-/

import BindScript.Proofs.Simulation.Expression
import BindScript.Tree.Evaluate

namespace BindScript

namespace Expr

mutual

def calls (f : Builtin) : Expr → Bool
  | .literal _ _ | .load _ | .host _ _ => false
  | .negate _ _ operand => operand.calls f
  | .binary _ _ _ left right => left.calls f || right.calls f
  | .select _ _ condition yes no => condition.calls f || yes.calls f || no.calls f
  | .call _ g _ args => decide (g = f) || callsAny f args

def callsAny (f : Builtin) : List Expr → Bool
  | [] => false
  | e :: es => e.calls f || callsAny f es

end

/-! ### Values -/

variable {Γ : Scopes}

theorem takesReference_of_isPure {f : Builtin} (h : f.isPure = true) :
    f.takesReference = false := by
  cases f <;> first | rfl | simp [Builtin.isPure, Builtin.category] at h

/-- Two evaluations one after the other, in a program and directly. -/
theorem chain_eq_bind {α β : Type} {r : Except RuntimeError α × Store}
    {direct : Except RuntimeError α} {f : α → Except RuntimeError β}
    {next : α → Store → Except RuntimeError β × Store} {st : Store}
    (hconst : ∀ name, (direct >>= f) ≠ .error (.notConstant name))
    (hr : (∀ name, direct ≠ .error (.notConstant name)) → r = (direct, st))
    (hnext : ∀ a, direct = .ok a → (∀ name, f a ≠ .error (.notConstant name)) →
      next a st = (f a, st)) :
    chain r next = (direct >>= f, st) := by
  cases direct with
  | error e =>
    have hdirect : ∀ name, (.error e : Except RuntimeError α) ≠ .error (.notConstant name) := by
      intro name heq
      cases heq
      exact hconst name rfl
    rw [hr hdirect]
    rfl
  | ok a =>
    rw [hr (by simp)]
    exact hnext a rfl hconst

theorem evalAll_eq_evaluateAll {args : List Expr} (st : Store)
    (ih : ∀ arg ∈ args, arg.calls .random = false →
      (∀ name, arg.evaluate ≠ .error (.notConstant name)) → arg.eval st = (arg.evaluate, st))
    (hrandom : callsAny .random args = false)
    (hconst : ∀ name, evaluateAll args ≠ .error (.notConstant name)) :
    evalAll args st = (evaluateAll args, st) := by
  induction args with
  | nil => rfl
  | cons arg args ihargs =>
    rw [callsAny, Bool.or_eq_false_iff] at hrandom
    rw [evaluateAll] at hconst ⊢
    rw [evalAll]
    have hrest := ihargs (fun a ha => ih a (List.mem_cons_of_mem _ ha)) hrandom.2
    refine chain_eq_bind hconst (ih arg List.mem_cons_self hrandom.1) fun v _ hconst => ?_
    exact chain_eq_bind hconst hrest fun vs _ _ => rfl

/-- **Direct evaluation gives the value of an expression**, which then has no effect. -/
theorem Typed.eval_eq_evaluate {e : Expr} (h : e.Typed Γ) (hrandom : e.calls .random = false)
    (hconst : ∀ name, e.evaluate ≠ .error (.notConstant name)) (st : Store) :
    e.eval st = (e.evaluate, st) := by
  induction h with
  | literal => rw [eval, evaluate]
  | load => exact absurd rfl (by rw [evaluate] at hconst; exact hconst _)
  | host => exact absurd rfl (by rw [evaluate] at hconst; exact hconst _)
  | @negate line logical operand _ _ ih =>
    rw [evaluate] at hconst ⊢
    rw [calls] at hrandom
    rw [eval]
    exact chain_eq_bind hconst (ih hrandom) fun _ _ _ => rfl
  | @binary line op left right _ _ _ ihl ihr =>
    rw [evaluate] at hconst ⊢
    rw [calls, Bool.or_eq_false_iff] at hrandom
    rw [eval]
    refine chain_eq_bind hconst (ihl hrandom.1) fun l _ hconst => ?_
    exact chain_eq_bind hconst (ihr hrandom.2) fun r _ _ => rfl
  | @select line condition yes no _ _ _ _ _ _ ihc ihy ihn =>
    rw [evaluate] at hconst ⊢
    simp only [calls, Bool.or_eq_false_iff] at hrandom
    obtain ⟨⟨hrc, hry⟩, hrn⟩ := hrandom
    rw [eval]
    refine chain_eq_bind hconst (ihc hrc) fun v _ hconst => ?_
    -- the branch that is not taken may be refused
    cases hv : v.isTruthy with
    | true =>
      simp only [hv, if_true] at hconst ⊢
      exact ihy hry hconst
    | false =>
      simp only [hv, Bool.false_eq_true, if_false] at hconst ⊢
      exact ihn hrn hconst
  | @call line f args _ _ ih =>
    rw [evaluate] at hconst ⊢
    simp only [calls, Bool.or_eq_false_iff, decide_eq_false_iff_not] at hrandom
    cases hpure : f.isPure with
    | false => simp [hpure] at hconst
    | true =>
      simp only [hpure, if_true] at hconst ⊢
      rw [eval_call (takesReference_of_isPure hpure)]
      refine chain_eq_bind hconst (evalAll_eq_evaluateAll st ih hrandom.2) fun values _ _ => ?_
      simp only [Builtin.call_of_isPure hpure hrandom.1]

end Expr

/-! ### The machine -/

namespace Machine

theorem code_pos (e : Expr) : 0 < e.code.toArray.size := by
  rw [List.size_toArray]
  exact e.codeAt_pos 0

/-- An expression in the place of a statement leaves its value as the last one. -/
theorem step_code {e : Expr} {m : Machine Unit} (hlimit : m.limit = .none)
    (hposition : m.position = 0) (fuel : Nat) :
    step .plain e.code.toArray (fuel + 1) m =
      andThen (eval .plain e.code.toArray (fuel + 1) m) fun v n =>
        some (.ok (), { n with lastValue := some v }) := by
  obtain ⟨i, rest, hcode, hvalue⟩ := exists_codeAt_eq_cons e 0
  have hi : e.code.toArray[m.position]? = some i := by
    rw [hposition, Expr.code, hcode]
    rfl
  rw [step_succ, eval_succ, fetch_eq hlimit hi, andThen_ok, andThen_ok, perform_of_hasValue hvalue]

variable {e : Expr} {m : Machine Unit}

theorem eval_code (htyped : e.Typed []) (hrandom : e.calls .random = false)
    (hconst : ∀ name, e.evaluate ≠ .error (.notConstant name)) {fuel : Nat}
    (hfuel : e.code.length ≤ fuel) (hlimit : m.limit = .none) (hposition : m.position = 0)
    (hframes : m.frames = []) :
    (∀ v, e.evaluate = .ok v →
        eval .plain e.code.toArray fuel m = some (.ok v, { m with position := e.code.length })) ∧
      ∀ err, e.evaluate = .error err →
        ∃ p, eval .plain e.code.toArray fuel m = some (.error err, { m with position := p }) := by
  have hsettled : Scopes.Settled [] := ⟨by simp [Scopes.Coherent], by simp [Scopes.LeafTyped]⟩
  have hlands := eval_holding hlimit [] hsettled htyped
    (show Env.Fits [] (Store.env ⟨[], m.console, m.lastValue⟩) from .nil) (Code.at_self _) hfuel
  have hstart : m.holding 0 [] ⟨[], m.console, m.lastValue⟩ = m := by
    rw [← hposition]
    simp only [holding, Frames.holding, ← hframes]
  have hend : ∀ p, m.holding p [] ⟨[], m.console, m.lastValue⟩ = { m with position := p } := by
    intro p
    simp only [holding, Frames.holding, ← hframes]
  rw [htyped.eval_eq_evaluate hrandom hconst, hstart, Nat.zero_add] at hlands
  constructor
  · intro v hv
    rw [hv] at hlands
    rw [← hend]
    exact hlands
  · intro err herr
    rw [herr] at hlands
    obtain ⟨p, hp⟩ := hlands
    exact ⟨p, by rw [← hend]; exact hp⟩

/-- **Direct evaluation agrees with the machine.** If the direct evaluation of an expression without
chance is not refused, the machine evaluates its code to the same value or error, and a run of the
code ends with the same, with any amount of fuel above the length of the code. On success all of the
code has been read. In any case the machine is as at its start apart from the position and the last
value: nothing has been written, and there are no frames. -/
theorem evaluate_code {source : String} (hparse : parseExpression source = .ok e)
    (hrandom : e.calls .random = false) (hconst : ∀ name, e.evaluate ≠ .error (.notConstant name))
    (m : Machine Unit) :
    (∀ v, e.evaluate = .ok v → ∀ fuel, e.code.length < fuel →
        evaluateFuel .plain e.code.toArray fuel m =
          some (.ok v, { m.reset with position := e.code.length }) ∧
        runFuel .plain e.code.toArray .none fuel m =
          some (.ok (some v), { m.reset with position := e.code.length, lastValue := some v })) ∧
      ∀ err, e.evaluate = .error err → ∀ fuel, e.code.length < fuel → ∃ p,
        evaluateFuel .plain e.code.toArray fuel m =
          some (.error err, { m.reset with position := p }) ∧
        runFuel .plain e.code.toArray .none fuel m =
          some (.error err, { m.reset with position := p }) := by
  have hslot : ∀ n, Scopes.slot? [Scope.empty] n = Scopes.slot? [] n := fun _ => rfl
  have htyped := (parseExpression_typed hparse).congr hslot fun _ => rfl
  have hnolimit : m.reset.withLimit .none = m.reset := rfl
  have hpos : 0 < e.code.length := e.codeAt_pos 0
  constructor
  · intro v hv fuel hfuel
    obtain ⟨k, rfl⟩ : ∃ k, fuel = k + 2 := ⟨fuel - 2, by omega⟩
    have hv := (eval_code htyped hrandom hconst (Nat.le_of_lt hfuel)
      (m := m.reset) rfl rfl rfl).1 v hv
    have hstep := step_code (e := e) (m := m.reset) rfl rfl (k + 1)
    rw [hv, andThen_ok] at hstep
    have hrun := runUntil_once (code_pos e) hstep (by simp) k
    exact ⟨hv, by rw [runFuel, hnolimit, hrun]⟩
  · intro err herr fuel hfuel
    obtain ⟨k, rfl⟩ : ∃ k, fuel = k + 2 := ⟨fuel - 2, by omega⟩
    obtain ⟨p, hp⟩ :=
      (eval_code htyped hrandom hconst (Nat.le_of_lt hfuel) (m := m.reset) rfl rfl rfl).2 err herr
    have hstep := step_code (e := e) (m := m.reset) rfl rfl (k + 1)
    rw [hp, andThen_error] at hstep
    have hrun := runUntil_once (code_pos e) hstep (by simp) k
    exact ⟨p, hp, by rw [runFuel, hnolimit, hrun]⟩

theorem evaluate_code_choice :
    ∃ e, parseExpression "!(1 < -Length('abc')) ? 7 / 2 : 1 / 0" = .ok e ∧
      e.calls .random = false ∧ e.evaluate = .ok (.int 3) ∧
      evaluateFuel .plain e.code.toArray (e.code.length + 1) (start () Console.empty) =
        some (.ok (.int 3), { start () Console.empty with position := e.code.length }) ∧
      runFuel .plain e.code.toArray .none (e.code.length + 1) (start () Console.empty) =
        some (.ok (some (.int 3)), { start () Console.empty with
          position := e.code.length, lastValue := some (.int 3) }) := by
  obtain ⟨e, hparse, hrandom, v, hv, hthree⟩ :
      ∃ e, parseExpression "!(1 < -Length('abc')) ? 7 / 2 : 1 / 0" = .ok e ∧
        e.calls .random = false ∧
        ∃ v, e.evaluate = .ok v ∧ v.asInt? = some 3 := by
    decide +kernel
  obtain rfl : v = .int 3 := by
    cases v <;> simp_all [Value.asInt?]
  have hagree := evaluate_code hparse hrandom (by simp [hv]) (start () Console.empty)
  exact ⟨e, hparse, hrandom, hv, hagree.1 _ hv _ (Nat.lt_succ_self _)⟩

end Machine

end BindScript
