/-
**The machine evaluates expressions.**

A machine whose position is that of the code of an expression, and whose frames hold the variables
of a store, computes what the expression evaluates to in the store.  On success its position is just
past the code; in any case its frames hold the variables after the evaluation.

Main results:

* `Machine.eval_holding` — **so its code is evaluated as the tree says**, in as many rounds as it
  has instructions.
-/

import BindScript.Proofs.Machine.Placement
import BindScript.Proofs.Soundness.Stores

namespace BindScript

/-! ### Functions of the catalog -/

variable {args : List Expr} {p : Nat}

theorem Machine.completeArgs_eq {f : Builtin} (h : f.Accepts args) {values : List Value}
    (hlength : values.length = args.length) : completeArgs f values = .ok values := by
  have hle := h.length_le
  have hrange : ¬(values.length < f.signature.required ∨
      f.signature.params.length < values.length) := by
    have := h.enough
    omega
  unfold completeArgs
  simp only [if_neg hrange]
  by_cases hf : f = .concat
  · rw [if_pos hf]
  · rw [if_neg hf]
    have hall : values.length = f.signature.params.length := by rw [hlength, h.all hf]
    simp [Signature.defaultsAfter, hall]

namespace Machine

/-! ### Machines in the place of a store -/

/-- The machine at a position, with frames that hold the variables of a store, and the console and
the last value of the store. -/
def holding (m : Machine Unit) (position : Nat) (laters : List (List Slot)) (st : Store) :
    Machine Unit :=
  { m with
    position
    frames := Frames.holding st.env laters
    console := st.console
    lastValue := st.last }

@[simp] theorem position_holding (m : Machine Unit) (p : Nat) (laters : List (List Slot))
    (st : Store) :
    (m.holding p laters st).position = p := rfl

/-- What comes of a machine that holds a store. -/
def held {α : Type} (m : Machine Unit) (position : Nat) (laters : List (List Slot))
    (r : Except RuntimeError α × Store) : Result Unit α := (r.1, m.holding position laters r.2)

/-- The result of the machine is that of the tree, and on success the position is the given one. -/
def Lands {α : Type} (m : Machine Unit) (laters : List (List Slot)) (stop : Nat)
    (r : Except RuntimeError α × Store) (x : Option (Result Unit α)) : Prop :=
  match r with
  | (.ok a, st) => x = some (.ok a, m.holding stop laters st)
  | (.error e, st) => ∃ p, x = some (.error e, m.holding p laters st)

variable {α β : Type} {m : Machine Unit} {laters : List (List Slot)} {stop stop' : Nat}

theorem lands_ok {a : α} {st : Store} :
    Lands m laters stop (.ok a, st) (some (.ok a, m.holding stop laters st)) := rfl

theorem lands_held (r : Except RuntimeError α × Store) :
    Lands m laters stop r (some (held m stop laters r)) := by
  obtain ⟨_ | a, st⟩ := r
  · exact ⟨stop, rfl⟩
  · exact lands_ok

theorem EndsAt.lands {r : Except RuntimeError α × Store} {x : Option (Result Unit α)}
    (h : EndsAt stop (some (held m p laters r)) x) : Lands m laters stop r x := by
  obtain ⟨_ | a, st⟩ := r
  · cases h
    exact ⟨_, rfl⟩
  · cases h
    exact lands_ok

theorem Lands.chain {r : Except RuntimeError α × Store} {x : Option (Result Unit α)}
    {next : α → Store → Except RuntimeError β × Store}
    {k : α → Machine Unit → Option (Result Unit β)} (hr : Lands m laters stop r x)
    (hk : ∀ a st, r = (.ok a, st) →
      Lands m laters stop' (next a st) (k a (m.holding stop laters st))) :
    Lands m laters stop' (BindScript.chain r next) (andThen x k) := by
  obtain ⟨r, st⟩ := r
  cases r with
  | error e =>
    obtain ⟨p, rfl⟩ := hr
    exact ⟨p, rfl⟩
  | ok a =>
    have hx : x = some (.ok a, m.holding stop laters st) := hr
    rw [hx, andThen_ok]
    exact hk a st rfl

/-! ### Expressions -/

variable {program : Array Instruction} {Γ : Scopes}

theorem eval_at {i : Instruction} {fuel : Nat} (hlimit : m.limit = .none)
    (hi : program[p]? = some i) (st : Store) :
    eval .plain program (fuel + 1) (m.holding p laters st) =
      evalFetched .plain program (eval .plain program fuel) i (m.holding (p + 1) laters st) :=
  eval_moved (m := m.holding p laters st) hlimit hi

theorem jump_holding {target : Nat} (h : target ≤ program.size) (st : Store) :
    jump program.size target (m.holding p laters st) = (.ok (), m.holding target laters st) :=
  jump_moved (m := m.holding p laters st) h

theorem andThen_held {r : Except RuntimeError α × Store}
    {next : α → Store → Except RuntimeError β × Store} {k : α → Machine Unit →
      Option (Result Unit β)}
    (hk : ∀ a st, r = (.ok a, st) →
      k a (m.holding p laters st) = some (held m p laters (next a st))) :
    andThen (some (held m p laters r)) k = some (held m p laters (BindScript.chain r next)) := by
  obtain ⟨_ | a, st⟩ := r
  · rfl
  · exact hk a st rfl

theorem assign_holding {q : Place} (hq : '.' ∉ q.name.toList) (v : Value) (st : Store) :
    assign q.fullName v (m.holding p laters st) = held m p laters (st.write q v) := by
  have hwrite : Frames.write (m.holding p laters st).frames q.fullName v =
      (st.env.write q v).map fun env => Frames.holding env laters :=
    Frames.write_holding hq st.env laters v
  simp only [assign, hwrite, Store.write]
  cases st.env.write q v <;> rfl

/-- A function that updates the variable that is its argument. -/
theorem updateTarget_holding {q : Place} (hq : '.' ∉ q.name.toList) (f : Builtin) (st : Store) :
    updateTarget f (.load q.fullName) (m.holding p laters st) =
      held m p laters (adjust f q st) := by
  have hread : Frames.read (m.holding p laters st).frames q.fullName = st.env.read q :=
    Frames.read_holding hq st.env laters
  have hstep : ∀ n : Int, n + referenceStep f = if f = .inc then n + 1 else n - 1 := by
    intro n
    unfold referenceStep
    split <;> rfl
  unfold adjust
  simp only [updateTarget, hread]
  cases st.env.read q with
  | error e => rfl
  | ok v =>
    cases v with
    | int n =>
      simp only [hstep]
      cases Value.checkedInt f.name (if f = .inc then n.toInt + 1 else n.toInt - 1) with
      | error e => rfl
      | ok v => exact assign_holding hq v st
    | _ => rfl

theorem actOnAll_holding (hΓ : Γ.Settled) (htyped : ∀ arg ∈ args, arg.Typed Γ)
    (hargs : ∀ arg ∈ args, ∀ st : Store, Env.Fits Γ st.env →
      arg.actOn .plain (m.holding p laters st) = some (held m p laters (arg.eval st)))
    {st : Store} (hst : Env.Fits Γ st.env) :
    Expr.actOnAll .plain args (m.holding p laters st) =
      some (held m p laters (Expr.evalAll args st)) := by
  induction args generalizing st with
  | nil => rfl
  | cons arg args ih =>
    rw [Expr.actOnAll, Expr.evalAll, hargs arg (by simp) st hst]
    refine andThen_held fun v st₁ heval => ?_
    rw [ih (fun a ha => htyped a (List.mem_cons_of_mem _ ha))
      (fun a ha => hargs a (List.mem_cons_of_mem _ ha))
      ((htyped arg (by simp)).fits_of_eval hΓ hst heval)]
    exact andThen_held fun vs st _ => rfl

theorem length_evalAll {st st' : Store} {values : List Value}
    (h : Expr.evalAll args st = (.ok values, st')) :
    values.length = args.length := by
  induction args generalizing st st' values with
  | nil =>
    obtain ⟨rfl, -⟩ : [] = values ∧ st = st' := by simpa [Expr.evalAll] using h
    rfl
  | cons arg args ih =>
    rw [Expr.evalAll] at h
    rcases harg : arg.eval st with ⟨_ | v, st₁⟩
    · simp [harg, BindScript.chain] at h
    · rcases hrest : Expr.evalAll args st₁ with ⟨_ | vs, st₂⟩
      · simp [harg, hrest, BindScript.chain] at h
      · obtain ⟨rfl, -⟩ : v :: vs = values ∧ st₂ = st' := by
          simpa [harg, hrest, BindScript.chain] using h
        rw [List.length_cons, List.length_cons, ih hrest]

/-- **What an expression does to the machine is what the tree says**, if the variables have values
of their types: the machine finds out by the operand which negation is meant, and the tree says
which. -/
theorem actOn_holding (hΓ : Γ.Settled) {e : Expr} (h : e.Typed Γ) (st : Store)
    (hst : Env.Fits Γ st.env) :
    e.actOn .plain (m.holding p laters st) = some (held m p laters (e.eval st)) := by
  induction h generalizing st with
  | @literal line v hv =>
    rw [Expr.actOn]
    cases v with
    | void => simp [Value.isLiteral] at hv
    | record leaves => simp [Value.isLiteral] at hv
    | _ => rfl
  | @load q hq =>
    rw [Expr.actOn, Expr.eval, ← Frames.read_holding hq.1.noPoint st.env laters]
    rfl
  | host => rfl
  | @negate line logical operand htyped hop ih =>
    rw [Expr.actOn, Expr.eval, ih st hst]
    refine andThen_held fun v st₁ heval => ?_
    have hv := htyped.hasType_of_eval hΓ hst heval
    rw [← (Value.hasType_iff_ty (Ty.ne_record_of_negate hop)).1 hv] at hop
    rw [Value.negateAny_eq hop]
    rfl
  | binary hleft _ _ ihl ihr =>
    rw [Expr.actOn, Expr.eval, ihl st hst]
    refine andThen_held fun l st₁ heval => ?_
    rw [ihr st₁ (hleft.fits_of_eval hΓ hst heval)]
    exact andThen_held fun r st _ => rfl
  | select hc _ _ _ _ _ ihc ihy ihn =>
    rw [Expr.actOn, Expr.eval, ihc st hst]
    refine andThen_held fun v st₁ heval => ?_
    have hst₁ := hc.fits_of_eval hΓ hst heval
    rw [ihy st₁ hst₁, ihn st₁ hst₁]
    split <;> rfl
  | @call line f args htyped haccepts ih =>
    rw [Expr.actOn]
    cases href : f.takesReference with
    | true =>
      obtain ⟨q, rfl⟩ := haccepts.reference href
      have hq : '.' ∉ q.name.toList := by
        cases htyped (.load q) (by simp) with
        | load hq => exact hq.1.noPoint
      rw [if_pos rfl, Expr.eval, href]
      exact congrArg some (updateTarget_holding hq f st)
    | false =>
      rw [if_neg (by simp), if_pos (room_of_params haccepts.length_le), Expr.eval_call href,
        actOnAll_holding hΓ htyped ih hst]
      refine andThen_held fun values st₁ hvalues => ?_
      rw [applyValues_of_ok (completeArgs_eq haccepts (length_evalAll hvalues))]
      simp only [callWithValues, Host.plain, Builtin.callByName, f.ofName?_name]
      rfl

/-- **Expressions are evaluated as the tree says**, in as many rounds as they have instructions. -/
theorem eval_holding (hlimit : m.limit = .none) (laters : List (List Slot)) (hΓ : Γ.Settled)
    {e : Expr} (h : e.Typed Γ) {p fuel : Nat} {st : Store} (hst : Env.Fits Γ st.env)
    (hcode : Code.At program p (e.codeAt p)) (hfuel : (e.codeAt p).length ≤ fuel) :
    Lands m laters (p + (e.codeAt p).length) (e.eval st)
      (eval .plain program fuel (m.holding p laters st)) := by
  have hends : EndsAt _ (e.actOn .plain (m.holding p laters st)) _ :=
    eval_endsAt e (m := m.holding p laters st) hlimit hcode hfuel
  rw [actOn_holding hΓ h st hst] at hends
  exact hends.lands

end Machine

end BindScript
