/-
**The machine executes statements.**

The code of a statement in its place does what the rules of execution say.  A declaration, an
assignment or a call is one round of the machine; so is a block, whose statements are a run of their
own.  Branches and loops are a few rounds with jumps between them.

The frame of a block has its slots from the start, and the statements bring them into sight in their
order; the slots that a block has still to declare are carried along.

Main results:

* `Machine.agree_statement`, `Machine.agree_block`,
  `Machine.agree_statements` — **statements and blocks agree with their code**.
-/

import BindScript.Proofs.Code.Positions
import BindScript.Proofs.Simulation.Run

namespace BindScript

namespace Machine

variable {program : Array Instruction} {m : Machine Unit} {laters : List (List Slot)} {p : Nat}
  {Γ : Scopes} {st : Store} {name : String} {ty : Ty} {values : Table Value} {env : Env}

/-! ### Rounds -/

theorem step_at {i : Instruction} (hlimit : m.limit = .none) (hi : program[p]? = some i)
    (fuel : Nat) (laters : List (List Slot)) (st : Store) :
    step .plain program (fuel + 1) (m.holding p laters st) =
      perform .plain program (eval .plain program fuel)
        (fun stop n => runUntil (step .plain program fuel) stop fuel n) i
        (m.holding (p + 1) laters st) := by
  have hfetch : fetch program (m.holding p laters st) = (.ok i, m.holding (p + 1) laters st) :=
    fetch_eq hlimit hi
  rw [step_succ, hfetch, andThen_ok]

theorem stepsTo_jump {target : Nat} (hlimit : m.limit = .none)
    (hi : program[p]? = some (.jump target)) (htarget : target ≤ program.size) :
    StepsTo program (m.holding p laters st) (.ok (), m.holding target laters st) := by
  refine ⟨1, ?_⟩
  rw [step_at hlimit hi, perform, jump_holding htarget]

section Condition

variable (laters) {condition : Expr} {target : Nat} {st' : Store}
  (hlimit : m.limit = .none) (htyped : condition.Typed Γ) (hst : st.Fits Γ)
  (hi : program[p]? = some (.jumpIfFalse target))
  (hcode : Code.At program (p + 1) (condition.codeAt (p + 1)))
include hlimit htyped hst hi hcode

theorem stepsTo_condition_fails {e : RuntimeError} (hc : condition.eval st = (.error e, st')) :
    ∃ q, StepsTo program (m.holding p laters st) (.error e, m.holding q laters st') := by
  have heval := eval_holding hlimit laters hst.settled htyped hst.env hcode (Nat.le_refl _)
  rw [hc] at heval
  obtain ⟨q, hq⟩ := heval
  exact ⟨q, _, by rw [step_at hlimit hi, perform, hq, andThen_error]⟩

theorem stepsTo_condition_yes {v : Value} (hc : condition.eval st = (.ok v, st'))
    (hv : v.isTruthy = true) :
    StepsTo program (m.holding p laters st)
      (.ok (), m.holding (p + 1 + (condition.codeAt (p + 1)).length) laters st') := by
  have heval := eval_holding hlimit laters hst.settled htyped hst.env hcode (Nat.le_refl _)
  rw [hc] at heval
  have heval : _ = some _ := heval
  exact ⟨_, by rw [step_at hlimit hi, perform, heval, andThen_ok, hv, if_pos rfl]⟩

theorem stepsTo_condition_no (htarget : target ≤ program.size) {v : Value}
    (hc : condition.eval st = (.ok v, st')) (hv : v.isTruthy = false) :
    StepsTo program (m.holding p laters st) (.ok (), m.holding target laters st') := by
  have heval := eval_holding hlimit laters hst.settled htyped hst.env hcode (Nat.le_refl _)
  rw [hc] at heval
  have heval : _ = some _ := heval
  refine ⟨(condition.codeAt (p + 1)).length + 1, ?_⟩
  rw [step_at hlimit hi, perform, heval, andThen_ok, hv, if_neg (by simp), jump_holding htarget]

end Condition

/-- An instruction that computes a value leaves it as the last one. -/
theorem stepsTo_value {i : Instruction} {fuel q : Nat} {r : Except RuntimeError Value × Store}
    (hlimit : m.limit = .none) (hi : program[p]? = some i) (hvalue : hasValue i = true)
    (h : Lands m laters q r
      (evalFetched .plain program (eval .plain program fuel) i (m.holding (p + 1) laters st))) :
    ∃ x, StepsTo program (m.holding p laters st) x ∧
      Settles m laters q (chain r fun v st => (.ok (), st.withLast v)) x := by
  have hround := step_at hlimit hi fuel laters st
  rw [perform_of_hasValue hvalue] at hround
  obtain ⟨e | v, st'⟩ := r
  · obtain ⟨q', hq'⟩ := h
    rw [hq', andThen_error] at hround
    exact ⟨_, ⟨_, hround⟩, q', laters, rfl⟩
  · have h : _ = some _ := h
    rw [h, andThen_ok] at hround
    exact ⟨_, ⟨_, hround⟩, rfl⟩

theorem stepsTo_assign (laters : List (List Slot)) (hst : st.Fits Γ) {line : Nat} {target : Place}
    {value : Expr} (hlimit : m.limit = .none)
    (htarget : '.' ∉ target.name.toList) (htyped : value.Typed Γ)
    (hcode : Code.At program p (Stmt.codeAt p (.assign line target value))) :
    ∃ x, StepsTo program (m.holding p laters st) x ∧
      Settles m laters (p + (Stmt.codeAt p (.assign line target value)).length)
        (chain (value.eval st) (Store.assign target)) x := by
  rw [Stmt.stop_assign]
  obtain ⟨hi, hcode⟩ := Code.at_cons.1 hcode
  have heval := eval_holding hlimit laters hst.settled htyped hst.env hcode (Nat.le_refl _)
  have hlands := heval.chain (k := fun v m => some (assign target.fullName v m))
    fun v st _ => assign_holding htarget v st ▸ lands_held _
  rw [← evalFetched_assign] at hlands
  obtain ⟨x, hstep, hx⟩ := stepsTo_value hlimit hi rfl hlands
  refine ⟨x, hstep, ?_⟩
  rwa [chain_chain] at hx

theorem stepsTo_perform (laters : List (List Slot)) (hst : st.Fits Γ) {line : Nat} {f : Builtin}
    {args : List Expr} (hlimit : m.limit = .none) (htyped : Expr.Typed Γ (.call line f ty args))
    (hcode : Code.At program p (Expr.codeAt p (.call line f ty args))) :
    ∃ x, StepsTo program (m.holding p laters st) x ∧
      Settles m laters (p + (Expr.codeAt p (.call line f ty args)).length)
        (chain (Expr.eval (.call line f ty args) st) fun v st => (.ok (), st.withLast v)) x := by
  have heval := eval_holding hlimit laters hst.settled htyped hst.env hcode (Nat.le_refl _)
  rw [Expr.codeAt] at hcode
  rw [Expr.codeAt, List.length_cons, eval_at hlimit hcode.1] at heval
  rw [Expr.codeAt, List.length_cons]
  exact stepsTo_value hlimit hcode.1 rfl heval

/-- A declaration without a value brings its variable into sight. -/
theorem stepsTo_declare (slot : Slot) (later : List Slot) (laters : List (List Slot))
    (hlimit : m.limit = .none) (hi : program[p]? = some (.declare slot.name false))
    (henv : st.env = values :: env) (hnew : values.lookup slot.name = none) :
    StepsTo program (m.holding p ((slot :: later) :: laters) st)
      (.ok (), m.holding (p + 1) (later :: laters) (st.declare slot.name slot.value)) := by
  have hframes := Frames.declare_holding hnew env later laters none
  refine ⟨1, ?_⟩
  rw [step_at hlimit hi, perform_of_hasValue rfl, evalFetched]
  simp only [declare, holding, henv, hframes, andThen_ok, Store.declare, Env.declare,
    Option.getD_none]

theorem stepsTo_declareInit (slot : Slot) (later : List Slot) (laters : List (List Slot))
    {init : Expr} (hlimit : m.limit = .none) (htyped : init.Typed Γ) (hst : st.Fits Γ)
    (hi : program[p]? = some (.declare slot.name true))
    (hcode : Code.At program (p + 1) (init.codeAt (p + 1)))
    (henv : (init.eval st).2.env = values :: env) (hnew : values.lookup slot.name = none) :
    ∃ x, StepsTo program (m.holding p ((slot :: later) :: laters) st) x ∧
      Settles m (later :: laters) (p + 1 + (init.codeAt (p + 1)).length)
        (chain (init.eval st) fun v st => (.ok (), st.declare slot.name v)) x := by
  have heval := eval_holding hlimit ((slot :: later) :: laters) hst.settled htyped hst.env hcode
    (Nat.le_refl _)
  have hround := step_at hlimit hi (init.codeAt (p + 1)).length ((slot :: later) :: laters) st
  rw [perform_of_hasValue rfl, evalFetched_declare] at hround
  rcases hr : init.eval st with ⟨e | v, st'⟩
  · rw [hr] at heval
    obtain ⟨q, hq⟩ := heval
    rw [hq, andThen_error, andThen_error] at hround
    exact ⟨_, ⟨_, hround⟩, q, _, rfl⟩
  · rw [hr] at heval henv
    have heval : _ = some _ := heval
    have henv : st'.env = values :: env := henv
    have hframes := Frames.declare_holding hnew env later laters (some v)
    rw [heval, andThen_ok] at hround
    refine ⟨_, ⟨_, hround.trans ?_⟩, rfl⟩
    simp only [declare, holding, henv, hframes, andThen_ok, Store.declare, Env.declare,
      Option.getD_some]

/-! ### Blocks -/

/-- The end of a block: its frame is left, unless it failed. -/
def closing : Result Unit Unit → Result Unit Unit
  | (.error e, n) => (.error e, n)
  | (.ok (), n) => (.ok (), leave n)

/-- A block is a run of its statements, in a frame that is left at their normal end. -/
theorem stepsTo_block {count : Nat} {slots : List Slot} {n : Machine Unit} {x : Result Unit Unit}
    (hlimit : n.limit = .none) (hi : program[n.position]? = some (.block count slots))
    (hbound : n.position + 1 + count ≤ program.size) (hindex : IsIndex program.size) :
    StepsTo program n x ↔
      ∃ r, Reaches program (n.position + 1 + count)
          (enter slots { n with position := n.position + 1 }) r ∧
        x = closing r := by
  have hround : ∀ fuel, step .plain program (fuel + 1) n =
      andThen (runUntil (step .plain program fuel) (n.position + 1 + count) fuel
        (enter slots { n with position := n.position + 1 })) fun _ n' =>
          some (.ok (), leave n') := by
    intro fuel
    have hadvance : Code.advance (n.position + 1) count = n.position + 1 + count :=
      Code.advance_eq (Nat.lt_of_le_of_lt hbound hindex)
    rw [step_succ, fetch_eq hlimit hi, andThen_ok, perform]
    simp only [hadvance]
    rw [if_neg (by simpa using hbound)]
  constructor
  · rintro ⟨fuel, h⟩
    cases fuel with
    | zero => simp [step] at h
    | succ fuel =>
      rw [hround] at h
      rcases andThen_eq_some.1 h with ⟨e, n', hrun, rfl⟩ | ⟨_, n', hrun, hx⟩
      · exact ⟨_, ⟨fuel, fuel, hrun⟩, rfl⟩
      · exact ⟨_, ⟨fuel, fuel, hrun⟩, (Option.some.inj hx).symm⟩
  · rintro ⟨r, ⟨rounds, fuel, hrun⟩, rfl⟩
    refine ⟨max rounds fuel + 1, ?_⟩
    rw [hround, runUntil_mono (step_mono (Nat.le_max_right rounds fuel)) _
      (Nat.le_max_left rounds fuel) hrun]
    obtain ⟨_ | _, _⟩ := r <;> rfl

theorem leave_holding (henv : st.env = values :: env) (hne : env ≠ []) :
    leave (m.holding p ([] :: laters) st) = m.holding p laters st.leave := by
  cases env with
  | nil => exact absurd rfl hne
  | cons values' env => simp [leave, holding, Store.leave, henv, Frames.holding]

/-- A block in its place agrees with its tree if its statements do. -/
theorem Agree.block {slots : List Slot} {types : Table Fields} {ss : List Stmt} {later : List Slot}
    (hlimit : m.limit = .none) (hindex : IsIndex program.size)
    (hcode : Code.At program p (Block.codeAt p (.mk slots types ss)))
    (hframe : Frame.ofSlots slots = Frame.holding (boundValues slots) later)
    (hfits : ∀ st', ExecAll slots ss (st.enter (boundValues slots)) (.ok (), st') →
      st'.leave.Fits Γ)
    (hss : Agree (ExecAll slots ss (st.enter (boundValues slots)))
      (Reaches program (p + 1 + (codeOfStatements (p + 1) ss).length)
        (m.holding (p + 1) (later :: laters) (st.enter (boundValues slots))))
      (Settles m ([] :: laters) (p + 1 + (codeOfStatements (p + 1) ss).length))) :
    Agree (Block.Exec (.mk slots types ss) st) (StepsTo program (m.holding p laters st))
      (Settles m laters (p + (Block.codeAt p (.mk slots types ss)).length)) := by
  rw [Block.stop_eq]
  obtain ⟨hi, hbody⟩ := Code.at_cons.1 hcode
  have hsteps : ∀ x, StepsTo program (m.holding p laters st) x ↔ _ :=
    fun x => stepsTo_block (n := m.holding p laters st) hlimit hi hbody.bound hindex
  have henter : enter slots (m.holding (p + 1) laters st) =
      m.holding (p + 1) (later :: laters) (st.enter (boundValues slots)) := by
    simp only [enter, holding, hframe, Store.enter, Frames.holding_cons]
  -- the statements leave the scopes around the block as they are
  have hleave : ∀ {st'}, ExecAll slots ss (st.enter (boundValues slots)) (.ok (), st') →
      ∀ q, leave (m.holding q ([] :: laters) st') = m.holding q laters st'.leave := by
    intro st' hexec q
    have hne := (hfits st' hexec).env_ne_nil
    cases henv : st'.env with
    | nil => simp [Store.leave, henv] at hne
    | cons values env => exact leave_holding henv (by simpa [Store.leave, henv] using hne)
  have hclose : ∀ {o r}, ExecAll slots ss (st.enter (boundValues slots)) o →
      Settles m ([] :: laters) (p + 1 + (codeOfStatements (p + 1) ss).length) o r →
      Settles m laters (p + 1 + (codeOfStatements (p + 1) ss).length)
        (chain o fun _ st => (.ok (), st.leave)) (closing r) := by
    rintro ⟨_ | _, st'⟩ r hexec hS
    · obtain ⟨q, l, rfl⟩ := hS
      exact ⟨q, l, rfl⟩
    · obtain rfl : r = _ := hS
      exact congrArg (Prod.mk _) (hleave hexec _)
  constructor
  · intro x hx
    obtain ⟨r, hr, rfl⟩ := (hsteps x).1 hx
    have hr : Reaches program _ (enter slots (m.holding (p + 1) laters st)) r := hr
    rw [henter] at hr
    obtain ⟨o, hexec, hS⟩ := hss.1 r hr
    exact ⟨_, Block.exec_iff.2 ⟨o, hexec, rfl⟩, hclose hexec hS⟩
  · intro o ho
    obtain ⟨o, hexec, rfl⟩ := Block.exec_iff.1 ho
    obtain ⟨r, hr, hS⟩ := hss.2 o hexec
    rw [← henter] at hr
    exact ⟨_, (hsteps _).2 ⟨r, hr, rfl⟩, hclose hexec hS⟩

/-! ### Agreement -/

variable {fresh : Prop} {Γ' : Scopes} {slots later later' : List Slot} {s : Stmt} {stop stop' : Nat}
  {laters' : List (List Slot)} {next : Store → Outcome → Prop}

/-- A statement that is one round of the machine, and what follows it. -/
theorem Agree.statement (hfits : ∀ st', Stmt.Exec slots s st (.ok (), st') → st'.Fits Γ')
    (hround : Agree (Stmt.Exec slots s st) (StepsTo program (m.holding p (later :: laters) st))
      (Settles m (later' :: laters) (p + (s.codeAt p).length)))
    (hstop : p + (s.codeAt p).length ≤ stop)
    (hnext : ∀ st', st'.Fits Γ' → Agree (next st')
      (Reaches program stop (m.holding (p + (s.codeAt p).length) (later' :: laters) st'))
      (Settles m laters' stop')) :
    Agree (fun o => ∃ o₁, Stmt.Exec slots s st o₁ ∧ Then o₁ next o)
      (Reaches program stop (m.holding p (later :: laters) st)) (Settles m laters' stop') := by
  have hpos := s.codeAt_pos p
  refine hround.seq next (by rw [position_holding]; omega) ?_
  intro st' hexec
  exact hnext st' (hfits st' hexec)

theorem agree_declare {line nameLine : Nat} {init : Option Expr} (hlimit : m.limit = .none)
    (hadd : Γ.addVariable ty name nameLine = (.ok (), Γ')) (hinit : ∀ e ∈ init, e.Typed Γ)
    (hst : st.Fits Γ) (hlater : slots = Γ.top.slots ++ later)
    (hlater' : slots = Γ'.top.slots ++ later')
    (hcode : Code.At program p (Stmt.codeAt p (.declare line name ty init))) :
    Agree (Stmt.Exec slots (.declare line name ty init) st)
      (StepsTo program (m.holding p (later :: laters) st))
      (Settles m (later' :: laters) (p + (Stmt.codeAt p (.declare line name ty init)).length)) := by
  obtain ⟨scope, outer, value, rfl, hnew, -, hzero, rfl⟩ := Scopes.addVariable_eq_ok hadd
  obtain rfl : later = ⟨name, ty, value, false⟩ :: later' := by
    rw [hlater'] at hlater
    simpa [Scopes.top] using hlater.symm
  rw [Stmt.stop_declare]
  obtain ⟨hi, hcode⟩ := Code.at_cons.1 hcode
  cases init with
  | none =>
    obtain ⟨values, env, henv, hlookup⟩ := hst.lookup_eq_none hnew
    have hstep := stepsTo_declare ⟨name, ty, value, false⟩ later' laters hlimit hi henv hlookup
    have hx : Settles m (later' :: laters) (p + 1) (.ok (), st.declare name value) _ := rfl
    refine (Agree.of_step hstep hx).congr (fun o => ?_) fun _ => Iff.rfl
    rw [Stmt.exec_declare, hlater, Scopes.top, List.headD_cons, startValue_eq hnew hzero]
  | some e =>
    have hst₁ : (e.eval st).2.Fits (scope :: outer) := hst.eval (hinit e rfl) rfl
    obtain ⟨values, env, henv, hlookup⟩ := hst₁.lookup_eq_none hnew
    obtain ⟨x, hstep, hx⟩ := stepsTo_declareInit ⟨name, ty, value, false⟩ later' laters hlimit
      (hinit e rfl) hst hi hcode henv hlookup
    exact (Agree.of_step hstep hx).congr (fun o => Stmt.exec_declareInit) fun _ => Iff.rfl

/-- The block at a position agrees with its tree from every store that fits the scopes, and leaves a
store that fits them. -/
structure BlockAgrees (program : Array Instruction) (m : Machine Unit) (Γ : Scopes)
    (laters : List (List Slot)) (p : Nat) (b : Block) : Prop where
  agree : ∀ st, st.Fits Γ → Agree (Block.Exec b st) (StepsTo program (m.holding p laters st))
    (Settles m laters (p + (b.codeAt p).length))
  fits : ∀ {st st'}, st.Fits Γ → Block.Exec b st (.ok (), st') → st'.Fits Γ

section Branches

variable {line : Nat} {condition : Expr} {yes no body : Block}
  (hlimit : m.limit = .none) (hcondition : condition.Typed Γ) (hst : st.Fits Γ)
include hlimit hcondition hst

/-- A branch and what follows it agree with their code, if they do so on both sides of the
condition. -/
theorem agree_sides {no : Option Block} {target : Nat}
    (hi : program[p]? = some (.jumpIfFalse target))
    (hcode : Code.At program (p + 1) (condition.codeAt (p + 1))) (htarget : target ≤ program.size)
    (hp : p < stop) (hyes : ∀ st', st'.Fits Γ →
      Agree (fun o => ∃ o₁, Block.Exec yes st' o₁ ∧ Then o₁ next o)
        (Reaches program stop (m.holding (p + 1 + (condition.codeAt (p + 1)).length) laters st'))
      (Settles m laters' stop'))
    (hno : ∀ st', st'.Fits Γ → Agree (fun o => ∃ o₁, Block.ExecElse no st' o₁ ∧ Then o₁ next o)
      (Reaches program stop (m.holding target laters st')) (Settles m laters' stop')) :
    Agree (fun o => ∃ o₁, Stmt.Exec slots (.branch line condition yes no) st o₁ ∧ Then o₁ next o)
      (Reaches program stop (m.holding p laters st)) (Settles m laters' stop') := by
  rcases hc : condition.eval st with ⟨e | v, st₁⟩
  · obtain ⟨q, hstep⟩ := stepsTo_condition_fails laters hlimit hcondition hst hi hcode hc
    refine (Agree.of_error hstep hp).congr (fun o => ?_) fun _ => Iff.rfl
    simp only [Stmt.exec_branch_fails hc, exists_eq_left, then_error]
  · have hst₁ := hst.eval hcondition hc
    cases hv : v.isTruthy with
    | true =>
      have hstep := stepsTo_condition_yes laters hlimit hcondition hst hi hcode hc hv
      refine (hyes st₁ hst₁).congr (fun o => ?_) (fun r => reaches_of_ok hstep hp)
      simp only [Stmt.exec_branch_yes hc hv]
    | false =>
      have hstep := stepsTo_condition_no laters hlimit hcondition hst hi hcode htarget hc hv
      refine (hno st₁ hst₁).congr (fun o => ?_) (fun r => reaches_of_ok hstep hp)
      simp only [Stmt.exec_branch_no hc hv]

theorem agree_branch
    (hcode : Code.At program p (Stmt.codeAt p (.branch line condition yes none)))
    (hyes : ∀ {q}, Code.At program q (yes.codeAt q) → BlockAgrees program m Γ laters q yes)
    (hstop : p + (Stmt.codeAt p (.branch line condition yes none)).length ≤ stop)
    (hnext : ∀ st', st'.Fits Γ → Agree (next st')
      (Reaches program stop
        (m.holding (p + (Stmt.codeAt p (.branch line condition yes none)).length) laters st'))
      (Settles m laters' stop')) :
    Agree (fun o => ∃ o₁, Stmt.Exec slots (.branch line condition yes none) st o₁ ∧ Then o₁ next o)
      (Reaches program stop (m.holding p laters st)) (Settles m laters' stop') := by
  simp only [Stmt.stop_branch rfl] at hstop hnext
  obtain ⟨hi, hrest⟩ := Code.at_cons.1 hcode
  obtain ⟨hcond, hblock⟩ := Code.at_append.1 hrest
  have hpos := yes.codeAt_pos (p + 1 + (condition.codeAt (p + 1)).length)
  refine agree_sides hlimit hcondition hst hi hcond hblock.bound (by omega) ?_ ?_
  · intro st₁ hst₁
    exact ((hyes hblock).agree st₁ hst₁).seq next (by rw [position_holding]; omega) fun st₂ h =>
      hnext st₂ ((hyes hblock).fits hst₁ h)
  · intro st₁ hst₁
    refine (hnext st₁ hst₁).congr (fun o => ?_) fun _ => Iff.rfl
    simp only [Block.ExecElse, exists_eq_left, then_ok]

theorem agree_branchElse
    (hcode : Code.At program p (Stmt.codeAt p (.branch line condition yes (some no))))
    (hyes : ∀ {q}, Code.At program q (yes.codeAt q) → BlockAgrees program m Γ laters q yes)
    (hno : ∀ {q}, Code.At program q (no.codeAt q) → BlockAgrees program m Γ laters q no)
    (hstop : p + (Stmt.codeAt p (.branch line condition yes (some no))).length ≤ stop)
    (hnext : ∀ st', st'.Fits Γ → Agree (next st')
      (Reaches program stop
        (m.holding (p + (Stmt.codeAt p (.branch line condition yes (some no))).length) laters st'))
      (Settles m laters' stop')) :
    Agree
      (fun o => ∃ o₁, Stmt.Exec slots (.branch line condition yes (some no)) st o₁ ∧ Then o₁ next o)
      (Reaches program stop (m.holding p laters st)) (Settles m laters' stop') := by
  simp only [Stmt.stop_branchElse rfl rfl] at hstop hnext
  obtain ⟨hi, hrest⟩ := Code.at_cons.1 hcode
  obtain ⟨hfirst, hsecond⟩ := Code.at_append.1 hrest
  obtain ⟨hcond, hyesCode⟩ := Code.at_append.1 hfirst
  rw [List.length_append, ← Nat.add_assoc] at hsecond
  obtain ⟨hjump, hnoCode⟩ := Code.at_cons.1 hsecond
  have hbound := hnoCode.bound
  refine agree_sides hlimit hcondition hst hi hcond (by omega) (by omega) ?_ ?_
  · intro st₁ hst₁
    -- after the first block, the second one is jumped over
    refine ((hyes hyesCode).agree st₁ hst₁).seq next (by rw [position_holding]; omega) fun st₂ h =>
      ?_
    exact (hnext st₂ ((hyes hyesCode).fits hst₁ h)).congr (fun _ => Iff.rfl) fun r =>
      reaches_of_ok (stepsTo_jump hlimit hjump hbound) (by rw [position_holding]; omega)
  · intro st₁ hst₁
    have hpos := no.codeAt_pos (p + 1 + (condition.codeAt (p + 1)).length +
      (yes.codeAt (p + 1 + (condition.codeAt (p + 1)).length)).length + 1)
    exact ((hno hnoCode).agree st₁ hst₁).seq next (by rw [position_holding]; omega) fun st₂ h =>
      hnext st₂ ((hno hnoCode).fits hst₁ h)

theorem agree_loop
    (hcode : Code.At program p (Stmt.codeAt p (.loop line condition body)))
    (hbody : ∀ {q}, Code.At program q (body.codeAt q) → BlockAgrees program m Γ laters q body)
    (hstop : p + (Stmt.codeAt p (.loop line condition body)).length ≤ stop)
    (hnext : ∀ st', st'.Fits Γ → Agree (next st')
      (Reaches program stop
        (m.holding (p + (Stmt.codeAt p (.loop line condition body)).length) laters st'))
      (Settles m laters' stop')) :
    Agree (fun o => ∃ o₁, Stmt.Exec slots (.loop line condition body) st o₁ ∧ Then o₁ next o)
      (Reaches program stop (m.holding p laters st)) (Settles m laters' stop') := by
  simp only [Stmt.stop_loop rfl] at hstop hnext
  obtain ⟨hi, hrest⟩ := Code.at_cons.1 hcode
  obtain ⟨hfirst, hback⟩ := Code.at_append.1 hrest
  obtain ⟨hcond, hbodyCode⟩ := Code.at_append.1 hfirst
  rw [List.length_append, ← Nat.add_assoc] at hback
  obtain ⟨hjump, hafter⟩ := Code.at_cons.1 hback
  have hbound := hcond.bound
  have hloop : LoopAt program m laters p (p + 1 + (condition.codeAt (p + 1)).length)
      (p + 1 + (condition.codeAt (p + 1)).length +
        (body.codeAt (p + 1 + (condition.codeAt (p + 1)).length)).length)
      (p + 1 + (condition.codeAt (p + 1)).length +
        (body.codeAt (p + 1 + (condition.codeAt (p + 1)).length)).length + 1)
      condition body (·.Fits Γ) :=
    { good_eval := fun h heval => h.eval hcondition heval
      good_body := fun h hexec => (hbody hbodyCode).fits h hexec
      agree := fun h => (hbody hbodyCode).agree _ h
      fails := fun h hc => stepsTo_condition_fails laters hlimit hcondition h hi hcond hc
      yes := fun h hc hv => stepsTo_condition_yes laters hlimit hcondition h hi hcond hc hv
      no := fun h hc hv => stepsTo_condition_no laters hlimit hcondition h hi hcond hafter hc hv
      again := stepsTo_jump hlimit hjump (by omega) }
  exact hloop.seq (by omega) (by omega) (by omega) hnext hst

end Branches

theorem execAll_cons {ss : List Stmt} {o : Outcome} :
    ExecAll slots (s :: ss) st o ↔ ∃ o₁, Stmt.Exec slots s st o₁ ∧
    Then o₁ (ExecAll slots ss) o := by
  constructor
  · intro h
    cases h with
    | cons hs hss => exact ⟨_, hs, hss⟩
    | fails hs => exact ⟨_, hs, rfl⟩
  · rintro ⟨⟨r, st'⟩, hs, hthen⟩
    cases r with
    | ok u => exact .cons hs hthen
    | error e =>
      obtain rfl : o = (.error e, st') := hthen
      exact .fails hs

section Trees

variable (hlimit : m.limit = .none) (hindex : IsIndex program.size) (hfresh : fresh)
include hlimit hindex hfresh

mutual

/-- **A statement and what follows it agree with their code**, if what follows it does. -/
theorem agree_statement {Γ Γ' : Scopes} {s : Stmt}
    (h : Stmt.Typed fresh Γ s Γ') :
    ∀ {slots later later' p st stop stop' laters laters' next}, st.Fits Γ →
      slots = Γ.top.slots ++ later → slots = Γ'.top.slots ++ later' →
      Code.At program p (s.codeAt p) → p + (s.codeAt p).length ≤ stop →
      (∀ st', st'.Fits Γ' → Agree (next st')
        (Reaches program stop (m.holding (p + (s.codeAt p).length) (later' :: laters) st'))
        (Settles m laters' stop')) →
      Agree (fun o => ∃ o₁, Stmt.Exec slots s st o₁ ∧ Then o₁ next o)
        (Reaches program stop (m.holding p (later :: laters) st)) (Settles m laters' stop') := by
  intro slots later later' p st stop stop' laters laters' next hst hlater hlater' hcode hstop hnext
  -- all statements but declarations leave the slots to come as they are
  have hsame : Γ' = Γ → later = later' := by
    rintro rfl
    exact List.append_cancel_left (hlater.symm.trans hlater')
  have hfits : ∀ st', Stmt.Exec slots s st (.ok (), st') → st'.Fits Γ' :=
    fun _ hexec => hexec.fits hfresh rfl h hlater' hst
  match h with
  | .branch hc _ hyes =>
    cases hsame rfl
    exact agree_branch hlimit hc hst hcode (fun hat => agree_block hyes hat) hstop hnext
  | .branchElse hc _ hyes hno =>
    cases hsame rfl
    exact agree_branchElse hlimit hc hst hcode (fun hat => agree_block hyes hat)
      (fun hat => agree_block hno hat) hstop hnext
  | .loop hc _ hbody =>
    cases hsame rfl
    exact agree_loop hlimit hc hst hcode (fun hat => agree_block hbody hat) hstop hnext
  | .block hbody =>
    cases hsame rfl
    refine Agree.statement hfits ?_ hstop hnext
    exact ((agree_block hbody hcode).agree st hst).congr (fun o => Stmt.exec_block) fun _ => Iff.rfl
  | .declare hadd =>
    exact (agree_declare hlimit hadd (by simp) hst hlater hlater' hcode).statement hfits hstop hnext
  | .declareInit hinit _ _ hadd =>
    exact (agree_declare hlimit hadd (by simpa using hinit) hst hlater hlater' hcode).statement
      hfits hstop hnext
  | .assign htarget hvalue _ _ =>
    cases hsame rfl
    obtain ⟨x, hstep, hx⟩ :=
      stepsTo_assign (later :: laters) hst hlimit htarget.1.noPoint hvalue hcode
    refine Agree.statement hfits ?_ hstop hnext
    exact (Agree.of_step hstep hx).congr (fun o => Stmt.exec_assign) fun _ => Iff.rfl
  | .perform hcall =>
    cases hsame rfl
    obtain ⟨x, hstep, hx⟩ := stepsTo_perform (later :: laters) hst hlimit hcall hcode
    refine Agree.statement hfits ?_ hstop hnext
    exact (Agree.of_step hstep hx).congr (fun o => Stmt.exec_perform) fun _ => Iff.rfl

/-- **A block agrees with its code.** -/
theorem agree_block {Γ : Scopes} {b : Block}
    (h : Block.Typed fresh Γ b) :
    ∀ {p laters}, Code.At program p (b.codeAt p) → BlockAgrees program m Γ laters p b := by
  intro p laters hcode
  refine ⟨fun st hst => ?_, fun hst hexec => hexec.fits hfresh rfl h hst⟩
  match h with
  | @Block.Typed.mk _ _ slots types ss hss =>
    obtain ⟨more, types', hgrown, hunbound, -⟩ := hss.extends
    obtain ⟨rfl, -⟩ : slots = more ∧ types = types' := by
      simpa [Scopes.extend, Scope.empty] using hgrown
    have hdistinct : (slots.map (·.name)).Nodup := hss.distinct List.nodup_nil
    have hframe := Frame.ofSlots_eq (List.nil_append slots).symm hdistinct (by simp) hunbound
    refine Agree.block hlimit hindex hcode hframe (Γ := Γ) (fun st' hexec => ?_) ?_
    · exact (hexec.fits hfresh rfl hss (List.append_nil slots).symm (hst.enter hss)).leave
        hst.settled hst.nonempty
    · rw [Block.codeAt] at hcode
      exact agree_statements hss (hst.enter hss) rfl (List.append_nil slots).symm
        hcode.2

/-- **Statements agree with their code.** -/
theorem agree_statements {Γ Γ' : Scopes} {ss : List Stmt}
    (h : TypedAll fresh Γ ss Γ') :
    ∀ {slots later p st laters}, st.Fits Γ → slots = Γ.top.slots ++ later →
      slots = Γ'.top.slots ++ [] → Code.At program p (codeOfStatements p ss) →
      Agree (ExecAll slots ss st)
        (Reaches program (p + (codeOfStatements p ss).length) (m.holding p (later :: laters) st))
        (Settles m ([] :: laters) (p + (codeOfStatements p ss).length)) := by
  intro slots later p st laters hst hlater hlater' hcode
  match h with
  | .nil =>
    obtain rfl : later = [] := List.append_cancel_left (hlater.symm.trans hlater')
    refine Agree.congr (P := (· = (.ok (), st)))
      (R := (· = (.ok (), m.holding p ([] :: laters) st)))
      ?_ ?_ ?_
    · intro o
      constructor
      · intro ho
        cases ho
        rfl
      · rintro rfl
        exact .nil
    · intro r
      exact reaches_stop (Nat.le_refl _)
    · exact ⟨fun r hr => ⟨_, rfl, hr⟩, fun o ho => ⟨_, rfl, by subst ho; rfl⟩⟩
  | .cons hs hss =>
    obtain ⟨later', hlater₁⟩ := exists_later hss hlater'
    rw [codeOfStatements] at hcode ⊢
    obtain ⟨hfirst, hrest⟩ := Code.at_append.1 hcode
    rw [List.length_append]
    refine Agree.congr (fun o => execAll_cons) (fun _ => Iff.rfl) ?_
    refine agree_statement hs hst hlater hlater₁ hfirst (by omega) ?_
    intro st' hst'
    rw [← Nat.add_assoc]
    exact agree_statements hss hst' hlater₁ hlater' hrest
  | @TypedAll.record _ _ Δ _ _ _ _ _ hflat hnew hadd hss =>
    have hst' := hst.records hfresh (.record hflat hnew hadd .nil)
    have hsame : Δ.top.slots = Γ.top.slots := by
      obtain ⟨scope, outer, rfl, -, -, rfl⟩ := Scopes.addType_eq_ok hadd
      rfl
    exact agree_statements hss hst' (by rw [hsame]; exact hlater) hlater' hcode

end

end Trees

end Machine

end BindScript
