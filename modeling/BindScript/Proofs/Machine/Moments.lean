/-
**The moments of a run.**

What the machine does is a sequence of acts.  It fetches an instruction: as a statement, as an
expression, or as the variable that a function updates.  Or it does what an instruction says, once
the expressions that belong to it have their values.  A moment is a state in which the machine is
about to act, with the act.  A watched computation is the computation of the machine together with
its moments, in their order; it has them also if it fails or has no result.  Watching changes
nothing.

Main results:

* `Machine.result_watchRun`, `Machine.result_watchEvaluate` — **so do runs and
  evaluations**.
-/

import BindScript.Proofs.Machine.Rounds

namespace BindScript.Machine

variable {σ α β : Type}

/-- What an instruction is fetched as. -/
inductive Role where
  | statement
  | expression
  /-- The variable of a function that updates it. -/
  | operand

/-- What the machine is about to do. -/
inductive Act where
  | fetching (role : Role)
  /-- The work of an instruction that was fetched in a role. -/
  | doing (role : Role) (i : Instruction)

/-- A state, and what the machine is about to do in it. -/
structure Moment (σ : Type) where
  act : Act
  state : Machine σ

/-- A computation with its moments. -/
structure Watched (σ α : Type) where
  moments : List (Moment σ)
  result : Option (Result σ α)

/-! ### Watching -/

namespace Watched

/-- A computation without an act. -/
def still (r : Option (Result σ α)) : Watched σ α := ⟨[], r⟩

def act (a : Act) (m : Machine σ) (r : Result σ α) : Watched σ α := ⟨[⟨a, m⟩], some r⟩

/-- A computation, and then another one with its value, unless it failed. -/
def andThen (w : Watched σ α) (k : α → Machine σ → Watched σ β) : Watched σ β :=
  match w.result with
  | none => ⟨w.moments, none⟩
  | some (.error e, m) => ⟨w.moments, some (.error e, m)⟩
  | some (.ok a, m) => ⟨w.moments ++ (k a m).moments, (k a m).result⟩

@[simp] theorem result_still (r : Option (Result σ α)) : (still r).result = r := rfl

@[simp] theorem result_act (a : Act) (m : Machine σ) (r : Result σ α) :
    (act a m r).result = some r := rfl

@[simp] theorem result_andThen (w : Watched σ α) (k : α → Machine σ → Watched σ β) :
    (w.andThen k).result = Machine.andThen w.result fun a m => (k a m).result := by
  unfold andThen
  split
  · rename_i h
    rw [h, andThen_none]
  · rename_i h
    rw [h, andThen_error]
  · rename_i h
    rw [h, andThen_ok]

end Watched

open Watched

def watchFetch (role : Role) (code : Array Instruction) (m : Machine σ) : Watched σ Instruction :=
  act (.fetching role) m (fetch code m)

/-- The values of the next `count` expressions. -/
def watchArgs (ev : Machine σ → Watched σ Value) : Nat → Machine σ → Watched σ (List Value)
  | 0, m => still (some (.ok [], m))
  | count + 1, m =>
    (ev m).andThen fun v m => (watchArgs ev count m).andThen fun vs m =>
      still (some (.ok (v :: vs), m))

/-- The arguments of a call, if there is room for them. -/
def watchCollect (ev : Machine σ → Watched σ Value) (argc : Nat) (m : Machine σ) :
    Watched σ (List Value) :=
  if argc ≤ maxArguments then watchArgs ev argc m else still none

/-- The value of an instruction that has been fetched. -/
def watchFetched (host : Host σ) (code : Array Instruction) (ev : Machine σ → Watched σ Value)
    (role : Role) (i : Instruction) (m : Machine σ) : Watched σ Value :=
  match i with
  | .assign name => (ev m).andThen fun v m => act (.doing role i) m (assign name v m)
  | .declare name true => (ev m).andThen fun v m => act (.doing role i) m (declare name (some v) m)
  | .negate => (ev m).andThen fun v m => act (.doing role i) m (v.negateAny, m)
  | .binary op =>
    (ev m).andThen fun l m => (ev m).andThen fun r m =>
      act (.doing role i) m (Value.binary op l r, m)
  | .select otherwise stop =>
    (ev m).andThen fun v m =>
      if v.isTruthy then
        (ev m).andThen fun v m =>
          (act (.doing role i) m (jump code.size stop m)).andThen fun _ m => still (some (.ok v, m))
      else (act (.doing role i) m (jump code.size otherwise m)).andThen fun _ m => ev m
  | .call name argc =>
    match Builtin.ofName? name with
    | none =>
      (watchCollect ev argc m).andThen fun args m =>
        act (.doing role i) m (callWithValues host name args m)
    | some b =>
      if b.takesReference then
        if argc ≠ 1 then act (.doing role i) m (.error (.arity b.name 1 argc), m)
        else (watchFetch .operand code m).andThen fun j m =>
          act (.doing role i) m (updateTarget b j m)
      else
        (watchCollect ev argc m).andThen fun args m =>
          match completeArgs b args with
          | .error e => act (.doing role i) m (.error e, m)
          | .ok args => act (.doing role i) m (callWithValues host name args m)
  -- No expression belongs to any other instruction.
  | i => ⟨[⟨.doing role i, m⟩], evalFetched host code (fun _ => none) i m⟩

/-- The value of the expression at the position. -/
def watchEval (host : Host σ) (code : Array Instruction) : Nat → Machine σ → Watched σ Value
  | 0, _ => still none
  | fuel + 1, m =>
    (watchFetch .expression code m).andThen fun i m =>
      watchFetched host code (watchEval host code fuel) .expression i m

/-- Statements up to a position. -/
def watchUntil (st : Machine σ → Watched σ Unit) (stop : Nat) : Nat → Machine σ → Watched σ Unit
  | 0, _ => still none
  | rounds + 1, m =>
    if m.position < stop then (st m).andThen fun _ m => watchUntil st stop rounds m
    else still (some (.ok (), m))

/-- What a round does with the instruction that it has fetched. -/
def watchPerform (host : Host σ) (code : Array Instruction) (ev : Machine σ → Watched σ Value)
    (run : Nat → Machine σ → Watched σ Unit) (i : Instruction) (m : Machine σ) : Watched σ Unit :=
  match i with
  | .block count slots =>
    let stop := Code.advance m.position count
    if code.size < stop then
      act (.doing .statement i) m (.error (.invalidJumpTarget stop code.size), m)
    else
      (act (.doing .statement i) m (.ok (), enter slots m)).andThen fun _ m =>
        (run stop m).andThen fun _ m => act (.doing .statement i) m (.ok (), leave m)
  | .jumpIfFalse target =>
    (ev m).andThen fun v m =>
      act (.doing .statement i) m (if v.isTruthy then (.ok (), m) else jump code.size target m)
  | .jump target => act (.doing .statement i) m (jump code.size target m)
  | i =>
    (watchFetched host code ev .statement i m).andThen fun v m =>
      act (.doing .statement i) m (.ok (), { m with lastValue := some v })

/-- The statement at the position. -/
def watchStep (host : Host σ) (code : Array Instruction) : Nat → Machine σ → Watched σ Unit
  | 0, _ => still none
  | fuel + 1, m =>
    (watchFetch .statement code m).andThen fun i m =>
      watchPerform host code (watchEval host code fuel)
        (fun stop m => watchUntil (watchStep host code fuel) stop fuel m) i m

/-- A program from a clean state to its end. -/
def watchRun (host : Host σ) (code : Array Instruction) (limit : Limit) (fuel : Nat)
    (m : Machine σ) : Watched σ (Option Value) :=
  (watchUntil (watchStep host code fuel) code.size fuel (m.reset.withLimit limit)).andThen
    fun _ m =>
    still (some (.ok m.lastValue, m))

/-- The expression at the start of a program, from a clean state. -/
def watchEvaluate (host : Host σ) (code : Array Instruction) (fuel : Nat) (m : Machine σ) :
    Watched σ Value :=
  watchEval host code fuel m.reset

/-! ### Watching changes nothing -/

variable {host : Host σ} {code : Array Instruction} {wev : Machine σ → Watched σ Value}
  {ev : Machine σ → Option (Result σ Value)}

theorem result_watchArgs (hev : ∀ m, (wev m).result = ev m) (count : Nat) (m : Machine σ) :
    (watchArgs wev count m).result = evalArgs ev count m := by
  induction count generalizing m with
  | zero => rfl
  | succ count ih => simp only [watchArgs, evalArgs_succ, result_andThen, result_still, hev, ih]

theorem result_watchCollect (hev : ∀ m, (wev m).result = ev m) (argc : Nat) (m : Machine σ) :
    (watchCollect wev argc m).result = collectArgs ev argc m := by
  unfold watchCollect collectArgs
  split
  · exact result_watchArgs hev argc m
  · rfl

theorem result_watchCall (hev : ∀ m, (wev m).result = ev m) (role : Role) (name : String)
    (argc : Nat) (m : Machine σ) :
    (watchFetched host code wev role (.call name argc) m).result =
      evalFetched host code ev (.call name argc) m := by
  cases hname : Builtin.ofName? name with
  | none =>
    rw [evalFetched_call_unknown hname]
    simp only [watchFetched, hname, result_andThen, result_act, result_watchCollect hev]
  | some b =>
    cases href : b.takesReference with
    | true =>
      rw [evalFetched_call_reference hname href, callByReference_eq]
      simp only [watchFetched, hname, href, if_true]
      split
      · rfl
      · simp only [watchFetch, result_andThen, result_act]
    | false =>
      rw [evalFetched_call hname href]
      simp only [watchFetched, hname, href, Bool.false_eq_true, if_false, result_andThen,
        result_watchCollect hev]
      congr 1
      funext args m
      cases completeArgs b args <;> rfl

theorem result_watchFetched (hev : ∀ m, (wev m).result = ev m) (role : Role) (i : Instruction)
    (m : Machine σ) :
    (watchFetched host code wev role i m).result = evalFetched host code ev i m := by
  cases i with
  | assign name => simp only [watchFetched, evalFetched_assign, result_andThen, result_act, hev]
  | declare name init =>
    cases init with
    | false => rfl
    | true => simp only [watchFetched, evalFetched_declare, result_andThen, result_act, hev]
  | negate => simp only [watchFetched, evalFetched_negate, result_andThen, result_act, hev]
  | binary op => simp only [watchFetched, evalFetched_binary, result_andThen, result_act, hev]
  | select otherwise stop =>
    simp only [watchFetched, evalFetched_select, result_andThen, hev]
    congr 1
    funext v m
    split
    · simp only [result_andThen, result_act, result_still, hev]
    · simp only [result_andThen, result_act, hev]
  | call name argc => exact result_watchCall hev role name argc m
  | _ => rfl

theorem result_watchEval (host : Host σ) (code : Array Instruction) (fuel : Nat) (m : Machine σ) :
    (watchEval host code fuel m).result = eval host code fuel m := by
  induction fuel generalizing m with
  | zero => rfl
  | succ fuel ih =>
    simp only [watchEval, watchFetch, eval_succ, result_andThen, result_act, result_watchFetched ih]

variable {wst : Machine σ → Watched σ Unit} {st : Machine σ → Option (Result σ Unit)}
  {wrun : Nat → Machine σ → Watched σ Unit} {run : Nat → Machine σ → Option (Result σ Unit)}

theorem result_watchUntil (hst : ∀ m, (wst m).result = st m) (stop rounds : Nat) (m : Machine σ) :
    (watchUntil wst stop rounds m).result = runUntil st stop rounds m := by
  induction rounds generalizing m with
  | zero => rfl
  | succ rounds ih =>
    rw [watchUntil, runUntil_succ]
    split
    · simp only [result_andThen, hst, ih]
    · rfl

theorem watchPerform_of_hasValue {i : Instruction} (h : hasValue i = true) (m : Machine σ) :
    watchPerform host code wev wrun i m =
      (watchFetched host code wev .statement i m).andThen fun v m =>
        act (.doing .statement i) m (.ok (), { m with lastValue := some v }) := by
  cases i with
  | block count slots | jumpIfFalse target | jump target => simp [hasValue] at h
  | _ => rfl

theorem result_watchPerform (hev : ∀ m, (wev m).result = ev m)
    (hrun : ∀ stop m, (wrun stop m).result = run stop m) (i : Instruction) (m : Machine σ) :
    (watchPerform host code wev wrun i m).result = perform host code ev run i m := by
  cases i with
  | block count slots =>
    simp only [watchPerform, perform]
    split
    · rfl
    · simp only [result_andThen, result_act, hrun, andThen_ok]
  | jumpIfFalse target =>
    simp only [watchPerform, perform, result_andThen, result_act, hev]
    congr 1
    funext v m
    split <;> rfl
  | jump target => rfl
  | _ =>
    rw [perform_of_hasValue rfl, watchPerform_of_hasValue rfl]
    simp only [result_andThen, result_act, result_watchFetched hev]

theorem result_watchStep (host : Host σ) (code : Array Instruction) (fuel : Nat) (m : Machine σ) :
    (watchStep host code fuel m).result = step host code fuel m := by
  induction fuel generalizing m with
  | zero => rfl
  | succ fuel ih =>
    simp only [watchStep, watchFetch, step_succ, result_andThen, result_act]
    congr 1
    funext i m
    exact result_watchPerform (result_watchEval host code fuel)
      (fun stop m => result_watchUntil ih stop fuel m) i m

theorem result_watchRun (host : Host σ) (code : Array Instruction) (limit : Limit) (fuel : Nat)
    (m : Machine σ) :
    (watchRun host code limit fuel m).result = runFuel host code limit fuel m := by
  simp only [watchRun, runFuel_eq_andThen, result_andThen, result_still,
    result_watchUntil (result_watchStep host code fuel)]

theorem result_watchEvaluate (host : Host σ) (code : Array Instruction) (fuel : Nat)
    (m : Machine σ) :
    (watchEvaluate host code fuel m).result = evaluateFuel host code fuel m :=
  result_watchEval host code fuel m.reset

end BindScript.Machine
