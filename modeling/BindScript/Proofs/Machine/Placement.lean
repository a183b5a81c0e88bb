/-
**Where code stands.**

The code of an expression names positions only within itself.  So it does not matter where it
stands, in which program, and what is around it: without a limit, a machine at its start comes to
the same value or the same error, and the machine afterwards is the same but for its position.

Main results:

* `Machine.eval_endsAt`, `Machine.evalArgs_endsAt` — **that is what its code does, wherever it
  stands**.
-/

import BindScript.Proofs.Machine.Limit
import BindScript.Proofs.Machine.Segment
import BindScript.Proofs.Typing

namespace BindScript

namespace Machine

variable {σ α β : Type}

/-! ### Machines at other positions -/

/-- The machine at another position. -/
def moved (m : Machine σ) (position : Nat) : Machine σ := { m with position }

/-- Two results that differ in positions only, or none at all. On success the positions are the
given ones, and there is still no limit. -/
inductive Agrees (stop stop' : Nat) : Option (Result σ α) → Option (Result σ α) → Prop
  | none : Agrees stop stop' none none
  | ok (a : α) {m : Machine σ} (hlimit : m.limit = .none) :
      Agrees stop stop' (some (.ok a, m.moved stop)) (some (.ok a, m.moved stop'))
  | error (e : RuntimeError) (m : Machine σ) (p p' : Nat) :
      Agrees stop stop' (some (.error e, m.moved p)) (some (.error e, m.moved p'))

variable {stop stop' stop'' q q' : Nat} {x y z : Option (Result σ α)}

theorem Agrees.symm (h : Agrees stop stop' x y) : Agrees stop' stop y x := by
  cases h with
  | none => exact .none
  | ok a hlimit => exact .ok a hlimit
  | error e m p p' => exact .error e m p' p

/-- The second result is the first one, but for the position. On success that is the given one, and
there is still no limit. -/
inductive EndsAt (stop : Nat) : Option (Result σ α) → Option (Result σ α) → Prop
  | none : EndsAt stop none none
  | ok (a : α) {m : Machine σ} (hlimit : m.limit = .none) :
      EndsAt stop (some (.ok a, m)) (some (.ok a, m.moved stop))
  | error (e : RuntimeError) (m : Machine σ) (p : Nat) :
      EndsAt stop (some (.error e, m)) (some (.error e, m.moved p))

namespace EndsAt

theorem agrees (hx : EndsAt stop z x) (hy : EndsAt stop' z y) : Agrees stop stop' x y := by
  cases hx with
  | none =>
    cases hy
    exact .none
  | ok a hlimit =>
    cases hy
    exact .ok a hlimit
  | error e m p =>
    cases hy
    exact .error e m p _

/-- A value or an error that is given out where it is computed. -/
theorem here (r : Except RuntimeError α) {m : Machine σ} (hlimit : m.limit = .none) :
    EndsAt stop (some (r, m)) (some (r, m.moved stop)) := by
  cases r with
  | ok a => exact .ok a hlimit
  | error e => exact .error e m stop

theorem andThen (h : EndsAt q z x) {k k' : α → Machine σ → Option (Result σ β)}
    (hk : ∀ a (m : Machine σ), m.limit = .none → EndsAt stop (k a m) (k' a (m.moved q))) :
    EndsAt stop (Machine.andThen z k) (Machine.andThen x k') := by
  cases h with
  | none => exact .none
  | ok a hlimit => exact hk a _ hlimit
  | error e m p => exact .error e m p

theorem goesOn (h : EndsAt q z x) {k : α → Machine σ → Option (Result σ α)}
    (hk : ∀ a (m : Machine σ), k a (m.moved q) = some (.ok a, m.moved stop)) :
    EndsAt stop z (Machine.andThen x k) := by
  cases h with
  | none => exact .none
  | ok a hlimit =>
    rw [andThen_ok, hk]
    exact .ok a hlimit
  | error e m p => exact .error e m p

end EndsAt

/-! ### Instructions -/

variable {host : Host σ} {program program' : Array Instruction}

variable {b : Builtin}

section

variable {p p' fuel : Nat} {m : Machine σ}

theorem fetch_moved {i : Instruction} (hlimit : m.limit = .none) (hi : program[p]? = some i) :
    fetch program (m.moved p) = (.ok i, m.moved (p + 1)) :=
  fetch_eq hlimit hi

theorem eval_moved {i : Instruction} (hlimit : m.limit = .none) (hi : program[p]? = some i) :
    eval host program (fuel + 1) (m.moved p) =
      evalFetched host program (eval host program fuel) i (m.moved (p + 1)) := by
  rw [eval_succ, fetch_moved hlimit hi, andThen_ok]

theorem jump_moved {target : Nat} (h : target ≤ program.size) :
    jump program.size target (m.moved p) = (.ok (), m.moved target) := by
  rw [jump, if_pos h]
  rfl

theorem callWithValues_moved (name : String) (args : List Value) (m : Machine σ) (p : Nat) :
    callWithValues host name args (m.moved p) =
      ((callWithValues host name args m).1, (callWithValues host name args m).2.moved p) := by
  unfold callWithValues
  rw [show (m.moved p).host = m.host from rfl]
  cases host.call name args m.host <;> rfl

/-- What a function that takes values does once they are there. -/
def applyValues (host : Host σ) (b : Builtin) (args : List Value) (m : Machine σ) :
    Result σ Value :=
  match completeArgs b args with
  | .error e => (.error e, m)
  | .ok args => callWithValues host b.name args m

theorem applyValues_of_error {args : List Value} {e : RuntimeError}
    (h : completeArgs b args = .error e) (m : Machine σ) :
    applyValues host b args m = (.error e, m) := by
  rw [applyValues, h]

theorem applyValues_of_ok {args all : List Value} (h : completeArgs b args = .ok all)
    (m : Machine σ) :
    applyValues host b args m = callWithValues host b.name all m := by
  rw [applyValues, h]

theorem evalFetched_applyValues (hvalues : b.takesReference = false)
    (ev : Machine σ → Option (Result σ Value)) (argc : Nat) (m : Machine σ) :
    evalFetched host program ev (.call b.name argc) m =
      andThen (collectArgs ev argc m) fun args m => some (applyValues host b args m) := by
  rw [evalFetched_call b.ofName?_name hvalues]
  congr
  funext args m
  unfold applyValues
  cases completeArgs b args <;> rfl

theorem applyValues_endsAt (b : Builtin) (args : List Value) (hlimit : m.limit = .none) :
    EndsAt stop (some (applyValues host b args m))
      (some (applyValues host b args (m.moved stop))) := by
  cases hcomplete : completeArgs b args with
  | error e =>
    rw [applyValues_of_error hcomplete, applyValues_of_error hcomplete]
    exact .error e m stop
  | ok all =>
    rw [applyValues_of_ok hcomplete, applyValues_of_ok hcomplete, callWithValues_moved]
    exact .here _ ((limit_callWithValues b.name all m).trans hlimit)

/-- What a call by reference does with the instruction that it has fetched. -/
theorem updateTarget_endsAt (b : Builtin) (i : Instruction) (hlimit : m.limit = .none) :
    EndsAt stop (some (updateTarget b i m)) (some (updateTarget b i (m.moved stop))) := by
  have hframes : (m.moved stop).frames = m.frames := rfl
  cases i with
  | load target =>
    simp only [updateTarget, hframes]
    cases m.frames.read target with
    | error e => exact .here _ hlimit
    | ok v =>
      cases v with
      | int n =>
        simp only
        cases Value.checkedInt b.name (n.toInt + referenceStep b) with
        | error e => exact .here _ hlimit
        | ok w =>
          simp only [assign, hframes]
          cases m.frames.write target w with
          | error e => exact .here _ hlimit
          | ok frames => exact EndsAt.ok (m := { m with frames }) Value.void hlimit
      | _ => exact .here _ hlimit
  | _ => exact .here _ hlimit

end

/-! ### Expressions -/

end Machine

namespace Expr

open Machine

variable {σ : Type}

/-- What a call by reference does to a machine: it fails unless its argument is a variable. -/
def update (b : Builtin) (args : List Expr) (m : Machine σ) : Result σ Value :=
  match args with
  | [arg] =>
    match arg with
    | .load place => updateTarget b (.load place.fullName) m
    | _ => (.error (.invalidArgument b.name .notVariable), m)
  | args => (.error (.arity b.name 1 args.length), m)

mutual

/-- What an expression does to a machine, apart from its position. -/
def actOn (host : Host σ) : Expr → Machine σ → Option (Result σ Value)
  | .literal _ v, m => evalFetched host #[] (fun _ => none) v.instruction m
  | .load place, m => some (m.frames.read place.fullName, m)
  | .host _ name, m => some (resolve host name m)
  | .negate _ _ operand, m => andThen (operand.actOn host m) fun v m => some (v.negateAny, m)
  | .binary _ op _ left right, m =>
    andThen (left.actOn host m) fun l m => andThen (right.actOn host m) fun r m =>
      some (Value.binary op l r, m)
  | .select _ _ condition yes no, m =>
    andThen (condition.actOn host m) fun v m => if v.isTruthy then yes.actOn host m
      else no.actOn host m
  | .call _ b _ args, m =>
    if b.takesReference then some (update b args m)
    else if args.length ≤ maxArguments then
      andThen (actOnAll host args m) fun values m => some (applyValues host b values m)
    else none

/-- The values of expressions, from the left. -/
def actOnAll (host : Host σ) : List Expr → Machine σ → Option (Result σ (List Value))
  | [], m => some (.ok [], m)
  | e :: es, m =>
    andThen (e.actOn host m) fun v m => andThen (actOnAll host es m)
      fun vs m => some (.ok (v :: vs), m)

end

end Expr

namespace Machine

variable {σ : Type} {host : Host σ} {program : Array Instruction}

/-- A call by reference fetches the first instruction of its argument, and fails unless that is all
of it. -/
theorem callByReference_endsAt (b : Builtin) (args : List Expr) {m : Machine σ}
    (hlimit : m.limit = .none) {p : Nat} (hcode : Code.At program p (Expr.codeOfAll p args)) :
    EndsAt (p + (Expr.codeOfAll p args).length) (some (Expr.update b args m))
      (some (callByReference program b args.length (m.moved p))) := by
  rw [callByReference_eq]
  match args with
  | [] => exact .error _ m p
  | [arg] =>
    simp only [Expr.codeOfAll, List.append_nil] at hcode ⊢
    rw [if_neg (by simp)]
    cases arg with
    | load place =>
      rw [fetch_moved hlimit hcode.1, andThen_ok]
      exact updateTarget_endsAt b (.load place.fullName) hlimit
    | literal line v =>
      rw [fetch_moved hlimit hcode.1, andThen_ok]
      cases v <;> exact .error _ m (p + 1)
    | _ =>
      rw [fetch_moved hlimit hcode.1, andThen_ok]
      exact .error _ m (p + 1)
  | arg :: arg' :: args =>
    rw [if_pos (by simp)]
    exact .error _ m p

mutual

/-- **The code of an expression does what the expression does, wherever it stands.** -/
theorem eval_endsAt (e : Expr) {m : Machine σ} (hlimit : m.limit = .none) {p fuel : Nat}
    (hcode : Code.At program p (e.codeAt p)) (hfuel : (e.codeAt p).length ≤ fuel) :
    EndsAt (p + (e.codeAt p).length) (e.actOn host m) (eval host program fuel (m.moved p)) := by
  have hpos := e.codeAt_pos p
  obtain ⟨fuel, rfl⟩ : ∃ n, fuel = n + 1 := ⟨fuel - 1, by omega⟩
  match e with
  | .literal line v =>
    rw [eval_moved hlimit hcode.1, Expr.actOn]
    cases v <;> exact .ok _ hlimit
  | .load place =>
    rw [eval_moved hlimit hcode.1]
    exact .here (m.frames.read place.fullName) hlimit
  | .host line name =>
    rw [eval_moved hlimit hcode.1]
    exact .here (host.resolve name m.host).1
      (m := { m with host := (host.resolve name m.host).2 }) hlimit
  | .negate line logical operand =>
    simp only [Expr.codeAt, List.length_cons] at hcode hfuel ⊢
    have hstop : ∀ n : Nat, p + (n + 1) = p + 1 + n := by omega
    rw [eval_moved hlimit hcode.1, evalFetched_negate, Expr.actOn, hstop]
    refine (eval_endsAt operand hlimit hcode.2 (by omega)).andThen ?_
    intro v m hlimit
    exact .here v.negateAny hlimit
  | .binary line op ty left right =>
    simp only [Expr.codeAt, List.length_cons, List.length_append] at hcode hfuel ⊢
    obtain ⟨hi, hrest⟩ := Code.at_cons.1 hcode
    obtain ⟨hleft, hright⟩ := Code.at_append.1 hrest
    have hstop : ∀ l r : Nat, p + (l + r + 1) = p + 1 + l + r := by omega
    rw [eval_moved hlimit hi, evalFetched_binary, Expr.actOn, hstop]
    refine (eval_endsAt left hlimit hleft (by omega)).andThen ?_
    intro l m hlimit
    refine (eval_endsAt right hlimit hright (by omega)).andThen ?_
    intro r m hlimit
    exact .here (Value.binary op l r) hlimit
  | .select line ty condition yes no =>
    simp only [Expr.codeAt, List.length_cons, List.length_append] at hcode hfuel ⊢
    obtain ⟨hi, hrest⟩ := Code.at_cons.1 hcode
    obtain ⟨hchoice, hno⟩ := Code.at_append.1 hrest
    obtain ⟨hcondition, hyes⟩ := Code.at_append.1 hchoice
    rw [List.length_append, ← Nat.add_assoc] at hno
    have hstop : ∀ c y n : Nat, p + (c + y + n + 1) = p + 1 + c + y + n := by omega
    rw [eval_moved hlimit hi, evalFetched_select, Expr.actOn, hstop]
    refine (eval_endsAt condition hlimit hcondition (by omega)).andThen ?_
    intro v m hlimit
    cases v.isTruthy with
    | true =>
      -- the value of the first branch is kept while the second one is jumped over
      refine (eval_endsAt yes hlimit hyes (by omega)).goesOn ?_
      intro w m
      rw [jump_moved hno.bound, andThen_ok]
    | false =>
      have hbound := hno.bound
      simp only [Bool.false_eq_true, if_false]
      rw [jump_moved (by omega), andThen_ok]
      exact eval_endsAt no hlimit hno (by omega)
  | .call line b ty args =>
    simp only [Expr.codeAt, List.length_cons] at hcode hfuel ⊢
    obtain ⟨hi, hargs⟩ := Code.at_cons.1 hcode
    have hstop : ∀ n : Nat, p + (n + 1) = p + 1 + n := by omega
    rw [eval_moved hlimit hi, Expr.actOn, hstop]
    cases href : b.takesReference with
    | true =>
      rw [evalFetched_call_reference b.ofName?_name href]
      exact callByReference_endsAt b args hlimit hargs
    | false =>
      rw [evalFetched_applyValues href, if_neg Bool.false_ne_true]
      by_cases hroom : args.length ≤ maxArguments
      · rw [collectArgs_eq hroom, if_pos hroom]
        refine (evalArgs_endsAt args hlimit hargs (by omega)).andThen ?_
        intro values m hlimit
        exact applyValues_endsAt b values hlimit
      · rw [collectArgs, if_neg hroom, if_neg hroom]
        exact .none

theorem evalArgs_endsAt (args : List Expr) {m : Machine σ} (hlimit : m.limit = .none) {p fuel : Nat}
    (hcode : Code.At program p (Expr.codeOfAll p args))
    (hfuel : (Expr.codeOfAll p args).length ≤ fuel) :
    EndsAt (p + (Expr.codeOfAll p args).length) (Expr.actOnAll host args m)
      (evalArgs (eval host program fuel) args.length (m.moved p)) := by
  match args with
  | [] => exact .ok [] hlimit
  | arg :: args =>
    simp only [Expr.codeOfAll, List.length_append] at hcode hfuel ⊢
    obtain ⟨hfirst, hrest⟩ := Code.at_append.1 hcode
    rw [List.length_cons, evalArgs_succ, Expr.actOnAll, ← Nat.add_assoc]
    refine (eval_endsAt arg hlimit hfirst (by omega)).andThen ?_
    intro v m hlimit
    refine (evalArgs_endsAt args hlimit hrest (by omega)).andThen ?_
    intro vs m hlimit
    exact .ok (v :: vs) hlimit

end

/-! ### Programs that are one expression -/

theorem exists_codeAt_eq_cons (e : Expr) (p : Nat) :
    ∃ i rest, e.codeAt p = i :: rest ∧ hasValue i = true := by
  cases e with
  | literal line v => cases v <;> exact ⟨_, _, rfl, rfl⟩
  | _ => exact ⟨_, _, rfl, rfl⟩

theorem runUntil_once {code : Array Instruction} {fuel stop : Nat} {m : Machine σ}
    {x : Result σ Unit} (hpos : m.position < stop) (hstep : step host code fuel m = some x)
    (hstop : ∀ m', x = (.ok (), m') → stop ≤ m'.position) (rounds : Nat) :
    runUntil (step host code fuel) stop (rounds + 2) m = some x := by
  rw [runUntil_succ, if_pos hpos, hstep]
  obtain ⟨e | u, m'⟩ := x
  · rfl
  · have hle := hstop m' rfl
    rw [andThen_ok, runUntil_succ, if_neg (by omega)]

theorem runFuel_once {code : Array Instruction} {limit : Limit} {fuel : Nat} {m : Machine σ}
    {x : Result σ Unit} (hpos : 0 < code.size)
    (hstep : step host code (fuel + 2) (m.reset.withLimit limit) = some x)
    (hstop : ∀ m', x = (.ok (), m') → code.size ≤ m'.position) :
    runFuel host code limit (fuel + 2) m = some (x.1.map fun _ => x.2.lastValue, x.2) := by
  rw [runFuel_eq_andThen, runUntil_once hpos hstep hstop fuel]
  obtain ⟨e | u, m'⟩ := x <;> rfl

/-! ### Room for arguments -/

theorem hasRoom_codeOfAll {args : List Expr} (h : ∀ arg ∈ args, ∀ p, ∀ i ∈ arg.codeAt p, HasRoom i)
    (p : Nat) :
    ∀ i ∈ Expr.codeOfAll p args, HasRoom i := by
  induction args generalizing p with
  | nil => simp [Expr.codeOfAll]
  | cons arg args ih =>
    rw [Expr.codeOfAll, List.forall_mem_append]
    exact ⟨h arg (by simp) p, ih (fun a ha => h a (List.mem_cons_of_mem _ ha)) _⟩

variable {Γ Γ' : Scopes} {fresh : Prop}

/-- The calls of an expression that is well typed have no more arguments than functions take. -/
theorem hasRoom_of_typed {e : Expr} (h : e.Typed Γ) (p : Nat) : ∀ i ∈ e.codeAt p, HasRoom i := by
  induction h generalizing p with
  | @literal line v _ =>
    rw [Expr.codeAt, List.forall_mem_singleton]
    cases v <;> trivial
  | load _ | host =>
    rw [Expr.codeAt, List.forall_mem_singleton]
    trivial
  | negate _ _ ih =>
    rw [Expr.codeAt, List.forall_mem_cons]
    exact ⟨trivial, ih _⟩
  | binary _ _ _ ihl ihr =>
    rw [Expr.codeAt, List.forall_mem_cons, List.forall_mem_append]
    exact ⟨trivial, ihl _, ihr _⟩
  | select _ _ _ _ _ _ ihc ihy ihn =>
    simp only [Expr.codeAt, List.forall_mem_cons, List.forall_mem_append]
    exact ⟨trivial, ⟨ihc _, ihy _⟩, ihn _⟩
  | call _ haccepts ih =>
    rw [Expr.codeAt, List.forall_mem_cons]
    exact ⟨room_of_params haccepts.length_le, hasRoom_codeOfAll ih _⟩

mutual

theorem hasRoom_of_typed_stmt {s : Stmt} {Γ Γ' : Scopes} :
    Stmt.Typed fresh Γ s Γ' → ∀ p, ∀ i ∈ s.codeAt p, HasRoom i
  | .branch hc _ hyes, p => by
      simp only [Stmt.codeAt, List.forall_mem_cons, List.forall_mem_append]
      exact ⟨trivial, hasRoom_of_typed hc _, hasRoom_of_typed_block hyes _⟩
  | .branchElse hc _ hyes hno, p => by
      simp only [Stmt.codeAt, List.forall_mem_cons, List.forall_mem_append]
      exact ⟨trivial, ⟨hasRoom_of_typed hc _, hasRoom_of_typed_block hyes _⟩, trivial,
        hasRoom_of_typed_block hno _⟩
  | .loop hc _ hbody, p => by
      simp only [Stmt.codeAt, List.forall_mem_cons, List.forall_mem_append]
      exact ⟨trivial, ⟨hasRoom_of_typed hc _, hasRoom_of_typed_block hbody _⟩, trivial, by simp⟩
  | .block hbody, p => by
      rw [Stmt.codeAt]
      exact hasRoom_of_typed_block hbody p
  | .declare _, p => by
      rw [Stmt.codeAt, List.forall_mem_cons]
      exact ⟨trivial, by simp [initCode]⟩
  | .declareInit hinit _ _ _, p => by
      rw [Stmt.codeAt, List.forall_mem_cons]
      exact ⟨trivial, hasRoom_of_typed hinit _⟩
  | .assign _ hvalue _ _, p => by
      rw [Stmt.codeAt, List.forall_mem_cons]
      exact ⟨trivial, hasRoom_of_typed hvalue _⟩
  | .perform hcall, p => by
      rw [Stmt.codeAt]
      exact hasRoom_of_typed hcall p

theorem hasRoom_of_typed_block {b : Block} {Γ : Scopes} :
    Block.Typed fresh Γ b → ∀ p, ∀ i ∈ b.codeAt p, HasRoom i
  | .mk hss, p => by
      rw [Block.codeAt, List.forall_mem_cons]
      exact ⟨trivial, hasRoom_of_typed_all hss _⟩

theorem hasRoom_of_typed_all {ss : List Stmt} {Γ Γ' : Scopes} :
    TypedAll fresh Γ ss Γ' → ∀ p, ∀ i ∈ codeOfStatements p ss, HasRoom i
  | .nil, p => by simp [codeOfStatements]
  | .cons hs hss, p => by
      rw [codeOfStatements, List.forall_mem_append]
      exact ⟨hasRoom_of_typed_stmt hs _, hasRoom_of_typed_all hss _⟩
  | .record _ _ _ hss, p => hasRoom_of_typed_all hss p

end

end Machine

end BindScript
