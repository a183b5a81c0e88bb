/-
**Rounds of the machine.**

A round of the machine is a chain of smaller computations: it stops at the first one that fails or
has no result, and hands value and state on otherwise. `andThen` is this chaining; the equations
below write every kind of round with it.

Main results:

* `Machine.andThen_eq_some` — how a chain comes to its result;
* `Machine.evalFetched_call`, `Machine.step_succ` and their like — the rounds as chains.
-/

import BindScript.Machine.Run

namespace BindScript.Machine

variable {σ α β : Type}

/-! ### Chains -/

/-- A computation, and then another one with its value, unless it failed. -/
def andThen (r : Option (Result σ α)) (k : α → Machine σ → Option (Result σ β)) :
    Option (Result σ β) :=
  match r with
  | none => none
  | some (.error e, m) => some (.error e, m)
  | some (.ok a, m) => k a m

@[simp] theorem andThen_none (k : α → Machine σ → Option (Result σ β)) : andThen none k = none :=
  rfl

@[simp] theorem andThen_error (e : RuntimeError) (m : Machine σ)
    (k : α → Machine σ → Option (Result σ β)) :
    andThen (some (.error e, m)) k = some (.error e, m) := rfl

@[simp] theorem andThen_ok (a : α) (m : Machine σ) (k : α → Machine σ → Option (Result σ β)) :
    andThen (some (.ok a, m)) k = k a m := rfl

/-- A chain has a result if its first part failed with it, or if the second part comes to it. -/
theorem andThen_eq_some {r : Option (Result σ α)} {k : α → Machine σ → Option (Result σ β)}
    {x : Result σ β} :
    andThen r k = some x ↔
      (∃ e m, r = some (.error e, m) ∧ x = (.error e, m)) ∨
        ∃ a m, r = some (.ok a, m) ∧ k a m = some x := by
  cases r with
  | none => simp
  | some y =>
    obtain ⟨y, m⟩ := y
    cases y with
    | error e =>
      constructor
      · intro h
        exact .inl ⟨e, m, rfl, by simpa using h.symm⟩
      · rintro (⟨e', m', heq, rfl⟩ | ⟨a, m', heq, -⟩)
        · rw [andThen_error]
          simpa using heq
        · simp at heq
    | ok a =>
      constructor
      · intro h
        exact .inr ⟨a, m, rfl, h⟩
      · rintro (⟨e, m', heq, -⟩ | ⟨a', m', heq, h⟩)
        · simp at heq
        · obtain ⟨rfl, rfl⟩ : a = a' ∧ m = m' := by simpa using heq
          exact h

/-! ### Rounds as chains -/

variable {host : Host σ} {code : Array Instruction} {ev : Machine σ → Option (Result σ Value)}
  {m : Machine σ}

theorem evalArgs_succ (count : Nat) :
    evalArgs ev (count + 1) m =
      andThen (ev m) fun v m => andThen (evalArgs ev count m) fun vs m =>
        some (.ok (v :: vs), m) := by
  rw [evalArgs]
  rcases ev m with _ | ⟨_ | v, m₁⟩
  · rfl
  · rfl
  · simp only [andThen_ok]
    rcases evalArgs ev count m₁ with _ | ⟨_ | _, _⟩ <;> rfl

theorem evalFetched_assign (name : String) :
    evalFetched host code ev (.assign name) m =
      andThen (ev m) fun v m => some (assign name v m) := by
  rw [evalFetched]
  rcases ev m with _ | ⟨_ | _, _⟩ <;> rfl

theorem evalFetched_declare (name : String) :
    evalFetched host code ev (.declare name true) m =
      andThen (ev m) fun v m => some (declare name (some v) m) := by
  rw [evalFetched]
  rcases ev m with _ | ⟨_ | _, _⟩ <;> rfl

theorem evalFetched_negate :
    evalFetched host code ev .negate m = andThen (ev m) fun v m => some (v.negateAny, m) := by
  rw [evalFetched]
  rcases ev m with _ | ⟨_ | _, _⟩ <;> rfl

theorem evalFetched_binary (op : Operator) :
    evalFetched host code ev (.binary op) m =
      andThen (ev m) fun l m => andThen (ev m) fun r m => some (Value.binary op l r, m) := by
  rw [evalFetched]
  rcases ev m with _ | ⟨_ | l, m₁⟩
  · rfl
  · rfl
  · simp only [andThen_ok]
    rcases ev m₁ with _ | ⟨_ | _, _⟩ <;> rfl

theorem evalFetched_select (otherwise stop : Nat) :
    evalFetched host code ev (.select otherwise stop) m =
      andThen (ev m) fun v m =>
        if v.isTruthy then
          andThen (ev m) fun v m => andThen (some (jump code.size stop m))
            fun _ m => some (.ok v, m)
        else andThen (some (jump code.size otherwise m)) fun _ m => ev m := by
  rw [evalFetched, choose]
  rcases ev m with _ | ⟨_ | v, m₁⟩
  · rfl
  · rfl
  · simp only [andThen_ok]
    cases v.isTruthy with
    | true =>
      simp only [if_true]
      rcases ev m₁ with _ | ⟨_ | _, m₂⟩
      · rfl
      · rfl
      · simp only [andThen_ok]
        rcases jump code.size stop m₂ with ⟨_ | _, _⟩ <;> rfl
    | false =>
      simp only [Bool.false_eq_true, if_false]
      rcases jump code.size otherwise m₁ with ⟨_ | _, _⟩ <;> rfl

/-- Where there is room for the arguments they are evaluated. -/
theorem collectArgs_eq {argc : Nat} (h : argc ≤ maxArguments) :
    collectArgs ev argc m = evalArgs ev argc m := if_pos h

variable {name : String}

/-- The call of a function that is in the catalog and takes values. -/
theorem evalFetched_call {b : Builtin} (hname : Builtin.ofName? name = some b)
    (hvalues : b.takesReference = false) (argc : Nat) :
    evalFetched host code ev (.call name argc) m =
      andThen (collectArgs ev argc m) fun args m =>
        match completeArgs b args with
        | .error e => some (.error e, m)
        | .ok args => some (callWithValues host name args m) := by
  simp only [evalFetched, call, hname, hvalues, Bool.false_eq_true, if_false]
  rcases collectArgs ev argc m with _ | ⟨_ | args, _⟩
  · rfl
  · rfl
  · cases hargs : completeArgs b args <;> simp only [andThen_ok, hargs]

theorem evalFetched_call_unknown (hname : Builtin.ofName? name = none) (argc : Nat) :
    evalFetched host code ev (.call name argc) m =
      andThen (collectArgs ev argc m) fun args m => some (callWithValues host name args m) := by
  simp only [evalFetched, call, hname]
  rcases collectArgs ev argc m with _ | ⟨_ | _, _⟩ <;> rfl

theorem evalFetched_call_reference {b : Builtin} (hname : Builtin.ofName? name = some b)
    (href : b.takesReference = true) (argc : Nat) :
    evalFetched host code ev (.call name argc) m = some (callByReference code b argc m) := by
  simp only [evalFetched, call, hname, href, if_true]

/-- What a call by reference does with the instruction that it has fetched. -/
def updateTarget (b : Builtin) (i : Instruction) (m : Machine σ) : Result σ Value :=
  match i with
  | .load target =>
    match m.frames.read target with
    | .error e => (.error e, m)
    | .ok (.int n) =>
      match Value.checkedInt b.name (n.toInt + referenceStep b) with
      | .error e => (.error e, m)
      | .ok v => assign target v m
    | .ok v => (.error (.wrongKind .int v.kind), m)
  | _ => (.error (.invalidArgument b.name .notVariable), m)

theorem callByReference_eq (b : Builtin) (argc : Nat) :
    some (callByReference code b argc m) =
      if argc ≠ 1 then some (.error (.arity b.name 1 argc), m)
      else andThen (some (fetch code m)) fun i m => some (updateTarget b i m) := by
  unfold callByReference
  split
  · rfl
  · rcases fetch code m with ⟨e | i, m₁⟩
    · rfl
    · cases i <;> rfl

/-- What a fetch that succeeds gives, and where it leaves the machine. -/
theorem fetch_eq_ok {i : Instruction} {m' : Machine σ} (h : fetch code m = (.ok i, m')) :
    code[m.position]? = some i ∧
      m' = { m with position := m.position + 1, limit := m.limit.later } := by
  unfold fetch at h
  split at h
  · exact absurd (congrArg Prod.fst h) (by simp)
  · split at h
    · exact absurd (congrArg Prod.fst h) (by simp)
    · rename_i j hj
      obtain ⟨hok, rfl⟩ := Prod.mk.inj h
      exact ⟨by rw [hj, Except.ok.inj hok], rfl⟩

theorem eval_succ (fuel : Nat) :
    eval host code (fuel + 1) m =
      andThen (some (fetch code m)) fun i m => evalFetched host code (eval host code fuel) i m := by
  rw [eval, evalWith]
  rcases fetch code m with ⟨_ | _, _⟩ <;> rfl

variable {st : Machine σ → Option (Result σ Unit)}

theorem runUntil_succ (stop rounds : Nat) :
    runUntil st stop (rounds + 1) m =
      if m.position < stop then andThen (st m) fun _ m => runUntil st stop rounds m
      else some (.ok (), m) := by
  rw [runUntil]
  rcases st m with _ | ⟨_ | _, _⟩ <;> rfl

/-- Closing a block takes its frame away, and changes nothing else but the frame that is kept. -/
theorem leave_eq (m : Machine σ) :
    leave m = { m with frames := m.frames.tail, finished := (leave m).finished } := by
  obtain ⟨position, frames, finished, limit, console, lastValue, lastError, host⟩ := m
  rcases frames with _ | ⟨f, _ | ⟨g, frames⟩⟩ <;> rfl

variable {run : Nat → Machine σ → Option (Result σ Unit)}

/-- What a round does with the instruction that it has fetched. -/
def perform (host : Host σ) (code : Array Instruction) (ev : Machine σ → Option (Result σ Value))
    (run : Nat → Machine σ → Option (Result σ Unit)) (i : Instruction) (m : Machine σ) :
    Option (Result σ Unit) :=
  match i with
  | .block count slots =>
    let stop := Code.advance m.position count
    if code.size < stop then some (.error (.invalidJumpTarget stop code.size), m)
    else andThen (run stop (enter slots m)) fun _ m => some (.ok (), leave m)
  | .jumpIfFalse target =>
    andThen (ev m) fun v m =>
      if v.isTruthy then some (.ok (), m) else some (jump code.size target m)
  | .jump target => some (jump code.size target m)
  | i =>
    andThen (evalFetched host code ev i m) fun v m => some (.ok (), { m with lastValue := some v })

/-- The instructions that have a value. -/
def hasValue : Instruction → Bool
  | .block _ _ | .jumpIfFalse _ | .jump _ => false
  | _ => true

theorem perform_of_hasValue {i : Instruction} (h : hasValue i = true) :
    perform host code ev run i m =
      andThen (evalFetched host code ev i m) fun v m =>
        some (.ok (), { m with lastValue := some v }) := by
  cases i with
  | block count slots => simp [hasValue] at h
  | jumpIfFalse target => simp [hasValue] at h
  | jump target => simp [hasValue] at h
  | _ => rfl

theorem stepWith_eq :
    stepWith host code ev run m =
      andThen (some (fetch code m)) fun i m => perform host code ev run i m := by
  rw [stepWith]
  rcases fetch code m with ⟨e | i, m⟩
  · rfl
  · simp only [andThen_ok]
    cases i with
    | block count slots =>
      simp only [runBlock, perform]
      split
      · rfl
      · rcases run (Code.advance m.position count) (enter slots m) with _ | ⟨_ | _, _⟩ <;> rfl
    | jumpIfFalse target =>
      simp only [perform]
      rcases ev m with _ | ⟨_ | _, _⟩ <;> rfl
    | jump target => rfl
    | _ =>
      simp only [perform]
      generalize evalFetched host code ev _ m = r
      rcases r with _ | ⟨_ | _, _⟩ <;> rfl

theorem step_succ (fuel : Nat) :
    step host code (fuel + 1) m =
      andThen (some (fetch code m)) fun i m =>
        perform host code (eval host code fuel)
          (fun stop m => runUntil (step host code fuel) stop fuel m) i m := stepWith_eq

theorem runFuel_eq_andThen (limit : Limit) (fuel : Nat) :
    runFuel host code limit fuel m =
      andThen (runUntil (step host code fuel) code.size fuel (m.reset.withLimit limit)) fun _ m =>
        some (.ok m.lastValue, m) := by
  rw [runFuel]
  generalize runUntil (step host code fuel) code.size fuel (m.reset.withLimit limit) = r
  rcases r with _ | ⟨_ | _, _⟩ <;> rfl

end BindScript.Machine
