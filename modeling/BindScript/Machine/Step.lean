/-
**Running instructions.**

The machine fetches one instruction after the other.  In the place of an expression it computes a
value; in the place of a statement it runs a block, takes a jump, or computes a value and keeps it
as the last one.  A block is run until the position leaves its range at the end, whatever jumps its
statements take.

Both functions can run for ever, so they take an amount of fuel; without fuel they have no result.
Nor have they one if the machine breaks down.  Each is given by one round that is a function of the
rounds inside it.
-/

import BindScript.Code.Text
import BindScript.Machine.Host
import BindScript.Machine.State
import BindScript.Value.Arithmetic

namespace BindScript.Machine

variable {σ : Type}

/-- A value or an error, and the state after it. -/
abbrev Result (σ α : Type) := Except RuntimeError α × Machine σ

/-! ### The position -/

/-- The next instruction. The clock is asked before anything else. -/
@[inline]
def fetch (code : Array Instruction) (m : Machine σ) : Result σ Instruction :=
  if m.limit.isUp then (.error (.timeout m.limit.span), m)
  else
    match code[m.position]? with
    | none => (.error (.malformed .unexpectedEnd), m)
    | some i => (.ok i, { m with position := m.position + 1, limit := m.limit.later })

/-- Goes to a position in the program, or just past its end. -/
@[inline]
def jump (length target : Nat) (m : Machine σ) : Result σ Unit :=
  if target ≤ length then (.ok (), { m with position := target })
  else (.error (.invalidJumpTarget target length), m)

/-! ### Expressions -/

/-- Assigns a value, as the end of an assignment. -/
def assign (name : String) (v : Value) (m : Machine σ) : Result σ Value :=
  match m.frames.write name v with
  | .ok frames => (.ok .void, { m with frames })
  | .error e => (.error e, m)

/-- Declares a variable, as the end of a declaration. -/
def declare (name : String) (v : Option Value) (m : Machine σ) : Result σ Value :=
  match m.frames.declare name v with
  | .ok frames => (.ok .void, { m with frames })
  | .error e => (.error e, m)

/-- The step of a function that updates its argument. -/
def referenceStep (b : Builtin) : Int := if b = .inc then 1 else -1

/-- The call of a function that updates the variable named by the next instruction. -/
def callByReference (code : Array Instruction) (b : Builtin) (argc : Nat) (m : Machine σ) :
    Result σ Value :=
  if argc ≠ 1 then (.error (.arity b.name 1 argc), m)
  else
    match fetch code m with
    | (.error e, m) => (.error e, m)
    | (.ok (.load target), m) =>
      match m.frames.read target with
      | .error e => (.error e, m)
      | .ok (.int n) =>
        match Value.checkedInt b.name (n.toInt + referenceStep b) with
        | .error e => (.error e, m)
        | .ok v => assign target v m
      | .ok v => (.error (.wrongKind .int v.kind), m)
    | (.ok _, m) => (.error (.invalidArgument b.name .notVariable), m)

/-- The arguments of a call with the defaults that the code left out, or an error if there are too
few or too many. -/
def completeArgs (b : Builtin) (args : List Value) : Except RuntimeError (List Value) :=
  let s := b.signature
  if args.length < s.required ∨ s.params.length < args.length then
    .error (.arity b.name s.params.length args.length)
  else if b = .concat then .ok args
  else .ok (args ++ s.defaultsAfter args.length)

/-- The call of a function with values. The host is asked first. -/
def callWithValues (host : Host σ) (name : String) (args : List Value) (m : Machine σ) :
    Result σ Value :=
  match host.call name args m.host with
  | some (r, s) => (r, { m with host := s })
  | none =>
    let (r, console) := Builtin.callByName name args m.console
    (r, { m with console })

/-- The values of the next `count` expressions. -/
@[specialize]
def evalArgs (eval : Machine σ → Option (Result σ Value)) :
    Nat → Machine σ → Option (Result σ (List Value))
  | 0, m => some (.ok [], m)
  | count + 1, m =>
    match eval m with
    | none => none
    | some (.error e, m) => some (.error e, m)
    | some (.ok v, m) =>
      match evalArgs eval count m with
      | none => none
      | some (.error e, m) => some (.error e, m)
      | some (.ok vs, m) => some (.ok (v :: vs), m)

/-- The longest list of arguments. It takes at most `2 ^ 63 - 1` bytes, and each argument nine
words. -/
def maxArguments : Nat := 0x7fffffffffffffff / 72

/-- The arguments of a call. Room for all of them is made before the first one is evaluated; where
there is not so much room the machine breaks down, and there is no result. -/
@[inline]
def collectArgs (eval : Machine σ → Option (Result σ Value)) (argc : Nat) (m : Machine σ) :
    Option (Result σ (List Value)) :=
  if argc ≤ maxArguments then evalArgs eval argc m else none

@[inline]
def call (host : Host σ) (code : Array Instruction) (eval : Machine σ → Option (Result σ Value))
    (name : String) (argc : Nat) (m : Machine σ) : Option (Result σ Value) :=
  match Builtin.ofName? name with
  | none =>
    match collectArgs eval argc m with
    | none => none
    | some (.error e, m) => some (.error e, m)
    | some (.ok args, m) => some (callWithValues host name args m)
  | some b =>
    if b.takesReference then some (callByReference code b argc m)
    else
      match collectArgs eval argc m with
      | none => none
      | some (.error e, m) => some (.error e, m)
      | some (.ok args, m) =>
        match completeArgs b args with
        | .error e => some (.error e, m)
        | .ok args => some (callWithValues host name args m)

/-- A choice whose condition comes next. -/
@[inline]
def choose (code : Array Instruction) (eval : Machine σ → Option (Result σ Value))
    (otherwise stop : Nat) (m : Machine σ) : Option (Result σ Value) :=
  match eval m with
  | none => none
  | some (.error e, m) => some (.error e, m)
  | some (.ok v, m) =>
    if v.isTruthy then
      match eval m with
      | none => none
      | some (.error e, m) => some (.error e, m)
      | some (.ok v, m) =>
        match jump code.size stop m with
        | (.error e, m) => some (.error e, m)
        | (.ok (), m) => some (.ok v, m)
    else
      match jump code.size otherwise m with
      | (.error e, m) => some (.error e, m)
      | (.ok (), m) => eval m

/-- The value of an instruction that has been fetched in the place of an expression. -/
@[specialize]
def evalFetched (host : Host σ) (code : Array Instruction)
    (eval : Machine σ → Option (Result σ Value)) (i : Instruction) (m : Machine σ) :
    Option (Result σ Value) :=
  match i with
  | .int n => some (.ok (.int n), m)
  | .float x => some (.ok (.float x), m)
  | .string s => some (.ok (.string s), m)
  | .bool b => some (.ok (.bool b), m)
  | .null => some (.ok .null, m)
  | .load name => some (m.frames.read name, m)
  | .loadHost name =>
    let (r, s) := host.resolve name m.host
    some (r, { m with host := s })
  | .assign name =>
    match eval m with
    | none => none
    | some (.error e, m) => some (.error e, m)
    | some (.ok v, m) => some (assign name v m)
  | .declare name false => some (declare name none m)
  | .declare name true =>
    match eval m with
    | none => none
    | some (.error e, m) => some (.error e, m)
    | some (.ok v, m) => some (declare name (some v) m)
  | .call name argc => call host code eval name argc m
  | .select otherwise stop => choose code eval otherwise stop m
  | .negate =>
    match eval m with
    | none => none
    | some (.error e, m) => some (.error e, m)
    | some (.ok v, m) => some (v.negateAny, m)
  | .binary op =>
    match eval m with
    | none => none
    | some (.error e, m) => some (.error e, m)
    | some (.ok l, m) =>
      match eval m with
      | none => none
      | some (.error e, m) => some (.error e, m)
      | some (.ok r, m) => some (Value.binary op l r, m)
  | .block _ _ | .jumpIfFalse _ | .jump _ => some (.error (.malformed (.misplaced i.write)), m)

/-- One round of evaluation: an instruction is fetched, and the expressions that belong to it are
evaluated by `eval`. -/
@[inline]
def evalWith (host : Host σ) (code : Array Instruction)
    (eval : Machine σ → Option (Result σ Value)) (m : Machine σ) : Option (Result σ Value) :=
  match fetch code m with
  | (.error e, m) => some (.error e, m)
  | (.ok i, m) => evalFetched host code eval i m

/-- The value of the expression at the position, in at most `fuel` nested rounds. -/
def eval (host : Host σ) (code : Array Instruction) : Nat → Machine σ → Option (Result σ Value)
  | 0, _ => none
  | fuel + 1, m => evalWith host code (eval host code fuel) m

/-! ### Statements -/

/-- Runs statements, at most `rounds` of them, until the position is at or past `stop`. -/
@[specialize]
def runUntil (step : Machine σ → Option (Result σ Unit)) (stop : Nat) :
    Nat → Machine σ → Option (Result σ Unit)
  | 0, _ => none
  | rounds + 1, m =>
    if m.position < stop then
      match step m with
      | none => none
      | some (.error e, m) => some (.error e, m)
      | some (.ok (), m) => runUntil step stop rounds m
    else some (.ok (), m)

def enter (slots : List Slot) (m : Machine σ) : Machine σ :=
  { m with frames := Frame.ofSlots slots :: m.frames }

/-- Leaves a block. The frame of an outermost block is kept. -/
def leave (m : Machine σ) : Machine σ :=
  match m.frames with
  | [] => { m with finished := none }
  | [f] => { m with frames := [], finished := some f }
  | _ :: outer => { m with frames := outer }

/-- A block whose header has been fetched. An error leaves its frame open. -/
@[inline]
def runBlock (code : Array Instruction) (run : Nat → Machine σ → Option (Result σ Unit))
    (count : Nat) (slots : List Slot) (m : Machine σ) : Option (Result σ Unit) :=
  let stop := Code.advance m.position count
  if code.size < stop then some (.error (.invalidJumpTarget stop code.size), m)
  else
    match run stop (enter slots m) with
    | none => none
    | some (.error e, m) => some (.error e, m)
    | some (.ok (), m) => some (.ok (), leave m)

/-- One round of execution: an instruction is fetched; `eval` evaluates expressions, and `run` runs
statements up to a position. -/
@[inline]
def stepWith (host : Host σ) (code : Array Instruction)
    (eval : Machine σ → Option (Result σ Value)) (run : Nat → Machine σ → Option (Result σ Unit))
    (m : Machine σ) : Option (Result σ Unit) :=
  match fetch code m with
  | (.error e, m) => some (.error e, m)
  | (.ok (.block count slots), m) => runBlock code run count slots m
  | (.ok (.jumpIfFalse target), m) =>
    match eval m with
    | none => none
    | some (.error e, m) => some (.error e, m)
    | some (.ok v, m) => if v.isTruthy then some (.ok (), m) else some (jump code.size target m)
  | (.ok (.jump target), m) => some (jump code.size target m)
  | (.ok i, m) =>
    match evalFetched host code eval i m with
    | none => none
    | some (.error e, m) => some (.error e, m)
    | some (.ok v, m) => some (.ok (), { m with lastValue := some v })

/-- Runs the statement at the position, in at most `fuel` nested rounds. -/
def step (host : Host σ) (code : Array Instruction) : Nat → Machine σ → Option (Result σ Unit)
  | 0, _ => none
  | fuel + 1, m =>
    stepWith host code (eval host code fuel)
      (fun stop m => runUntil (step host code fuel) stop fuel m) m

end BindScript.Machine
