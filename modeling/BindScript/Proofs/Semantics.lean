/-
**The meaning of trees.**

A structured semantics, given by rules on the tree itself.  A store has a table of variables for
every open block.  Expressions are evaluated from the left and give a value or an error; statements
end normally or with an error, or do not end at all, and then no rule gives them an outcome.

* a block opens a scope for its statements and closes it at their end; an error leaves it open;
* a declaration evaluates its initializer before the name is bound, and binds it in the innermost
  scope;
* an assignment changes the innermost variable of its name;
* a branch runs one of its blocks, or none; a loop tests its condition again after every round.

Main definitions:

* `Env`, `Store` — the variables in sight, and all that a program can change;
* `Expr.eval`, `Expr.evalAll` — expressions;
* `Stmt.Exec`, `Block.Exec`, `ExecAll` — statements and blocks;
* `Block.Runs` — whole programs.
-/

import BindScript.Machine.State
import BindScript.Value.Arithmetic

namespace BindScript

/-! ### Variables -/

/-- The variables in sight with their values: a table for every open block, the innermost first. -/
abbrev Env := List (Table Value)

namespace Env

/-- The value of the innermost variable of a name. -/
def lookup? (env : Env) (name : String) : Option Value :=
  env.findSome? fun scope => scope.lookup name

/-- The value at a place. -/
def read (env : Env) (p : Place) : Except RuntimeError Value :=
  match (env.lookup? p.name).bind fun v => v.leaf? p.path with
  | some v => .ok v
  | none => .error (.undefinedVariable p.fullName)

/-- The variables with a change to the innermost one of a name; none if there is no such variable,
or if the change is not possible. -/
def update? (name : String) (change : Value → Option Value) : Env → Option Env
  | [] => none
  | scope :: outer =>
    match scope.lookup name with
    | some v => (change v).map fun v => Table.replace name (fun _ => v) scope :: outer
    | none => (update? name change outer).map (scope :: ·)

/-- Sets the value at a place. -/
def write (env : Env) (p : Place) (v : Value) : Except RuntimeError Env :=
  match update? p.name (Value.withLeaf? p.path v) env with
  | some env => .ok env
  | none => .error (.undefinedVariable p.fullName)

/-- Binds a name in the innermost scope. -/
def declare (env : Env) (name : String) (v : Value) : Env :=
  match env with
  | [] => [[(name, v)]]
  | scope :: outer => (scope ++ [(name, v)]) :: outer

/-- The value of a variable, or of a leaf of it if the name has a point. -/
def valueOf? (env : Env) (name : String) : Option Value :=
  (env.lookup? (splitName name).1).bind fun v => v.leaf? (splitName name).2

end Env

/-- The variables that a block begins with: those of its slots that are bound. -/
def boundValues (slots : List Slot) : Table Value :=
  (slots.filter (·.bound)).map fun s => (s.name, s.value)

/-- What a variable starts as when its declaration gives no value: the zero of a primitive type, and
for a record the zero record that its block lists. -/
def startValue (slots : List Slot) (name : String) : Ty → Value
  | .record _ => ((slots.find? fun s => s.name == name).map (·.value)).getD .null
  | ty => Value.zero ty

/-- All that a program can change: its variables, its console and the value of the last
statement. -/
structure Store where
  env : Env
  console : Console
  last : Option Value

namespace Store

def enter (st : Store) (values : Table Value) : Store := { st with env := values :: st.env }

def leave (st : Store) : Store := { st with env := st.env.drop 1 }

/-- Keeps the value of a statement. -/
def withLast (st : Store) (v : Value) : Store := { st with last := some v }

/-- Binds a name in the innermost scope, as the end of a declaration. -/
def declare (st : Store) (name : String) (v : Value) : Store :=
  { st with env := st.env.declare name v, last := some .void }

/-- Sets the value at a place; that has no value of its own. -/
def write (st : Store) (p : Place) (v : Value) : Except RuntimeError Value × Store :=
  match st.env.write p v with
  | .error e => (.error e, st)
  | .ok env => (.ok .void, { st with env })

end Store

/-! ### Expressions -/

/-- One evaluation after another: the second one gets value and store of the first, unless that
failed. -/
def chain {α β : Type} (r : Except RuntimeError α × Store)
    (next : α → Store → Except RuntimeError β × Store) : Except RuntimeError β × Store :=
  match r with
  | (.error e, st) => (.error e, st)
  | (.ok a, st) => next a st

theorem chain_chain {α β γ : Type} (r : Except RuntimeError α × Store)
    (next : α → Store → Except RuntimeError β × Store)
    (last : β → Store → Except RuntimeError γ × Store) :
    chain (chain r next) last = chain r fun a st => chain (next a st) last := by
  obtain ⟨_ | _, _⟩ := r <;> rfl

/-- Adds one to the integer at a place, or takes one from it. -/
def adjust (f : Builtin) (p : Place) (st : Store) : Except RuntimeError Value × Store :=
  match st.env.read p with
  | .error e => (.error e, st)
  | .ok (.int n) =>
    match Value.checkedInt f.name (if f = .inc then n.toInt + 1 else n.toInt - 1) with
    | .error e => (.error e, st)
    | .ok v => st.write p v
  | .ok v => (.error (.wrongKind .int v.kind), st)

namespace Expr

mutual

/-- The value of an expression, or its error, and the store after it. There is no host. -/
def eval : Expr → Store → Except RuntimeError Value × Store
  | .literal _ v, st => (.ok v, st)
  | .load p, st => (st.env.read p, st)
  | .host _ name, st => (.error (.unsupported ("@" ++ name)), st)
  | .negate _ logical operand, st => chain (operand.eval st) fun v st => (v.negate logical, st)
  | .binary _ op _ left right, st =>
    chain (left.eval st) fun l st => chain (right.eval st) fun r st => (Value.binary op l r, st)
  | .select _ _ condition yes no, st =>
    chain (condition.eval st) fun v st => if v.isTruthy then yes.eval st else no.eval st
  | .call _ f _ args, st =>
    if f.takesReference then
      match args with
      | [.load p] => adjust f p st
      | _ => (.error (.invalidArgument f.name .notVariable), st)
    else
      chain (evalAll args st) fun values st =>
        ((f.call values st.console).1, { st with console := (f.call values st.console).2 })

def evalAll : List Expr → Store → Except RuntimeError (List Value) × Store
  | [], st => (.ok [], st)
  | e :: es, st =>
    chain (e.eval st) fun v st => chain (evalAll es st) fun vs st => (.ok (v :: vs), st)

end

theorem eval_call {f : Builtin} (h : f.takesReference = false) (line : Nat) (ty : Ty)
    (args : List Expr) (st : Store) :
    eval (.call line f ty args) st =
      chain (evalAll args st) fun values st =>
        ((f.call values st.console).1, { st with console := (f.call values st.console).2 }) := by
  rw [eval.eq_def]
  simp [h]

end Expr

/-! ### Statements -/

/-- How statements end: normally or with an error, and the store after them. -/
abbrev Outcome := Except RuntimeError Unit × Store

mutual

/-- A statement directly in a block with these slots ends with an outcome. -/
inductive Stmt.Exec : List Slot → Stmt → Store → Outcome → Prop
  | branchFails {slots line condition yes no st e st'} :
      condition.eval st = (.error e, st') →
      Stmt.Exec slots (.branch line condition yes no) st (.error e, st')
  | branchYes {slots line condition yes no st v st' o} :
      condition.eval st = (.ok v, st') → v.isTruthy = true → Block.Exec yes st' o →
      Stmt.Exec slots (.branch line condition yes no) st o
  | branchNo {slots line condition yes no st v st' o} :
      condition.eval st = (.ok v, st') → v.isTruthy = false → Block.Exec no st' o →
      Stmt.Exec slots (.branch line condition yes (some no)) st o
  | branchSkip {slots line condition yes st v st'} :
      condition.eval st = (.ok v, st') → v.isTruthy = false →
      Stmt.Exec slots (.branch line condition yes none) st (.ok (), st')
  | loopFails {slots line condition body st e st'} :
      condition.eval st = (.error e, st') →
      Stmt.Exec slots (.loop line condition body) st (.error e, st')
  | loopStop {slots line condition body st v st'} :
      condition.eval st = (.ok v, st') → v.isTruthy = false →
      Stmt.Exec slots (.loop line condition body) st (.ok (), st')
  | loopBodyFails {slots line condition body st v st' e st''} :
      condition.eval st = (.ok v, st') → v.isTruthy = true → Block.Exec body st' (.error e, st'') →
      Stmt.Exec slots (.loop line condition body) st (.error e, st'')
  | loopNext {slots line condition body st v st' st'' o} :
      condition.eval st = (.ok v, st') → v.isTruthy = true → Block.Exec body st' (.ok (), st'') →
      Stmt.Exec slots (.loop line condition body) st'' o →
      Stmt.Exec slots (.loop line condition body) st o
  | block {slots line body st o} :
      Block.Exec body st o → Stmt.Exec slots (.block line body) st o
  | declare {slots line name ty st} :
      Stmt.Exec slots (.declare line name ty none) st
        (.ok (), st.declare name (startValue slots name ty))
  | declareFails {slots line name ty init st e st'} :
      init.eval st = (.error e, st') →
      Stmt.Exec slots (.declare line name ty (some init)) st (.error e, st')
  | declareInit {slots line name ty init st v st'} :
      init.eval st = (.ok v, st') →
      Stmt.Exec slots (.declare line name ty (some init)) st (.ok (), st'.declare name v)
  | assignFails {slots line target value st e st'} :
      value.eval st = (.error e, st') →
      Stmt.Exec slots (.assign line target value) st (.error e, st')
  | assignMissing {slots line target value st v st' e} :
      value.eval st = (.ok v, st') → st'.env.write target v = .error e →
      Stmt.Exec slots (.assign line target value) st (.error e, st')
  | assign {slots line target value st v st' env} :
      value.eval st = (.ok v, st') → st'.env.write target v = .ok env →
      Stmt.Exec slots (.assign line target value) st (.ok (), { st' with env, last := some .void })
  | performFails {slots call st e st'} :
      call.eval st = (.error e, st') → Stmt.Exec slots (.perform call) st (.error e, st')
  | perform {slots call st v st'} :
      call.eval st = (.ok v, st') → Stmt.Exec slots (.perform call) st (.ok (), st'.withLast v)

/-- A block ends with an outcome. -/
inductive Block.Exec : Block → Store → Outcome → Prop
  | ends {slots types statements st st'} :
      ExecAll slots statements (st.enter (boundValues slots)) (.ok (), st') →
      Block.Exec (.mk slots types statements) st (.ok (), st'.leave)
  | fails {slots types statements st e st'} :
      ExecAll slots statements (st.enter (boundValues slots)) (.error e, st') →
      Block.Exec (.mk slots types statements) st (.error e, st')

/-- The statements of a block with these slots, one after the other, end with an outcome. -/
inductive ExecAll : List Slot → List Stmt → Store → Outcome → Prop
  | nil {slots st} : ExecAll slots [] st (.ok (), st)
  | cons {slots s ss st st' o} :
      Stmt.Exec slots s st (.ok (), st') → ExecAll slots ss st' o → ExecAll slots (s :: ss) st o
  | fails {slots s ss st e st'} :
      Stmt.Exec slots s st (.error e, st') → ExecAll slots (s :: ss) st (.error e, st')

end

/-- A program ends with an outcome. Its outermost scope, which holds the globals from the start, is
kept open, so that the outcome has the values of all outermost variables. -/
def Block.Runs (root : Block) (console : Console) (o : Outcome) : Prop :=
  ExecAll root.slots root.statements ⟨[boundValues root.slots], console, none⟩ o

end BindScript
