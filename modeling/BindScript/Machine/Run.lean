/-
**Runs of programs.**

A run starts from a clean state and goes on to the end of the program, or until its time is up.  A
run that does not end with the fuel that it is given has no result.
-/

import BindScript.Machine.Step

namespace BindScript.Machine

variable {σ : Type}

def withLimit (limit : Limit) (m : Machine σ) : Machine σ := { m with limit }

/-- Runs a program from a clean state to its end, in at most `fuel` rounds; gives the value of the
last statement. -/
def runFuel (host : Host σ) (code : Array Instruction) (limit : Limit) (fuel : Nat)
    (m : Machine σ) : Option (Result σ (Option Value)) :=
  match runUntil (step host code fuel) code.size fuel (m.reset.withLimit limit) with
  | none => none
  | some (.error e, m) => some (.error e, m)
  | some (.ok (), m) => some (.ok m.lastValue, m)

/-- Evaluates the expression at the start of a program from a clean state and without a limit, in at
most `fuel` rounds. -/
def evaluateFuel (host : Host σ) (code : Array Instruction) (fuel : Nat) (m : Machine σ) :
    Option (Result σ Value) :=
  eval host code fuel m.reset

/-- Runs a program and tells whether it succeeded; if not, the error is kept. -/
def execute (host : Host σ) (code : Code) (limit : Limit) (fuel : Nat) (m : Machine σ) :
    Option (Bool × Machine σ) :=
  match runFuel host code.toArray limit fuel m with
  | none => none
  | some (.ok _, m) => some (true, m)
  | some (.error e, m) => some (false, { m with lastError := some e })

end BindScript.Machine
