/-
**Sessions.**

A session runs the bindings of an element on a snapshot.  What a binding writes is kept when it
succeeds; what it sets stays set in any case.
-/

import BindScript.Binding.Environment
import BindScript.Binding.Kind
import BindScript.Machine.Run

namespace BindScript

inductive Binding.Outcome where
  | value (v : Value)
  | entries (es : Table Value)
  | nothing

def Binding.Outcome.toJson : Binding.Outcome → Json
  | .value v => v.toJson
  | .entries es => .object (Json.sortMembers (es.map fun (name, v) => (name, v.toJson)))
  | .nothing => .null

/-- A session: the bindings and the symbols, the time limit of each program, and what changes as
they run. -/
structure Session where
  bindings : Bindings Code
  symbols : Table String
  limit : Duration
  snapshot : Snapshot
  output : String
  draws : Tape Nat
  /-- The clocks of the programs, one for each. -/
  clocks : Tape (Tape Bool)

namespace Session

/-- A session that has not run anything. -/
def start (bindings : Bindings Code) (symbols : Table String) (limit : Duration)
    (snapshot : Snapshot) (draws : Tape Nat) (clocks : Tape (Tape Bool)) : Session :=
  ⟨bindings, symbols, limit, snapshot, "", draws, clocks⟩

/-- A value or an error and the session after it, or nothing if a program does not come to its
end. -/
abbrev Answer (α : Type) := Option (Except RuntimeError α × Session)

/-- The machine that runs the next program. -/
def machine (s : Session) : Machine Snapshot := Machine.start s.snapshot ⟨"", s.draws⟩

/-- The limit of the next program. -/
def nextLimit (s : Session) : Limit := Limit.ofSpan s.limit s.clocks.next

/-- The session after a program that has left the machine in a state. -/
def continueFrom (m : Machine Snapshot) (s : Session) : Session :=
  { s with snapshot := m.host, draws := m.console.draws, clocks := s.clocks.rest }

/-- Runs a program, with so much fuel. -/
def evaluate (fuel : Nat) (code : Code) (s : Session) : Answer Value :=
  match Machine.runFuel (Snapshot.host s.symbols) code.toArray s.nextLimit fuel s.machine with
  | none => none
  | some (.ok v, m) =>
    some (.ok (v.getD .void), { s.continueFrom m with output := s.output ++ m.output })
  | some (.error e, m) => some (.error e, s.continueFrom m)

/-- Acts one after the other, up to the first error. -/
def each {ι κ α : Type} (label : ι → κ) (act : ι → Session → Answer α) :
    List ι → Session → Answer (List (κ × α))
  | [], s => some (.ok [], s)
  | i :: rest, s =>
    match act i s with
    | none => none
    | some (.error e, s) => some (.error e, s)
    | some (.ok a, s) =>
      match each label act rest s with
      | none => none
      | some (.error e, s) => some (.error e, s)
      | some (.ok as, s) => some (.ok ((label i, a) :: as), s)

/-- The values of entries, up to the first error. -/
def evaluateAll (fuel : Nat) (es : Table Code) (s : Session) : Answer (Table Value) :=
  each Prod.fst (fun e s => s.evaluate fuel e.2) es s

/-- The outcome of a value, as the kind of the binding has it. -/
def outcome (kind : Binding.Kind) (v : Value) : Except RuntimeError Binding.Outcome :=
  match kind, v with
  | .visible, .bool _ | .enabled, .bool _ => .ok (.value v)
  | .visible, _ | .enabled, _ => .error (.wrongKind .bool v.kind)
  | .click, _ => .ok .nothing
  | _, _ => .ok (.value v)

/-- Runs the binding of a kind, if there is one. -/
def run (fuel : Nat) (kind : Binding.Kind) (s : Session) : Answer Binding.Outcome :=
  match s.bindings.find? kind with
  | none => some (.ok .nothing, s)
  | some (.expr code) => (s.evaluate fuel code).map fun (r, s) => (r.bind (outcome kind), s)
  | some (.entries es) => (s.evaluateAll fuel es).map fun (r, s) => (r.map .entries, s)

/-- Runs the bindings of kinds, up to the first error. -/
def runKinds (fuel : Nat) (kinds : List Binding.Kind) (s : Session) :
    Answer (List (Binding.Kind × Binding.Outcome)) :=
  each id (run fuel) kinds s

/-- Runs all bindings in the order of their declaration, up to the first error. -/
def runAll (fuel : Nat) (s : Session) : Answer (List (Binding.Kind × Binding.Outcome)) :=
  s.runKinds fuel s.bindings.kinds

end Session

end BindScript
