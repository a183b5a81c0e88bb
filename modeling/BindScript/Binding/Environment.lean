/-
**The environment of bindings.**

Bindings run in an environment of symbols and a snapshot.  A name with a point is the text of an
entry, any other name a symbol; what is not there is the empty text.  Three functions work on the
snapshot, and one of them changes it.
-/

import BindScript.Binding.Snapshot
import BindScript.Builtin.Catalog
import BindScript.Machine.Host

namespace BindScript.Snapshot

def resolve (symbols : Table String) (name : String) (s : Snapshot) : String :=
  match Text.cutAt? '.' name.toList with
  | some (container, key) =>
    ((s.find? (String.ofList container) (String.ofList key)).map (·.value.asText)).getD ""
  | none => (symbols.lookup name).getD ""

/-- An argument that has to be a text. -/
def textArg (b : Builtin) (args : List Value) (index : Nat) : Except RuntimeError String :=
  match args[index]? with
  | some (.string s) => .ok s
  | some v => .error (.wrongKind .string v.kind)
  | none => .error (.invalidArgument b.name (.missing (index + 1)))

/-- The option that is selected in the entry of a container and a key. -/
def selection? (container key : String) (s : Snapshot) : Option Selection :=
  (s.find? container key).bind (·.selected)

/-- The identifier of the selected option. -/
def selectedId (args : List Value) (s : Snapshot) : Except RuntimeError Value := do
  let container ← textArg .selectedOptionId args 0
  let key ← textArg .selectedOptionId args 1
  return .string (((s.selection? container key).map (·.id)).getD "")

/-- The place of an extra value, the first if it is left out. -/
def placeArg (args : List Value) : Except RuntimeError Int64 :=
  match args[(2 : Nat)]? with
  | some (.int n) => .ok n
  | some v => .error (.wrongKind .int v.kind)
  | none => .ok 0

/-- An extra value of the selected option. -/
def selectedExtra (args : List Value) (s : Snapshot) : Except RuntimeError Value := do
  let container ← textArg .selectedOptionExtraValue args 0
  let key ← textArg .selectedOptionExtraValue args 1
  let place ← placeArg args
  let extra :=
    if place.toInt < 0 then none
    else (s.selection? container key).bind fun o => o.extraValues[place.toInt.toNat]?
  return .string (extra.getD "")

/-- The snapshot with a value set. -/
def withValue (args : List Value) (s : Snapshot) : Except RuntimeError Snapshot := do
  let container ← textArg .setValue args 0
  let key ← textArg .setValue args 1
  let text ← textArg .setValue args 2
  return s.setText container key text

/-- The call of a function on snapshots; none for any other function. -/
def call? (name : String) (args : List Value) (s : Snapshot) :
    Option (Except RuntimeError Value × Snapshot) :=
  match Builtin.ofName? name with
  | some .selectedOptionId => some (selectedId args s, s)
  | some .selectedOptionExtraValue => some (selectedExtra args s, s)
  | some .setValue =>
    match withValue args s with
    | .ok s => some (.ok .void, s)
    | .error e => some (.error e, s)
  | _ => none

def host (symbols : Table String) : Host Snapshot where
  resolve name s := (.ok (.string (resolve symbols name s)), s)
  call := call?

end BindScript.Snapshot
