/-
**The state of the machine.**

Every open block has a frame with a slot for each of its variables.  A slot is there from the entry
of the block, but can be seen only once it is live.  A name is looked up from the innermost frame
outwards, passing over slots that are not live.  A name with a point is a leaf of a record variable.
-/

import BindScript.Builtin.Call
import BindScript.Code.Instruction

namespace BindScript

/-- The variable of a frame: its value, and whether it can be seen. -/
structure Frame.Cell where
  value : Value
  live : Bool

/-- The variables of an open block. -/
abbrev Frame := Table Frame.Cell

/-- The frame of a block that is entered. -/
def Frame.ofSlots (slots : List Slot) : Frame :=
  Table.ofList (slots.map fun s => (s.name, ⟨s.value, s.bound⟩))

/-- The variable of a name in a frame, if it can be seen. -/
def Frame.live? (frame : Frame) (name : String) : Option Frame.Cell :=
  (frame.lookup name).filter (·.live)

/-- A name as a variable and, after the first point, a path. -/
def splitName (name : String) : String × Option String :=
  match Text.cutAt? '.' name.toList with
  | some (base, path) => (String.ofList base, some (String.ofList path))
  | none => (name, none)

/-- The value, or the leaf of it at a path. -/
def Value.leaf? (path : Option String) (v : Value) : Option Value :=
  match path, v with
  | none, v => some v
  | some path, .record leaves => leaves.lookup path
  | some _, _ => none

/-- The value with a new value in its place, or in the place of the leaf at a path, which has to be
there. -/
def Value.withLeaf? (path : Option String) (new old : Value) : Option Value :=
  match path, old with
  | none, _ => some new
  | some path, .record leaves =>
    if (leaves.lookup path).isSome then some (.record (Table.replace path (fun _ => new) leaves))
    else none
  | some _, _ => none

/-- The frames of the open blocks, the innermost first. -/
abbrev Frames := List Frame

namespace Frames

/-- The innermost variable of a name that can be seen. -/
def find? (frames : Frames) (name : String) : Option Frame.Cell :=
  frames.findSome? fun f => Frame.live? f name

/-- The value of a variable or of a leaf. -/
def read (frames : Frames) (name : String) : Except RuntimeError Value :=
  let (base, path) := splitName name
  match (find? frames base).bind fun c => c.value.leaf? path with
  | some v => .ok v
  | none => .error (.undefinedVariable name)

/-- The frames with a change to the innermost variable of a name that can be seen; none if there is
no such variable, or if the change is not possible. -/
def update? (name : String) (change : Value → Option Value) : Frames → Option Frames
  | [] => none
  | f :: outer =>
    match Frame.live? f name with
    | some c =>
      (change c.value).map fun v => Table.replace name (fun c => { c with value := v }) f :: outer
    | none => (update? name change outer).map (f :: ·)

/-- Sets a variable or a leaf. -/
def write (frames : Frames) (name : String) (new : Value) : Except RuntimeError Frames :=
  let (base, path) := splitName name
  match update? base (Value.withLeaf? path new) frames with
  | some frames => .ok frames
  | none => .error (.undefinedVariable name)

/-- Brings a variable of the innermost frame into sight, with a value if one is given. A frame
without the variable gets it. -/
def declare (frames : Frames) (name : String) (value : Option Value) : Except RuntimeError Frames :=
  match frames with
  | [] => .error (.malformed (.orphanDeclaration name))
  | f :: outer =>
    match f.lookup name with
    | some c => .ok (Table.replace name (fun _ => ⟨value.getD c.value, true⟩) f :: outer)
    | none => .ok ((f ++ [(name, ⟨value.getD .null, true⟩)]) :: outer)

end Frames

/-- A limit on the time of a run: none, or so much time and a clock. The clock tells whether the
time is up, each time it is asked. -/
inductive Limit where
  | none
  | within (span : Duration) (clock : Tape Bool)

namespace Limit

/-- The limit of a time that is given. No time at all means no limit. -/
def ofSpan (span : Duration) (clock : Tape Bool) : Limit :=
  if span.milliseconds = 0 then .none else .within span clock

def span : Limit → Duration
  | .none => ⟨0⟩
  | .within span _ => span

/-- Whether the clock says now that the time is up. -/
def isUp : Limit → Bool
  | .none => false
  | .within _ clock => clock.next

/-- The limit after its clock has been asked. -/
def later : Limit → Limit
  | .none => .none
  | .within span clock => .within span clock.rest

end Limit

/-- The state of a machine whose host has the state `σ`. -/
structure Machine (σ : Type) where
  position : Nat
  frames : Frames
  /-- The frame of the last outermost block that came to its end. -/
  finished : Option Frame
  limit : Limit
  console : Console
  lastValue : Option Value
  lastError : Option RuntimeError
  host : σ

namespace Machine

variable {σ : Type}

/-- A machine that has not run yet. -/
def start (host : σ) (console : Console) : Machine σ :=
  ⟨0, [], none, .none, console, none, none, host⟩

/-- The state at the start of a run: everything as new, the host and the draws apart. -/
def reset (m : Machine σ) : Machine σ := start m.host { m.console with output := "" }

/-- The value of a variable or leaf that can be seen, or, after a run, of one of the outermost
block. -/
def valueOf? (m : Machine σ) (name : String) : Option Value :=
  let (base, path) := splitName name
  ((m.frames.find? base).or (m.finished.bind fun f => Frame.live? f base)).bind fun c =>
    c.value.leaf? path

def output (m : Machine σ) : String := m.console.output

end Machine

end BindScript
