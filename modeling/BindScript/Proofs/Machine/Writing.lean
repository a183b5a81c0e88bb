/-
**What a run writes.**

Two functions of the catalog write: one a text as it is, one a text and the end of a line.  The
texts of a run are what they are called with, in the order of the calls, and it has them also if it
fails.  To collect them, the calls are handed to a host that keeps the texts in a list and leaves
the console alone.  The output of the machine is those texts, one after the other.

Main results:

* `Machine.output_runFuel` — **the output of a run is what its calls have written**.
-/

import BindScript.Proofs.Machine.World

namespace BindScript

/-! ### Calls that write -/

variable {args : List Value}

namespace Builtin

/-- The text that a function writes, if it writes one. -/
def text? (b : Builtin) (args : List Value) : Option String :=
  match b, args with
  | .write, .string s :: _ => some s
  | .writeLn, .string s :: _ => some (s ++ "\n")
  | _, _ => none

/-- The text that a call by name writes, if it writes one. -/
def written? (name : String) (args : List Value) : Option String :=
  (ofName? name).bind fun b => b.text? args

/-- A call that writes adds its text to the output, and does nothing else. -/
theorem callByName_of_written {name text : String} (h : written? name args = some text)
    (console : Console) :
    callByName name args console = (.ok .void, console.write text) := by
  obtain ⟨b, hname, htext⟩ := Option.bind_eq_some_iff.1 h
  rw [callByName, hname]
  unfold text? at htext
  split at htext
  · cases htext
    rfl
  · cases htext
    rfl
  · cases htext

/-- Any other call of the catalog neither reads nor changes the output. -/
theorem call_of_not_text {b : Builtin} (h : b.text? args = none) (console : Console)
    (output : String) :
    b.call args { console with output } =
      ((b.call args console).1, { (b.call args console).2 with output }) := by
  cases b with
  | write =>
    -- without a text to write there is an error
    rcases args with _ | ⟨v, rest⟩
    · rfl
    · cases v with
      | string s => simp [text?] at h
      | _ => rfl
  | writeLn =>
    rcases args with _ | ⟨v, rest⟩
    · rfl
    · cases v with
      | string s => simp [text?] at h
      | _ => rfl
  | random =>
    simp only [call]
    split
    · split
      · rfl
      · rfl
    · rfl
  | _ => rfl

theorem callByName_of_not_written {name : String} (h : written? name args = none)
    (console : Console) (output : String) :
    callByName name args { console with output } =
      ((callByName name args console).1, { (callByName name args console).2 with output }) := by
  cases hname : ofName? name with
  | none => simp only [callByName, hname]
  | some b =>
    simp only [callByName, hname]
    exact call_of_not_text (by rwa [written?, hname] at h) console output

end Builtin

/-! ### Keeping the texts -/

variable {σ : Type}

namespace Host

/-- The host that takes the calls that write, and keeps their texts. -/
def noting (host : Host σ) : Host (σ × List String) where
  resolve name s := ((host.resolve name s.1).1, ((host.resolve name s.1).2, s.2))
  call name args s :=
    match host.call name args s.1 with
    | some (r, t) => some (r, (t, s.2))
    | none => (Builtin.written? name args).map fun text => (.ok .void, (s.1, s.2 ++ [text]))

/-- The world in which the texts that were kept stand in the output. -/
def uttered (w : (σ × List String) × Console) : σ × Console :=
  (w.1.1, { w.2 with output := String.join w.1.2 })

/-- Keeping the texts in a list or writing them to the console is the same. -/
theorem noting_follows (host : Host σ) (code : Array Instruction) :
    host.noting.Follows uttered code host where
  resolve _ _ := rfl
  call name _ _ args m := by
    obtain ⟨position, frames, finished, limit, console, lastValue, lastError, s, texts⟩ := m
    cases hcall : host.call name args s with
    | some r =>
      simp only [Machine.callWithValues, Machine.mapWorld, Machine.inWorld, uttered, noting, hcall]
    | none =>
      cases htext : Builtin.written? name args with
      | some text =>
        have hjoin : String.join (texts ++ [text]) = String.join texts ++ text := by
          simp [String.join_append, String.join_cons]
        simp only [Machine.callWithValues, Machine.mapWorld, Machine.inWorld, uttered, noting,
          hcall, htext, Option.map_some, Builtin.callByName_of_written htext, Console.write, hjoin]
      | none =>
        have hsame := Builtin.callByName_of_not_written htext console (String.join texts)
        simp only [Machine.callWithValues, Machine.mapWorld, Machine.inWorld, uttered, noting,
          hcall, htext, Option.map_none, hsame]

end Host

namespace Machine

/-- The machine whose host has kept no text yet. -/
def noted (m : Machine σ) : Machine (σ × List String) := m.mapWorld fun w => ((w.1, []), w.2)

/-- The texts that a run writes, in their order. -/
def texts (host : Host σ) (code : Array Instruction) (limit : Limit) (fuel : Nat) (m : Machine σ) :
    Option (List String) :=
  (runFuel host.noting code limit fuel m.noted).map (·.2.host.2)

/-- **The output of a run is what its calls have written**, whether it fails or not. -/
theorem output_runFuel (host : Host σ) (code : Array Instruction) (limit : Limit) (fuel : Nat)
    (m : Machine σ) :
    (runFuel host code limit fuel m).map (·.2.output) =
      (texts host code limit fuel m).map String.join := by
  have hstart : m.reset = m.noted.reset.mapWorld Host.uttered := rfl
  rw [runFuel_mapWorld (host.noting_follows code) limit fuel hstart, texts, Option.map_map,
    Option.map_map]
  rfl

end Machine

end BindScript
