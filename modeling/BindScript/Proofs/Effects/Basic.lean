/-
**What a computation leaves alone.**

Five functions of the catalog give no value and are called for their effect.  Everything else that a
program evaluates moves the machine, pays for the instructions that it fetches and may draw from the
source of chance; variables, output and host stay as they were.  A computation that fails leaves
them alone in any case.  So a result is told against the state that the computation began in, and
against the range of instructions in front of which a limit may stop it.

Main results:

* `Machine.callWithValues_keeps` — **a call that gives a value, or fails, leaves all alone**.
-/

import BindScript.Binding.Environment
import BindScript.Proofs.Simulation.Expression

namespace BindScript

/-! ### Effects -/

/-- The functions that are called for their effect. -/
def Builtin.isEffect : Builtin → Bool
  | .inc | .dec | .write | .writeLn | .setValue => true
  | _ => false

theorem Builtin.isEffect_iff (f : Builtin) : f.isEffect = true ↔ f.signature.ret = .void := by
  cases f <;> decide

variable {f : Builtin}

theorem Builtin.isEffect_of_takesReference (h : f.takesReference = true) : f.isEffect = true := by
  cases f <;> first | rfl | exact absurd h (by decide)

/-- An expression is a call for its effect. -/
def Expr.isEffect : Expr → Bool
  | .call _ f _ _ => f.isEffect
  | _ => false

theorem Expr.Typed.ty_of_isEffect {Γ : Scopes} {e : Expr} (h : e.Typed Γ) (he : e.isEffect = true) :
    e.ty = .void := by
  cases h with
  | call _ _ => exact (Builtin.isEffect_iff _).1 he
  | _ => simp [Expr.isEffect] at he

theorem Expr.Typed.isEffect_eq_false {Γ : Scopes} {e : Expr} (h : e.Typed Γ) (hty : e.ty ≠ .void) :
    e.isEffect = false := by
  refine Bool.eq_false_iff.2 fun he => ?_
  exact hty (h.ty_of_isEffect he)

/-! ### Hosts -/

/-- A host is changed by effects only, and not by those that fail. -/
structure Host.Orderly {σ : Type} (host : Host σ) : Prop where
  resolve : ∀ name s, (host.resolve name s).2 = s
  call : ∀ (f : Builtin) args s r, host.call f.name args s = some r →
    f.isEffect = false ∨ (∃ e, r.1 = .error e) → r.2 = s

theorem Host.plain_orderly : Host.Orderly .plain := ⟨fun _ _ => rfl, by simp [Host.plain]⟩

theorem Snapshot.host_orderly (symbols : Table String) : (Snapshot.host symbols).Orderly where
  resolve _ _ := rfl
  call f args s r hr hquiet := by
    simp only [Snapshot.host, Snapshot.call?, f.ofName?_name] at hr
    split at hr
    · rw [← Option.some.inj hr]
    · rw [← Option.some.inj hr]
    · rename_i hname
      obtain rfl : f = .setValue := Option.some.inj hname
      rcases hquiet with hquiet | ⟨e, he⟩
      · cases hquiet
      · split at hr
        · rw [← Option.some.inj hr] at he
          cases he
        · rw [← Option.some.inj hr]
    · cases hr

theorem Console.output_draw (console : Console) (bound : Nat) :
    (console.draw bound).2.output = console.output := by
  cases console
  unfold Console.draw
  rfl

/-- The output is changed by effects only, and not by those that fail. -/
theorem Builtin.output_call {args : List Value} {console : Console}
    (h : f.isEffect = false ∨ ∃ e, (f.call args console).1 = .error e) :
    (f.call args console).2.output = console.output := by
  cases f with
  | write | writeLn =>
    simp only [call, isEffect, Bool.true_eq_false, false_or] at h ⊢
    split at h
    · simp at h
    · rfl
  | random =>
    simp only [call]
    split
    · split
      · rfl
      · rename_i n _ _ _
        have houtput := console.output_draw n.toInt.toNat
        generalize console.draw n.toInt.toNat = drawn at houtput ⊢
        exact houtput
    · rfl
  | _ => rfl

/-! ### Limits -/

namespace Limit

/-- The time of a limit, if there is one. -/
def span? : Limit → Option Duration
  | .none => Option.none
  | .within span _ => some span

variable {limit limit' : Limit}

theorem span?_later (limit : Limit) : limit.later.span? = limit.span? := by
  cases limit <;> rfl

theorem span?_of_isUp (h : limit.isUp = true) : limit.span?.isSome = true := by
  cases limit with
  | none => exact absurd h Bool.false_ne_true
  | within => rfl

theorem span_of_span? (h : limit'.span? = limit.span?) : limit'.span = limit.span := by
  have hspan : ∀ l : Limit, l.span = l.span?.getD ⟨0⟩ := by
    intro l
    cases l <;> rfl
  rw [hspan, hspan, h]

end Limit

namespace Machine

variable {σ α β : Type}

/-! ### States -/

/-- All that a program can see is as before: the second state differs from the first one in its
position, in its clock, and in the draws that are left. -/
structure Keeps (m m' : Machine σ) : Prop where
  frames : m'.frames = m.frames
  output : m'.output = m.output
  host : m'.host = m.host
  finished : m'.finished = m.finished
  lastValue : m'.lastValue = m.lastValue
  limit : m'.limit.span? = m.limit.span?

namespace Keeps

variable {m m₁ m₂ : Machine σ}

theorem refl (m : Machine σ) : Keeps m m := ⟨rfl, rfl, rfl, rfl, rfl, rfl⟩

theorem trans (h : Keeps m m₁) (h' : Keeps m₁ m₂) : Keeps m m₂ :=
  ⟨h'.frames.trans h.frames, h'.output.trans h.output, h'.host.trans h.host,
    h'.finished.trans h.finished, h'.lastValue.trans h.lastValue, h'.limit.trans h.limit⟩

theorem move (h : Keeps m m₁) (p : Nat) : Keeps m { m₁ with position := p } :=
  ⟨h.frames, h.output, h.host, h.finished, h.lastValue, h.limit⟩

end Keeps

/-! ### Results -/

/-- How a computation may fail that began in a state: with all as it was, for a cause of the given
kind, or because its time is up in front of an instruction in the range. -/
def Breaks (m : Machine σ) (start stop : Nat) (Q : RuntimeError → Prop) (e : RuntimeError)
    (m' : Machine σ) : Prop :=
  Keeps m m' ∧ (Q e ∨ e = .timeout m.limit.span ∧ m.limit.span?.isSome = true ∧
    start ≤ m'.position ∧ m'.position < stop)

/-- A computation that began in a state comes to a result: it succeeds as it should, or it
breaks. -/
def Attempts (m : Machine σ) (start stop : Nat) (Q : RuntimeError → Prop) (P : α → Machine σ → Prop)
    (r : Option (Result σ α)) : Prop :=
  (∃ a m', r = some (.ok a, m') ∧ P a m') ∨
    ∃ e m', r = some (.error e, m') ∧ Breaks m start stop Q e m'

section Attempts

variable {m m₁ : Machine σ} {start stop start' stop' : Nat} {Q : RuntimeError → Prop}
  {P P' : α → Machine σ → Prop} {R : β → Machine σ → Prop} {r : Option (Result σ α)}

theorem attempts_ok {a : α} (h : P a m₁) : Attempts m start stop Q P (some (.ok a, m₁)) :=
  .inl ⟨a, m₁, rfl, h⟩

theorem attempts_error {e : RuntimeError} (he : Q e) (hm : Keeps m m₁) :
    Attempts m start stop Q P (some (.error e, m₁)) :=
  .inr ⟨e, m₁, rfl, hm, .inl he⟩

theorem Attempts.imp (h : Attempts m start stop Q P r) (himp : ∀ a m', P a m' → P' a m') :
    Attempts m start stop Q P' r := by
  rcases h with ⟨a, m', hr, ha⟩ | hbreaks
  · exact .inl ⟨a, m', hr, himp a m' ha⟩
  · exact .inr hbreaks

theorem Attempts.andThen {k : α → Machine σ → Option (Result σ β)} (h : Attempts m start stop Q P r)
    (hk : ∀ a m', P a m' → Attempts m start stop Q R (k a m')) :
    Attempts m start stop Q R (andThen r k) := by
  rcases h with ⟨a, m', rfl, ha⟩ | ⟨e, m', rfl, hbreaks⟩
  · exact hk a m' ha
  · exact .inr ⟨e, m', rfl, hbreaks⟩

/-- A computation as a part of one that began before it and has changed nothing yet. -/
theorem Attempts.rebase (hm : Keeps m m₁) (hstart : start ≤ start') (hstop : stop' ≤ stop)
    (h : Attempts m₁ start' stop' Q P r) : Attempts m start stop Q P r := by
  rcases h with hok | ⟨e, m', hr, hkeeps, hcause⟩
  · exact .inl hok
  · refine .inr ⟨e, m', hr, hm.trans hkeeps, ?_⟩
    rcases hcause with he | ⟨he, hlimited, hle, hlt⟩
    · exact .inl he
    · rw [hm.limit] at hlimited
      exact .inr ⟨by rw [he, Limit.span_of_span? hm.limit], hlimited, by omega, by omega⟩

/-- Fetching gives the instruction at the position, unless the time is up. -/
theorem fetch_attempts {code : Array Instruction} {i : Instruction} {p : Nat} (hm : m.position = p)
    (hi : code[p]? = some i) (hstart : start ≤ p) (hstop : p < stop) :
    Attempts m start stop Q (fun j m' => j = i ∧ Keeps m m' ∧ m'.position = p + 1)
      (some (fetch code m)) := by
  subst hm
  unfold fetch
  split
  · rename_i hup
    exact .inr ⟨_, m, rfl, .refl m, .inr ⟨rfl, Limit.span?_of_isUp hup, hstart, hstop⟩⟩
  · rw [hi]
    exact attempts_ok ⟨rfl, ⟨rfl, rfl, rfl, rfl, rfl, m.limit.span?_later⟩, rfl⟩

theorem jump_attempts {length target : Nat} (htarget : target ≤ length) (hm : Keeps m m₁) :
    Attempts m start stop Q (fun _ m' => Keeps m m' ∧ m'.position = target)
      (some (jump length target m₁)) := by
  rw [jump, if_pos htarget]
  exact attempts_ok ⟨hm.move target, rfl⟩

end Attempts

/-! ### Calls -/

theorem callWithValues_fields (host : Host σ) (name : String) (args : List Value) (m : Machine σ) :
    (callWithValues host name args m).2.frames = m.frames ∧
      (callWithValues host name args m).2.position = m.position ∧
      (callWithValues host name args m).2.limit = m.limit := by
  unfold callWithValues
  split <;> exact ⟨rfl, rfl, rfl⟩

/-- **A call that gives a value, or fails, leaves all alone.** -/
theorem callWithValues_keeps {host : Host σ} (hhost : host.Orderly) {args : List Value}
    {m : Machine σ} (h : f.isEffect = false ∨
      ∃ e, (callWithValues host f.name args m).1 = .error e) :
    Keeps m (callWithValues host f.name args m).2 := by
  unfold callWithValues at h ⊢
  split at h
  · rename_i r s hcall
    exact ⟨rfl, rfl, hhost.call f args m.host _ hcall h, rfl, rfl, rfl⟩
  · simp only [Builtin.callByName, f.ofName?_name] at h ⊢
    exact ⟨rfl, Builtin.output_call h, rfl, rfl, rfl, rfl⟩

/-- What an update does: it fails and leaves all alone, or it writes a number to its target and
nothing else. -/
theorem updateTarget_cases (f : Builtin) (target : String) (m : Machine σ) :
    (∃ e, updateTarget f (.load target) m = (.error e, m)) ∨
      ∃ n frames, m.frames.write target (.int n) = .ok frames ∧
        updateTarget f (.load target) m = (.ok .void, { m with frames }) := by
  simp only [updateTarget]
  split
  · exact .inl ⟨_, rfl⟩
  · unfold Value.checkedInt
    split
    · exact .inl ⟨_, rfl⟩
    · rename_i v hv
      split at hv
      · cases hv
        unfold assign
        cases hwrite : m.frames.write target (.int _) with
        | error e => exact .inl ⟨e, rfl⟩
        | ok frames => exact .inr ⟨_, frames, hwrite, rfl⟩
      · cases hv
  · exact .inl ⟨_, rfl⟩

end Machine

end BindScript
