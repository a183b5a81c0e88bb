/-
**The world of a run.**

A program reaches what is outside of it in two ways only: it resolves names, and it calls functions
with values.  The host answers, and the console takes what is written; together they are the world
of a run.  Nothing else that the machine does looks at the world or changes it.  So if the worlds of
one host are mapped to those of another one, and both answer alike, then so are the results of all
runs.

A program that draws nothing does not even ask for the draws of its console.

Main results:

* `Machine.runFuel_mapWorld` — **runs do not look into their world**.
-/

import BindScript.Proofs.Machine.Comparison

namespace BindScript

variable {σ τ α β : Type}

namespace Machine

/-- The machine with its host and its console mapped. -/
def mapWorld (f : σ × Console → τ × Console) (m : Machine σ) : Machine τ :=
  ⟨m.position, m.frames, m.finished, m.limit, (f (m.host, m.console)).2, m.lastValue,
    m.lastError, (f (m.host, m.console)).1⟩

def inWorld (f : σ × Console → τ × Console) (r : Result σ α) : Result τ α := (r.1, r.2.mapWorld f)

end Machine

/-- Two hosts that answer a program alike, and leave worlds behind that are mapped to each other
again. -/
structure Host.Follows (f : σ × Console → τ × Console) (code : Array Instruction) (host : Host σ)
    (host' : Host τ) : Prop where
  resolve : ∀ name (m : Machine σ),
    Machine.resolve host' name (m.mapWorld f) = Machine.inWorld f (Machine.resolve host name m)
  call : ∀ name argc, .call name argc ∈ code → ∀ args (m : Machine σ),
    Machine.callWithValues host' name args (m.mapWorld f) =
      Machine.inWorld f (Machine.callWithValues host name args m)

namespace Machine

variable {f : σ × Console → τ × Console} {host : Host σ} {host' : Host τ} {code : Array Instruction}

/-- Two computations have the same results, but for the world. -/
def Mirrors (f : σ × Console → τ × Console) (r : Option (Result σ α)) (r' : Option (Result τ α)) :
    Prop :=
  r' = r.map (inWorld f)

theorem mirrors_some {r : Result σ α} {r' : Result τ α} (h : r' = inWorld f r) :
    Mirrors f (some r) (some r') := by
  rw [Mirrors, h]
  rfl

theorem Mirrors.andThen {r : Option (Result σ α)} {r' : Option (Result τ α)}
    {k : α → Machine σ → Option (Result σ β)} {k' : α → Machine τ → Option (Result τ β)}
    (hr : Mirrors f r r')
    (hk : ∀ a m, r = some (.ok a, m) → Mirrors f (k a m) (k' a (m.mapWorld f))) :
    Mirrors f (andThen r k) (andThen r' k') := by
  rw [Mirrors] at hr
  subst hr
  rcases r with _ | ⟨e | a, m⟩
  · rfl
  · rfl
  · exact hk a m rfl

theorem fetch_mapWorld (code : Array Instruction) (m : Machine σ) :
    fetch code (m.mapWorld f) = inWorld f (fetch code m) := by
  obtain ⟨position, frames, finished, limit, console, lastValue, lastError, host⟩ := m
  cases hup : limit.isUp with
  | true => simp only [fetch, mapWorld, inWorld, hup, if_true]
  | false =>
    simp only [fetch, mapWorld, hup, Bool.false_eq_true, if_false]
    cases code[position]? <;> rfl

theorem leave_mapWorld (m : Machine σ) : leave (m.mapWorld f) = (leave m).mapWorld f := by
  obtain ⟨position, frames, finished, limit, console, lastValue, lastError, host⟩ := m
  rcases frames with _ | ⟨f, _ | ⟨g, frames⟩⟩ <;> rfl

/-- Computations in two worlds. -/
def mirroring (hf : host.Follows f code host') : Comparison host host' code where
  link m m' := m' = m.mapWorld f
  rel _ _ r r' := Mirrors f r r'
  allows i := i ∈ code
  moves _ := True
  position h := by rw [h]; rfl
  frames h := by rw [h]; rfl
  andThen hr hk := hr.andThen fun a m ha => hk a m _ ha rfl
  done h _ := mirrors_some (by rw [h]; rfl)
  fetch h := mirrors_some (by rw [h, fetch_mapWorld])
  store h _ := mirrors_some (by rw [h]; rfl)
  move h _ _ := mirrors_some (by rw [h]; rfl)
  select _ := ⟨trivial, trivial⟩
  resolve h name := mirrors_some (by rw [h, hf.resolve])
  crowded _ _ _ := rfl
  call h hcall args := mirrors_some (by rw [h, hf.call _ _ hcall])

theorem mirroring_blocks (hf : host.Follows f code host') : (mirroring hf).Blocks where
  moves _ := trivial
  enter h slots := by rw [h]; rfl
  close _ hr := Mirrors.andThen hr fun _ m _ => mirrors_some (by rw [leave_mapWorld]; rfl)
  last h _ := mirrors_some (by rw [h]; rfl)

theorem steps_mirrors (hf : host.Follows f code host') (fuel stop rounds : Nat) (m : Machine σ) :
    Mirrors f (runUntil (step host code fuel) stop rounds m)
      (runUntil (step host' code fuel) stop rounds (m.mapWorld f)) :=
  (mirroring_blocks hf).steps (fun _ hi => hi) (fun _ _ => rfl) fuel stop rounds rfl

/-- **Runs do not look into their world**: if the worlds of two hosts that answer alike are mapped
at the start, then so are the results. -/
theorem runFuel_mapWorld (hf : host.Follows f code host') (limit : Limit) (fuel : Nat)
    {m : Machine σ} {m' : Machine τ} (hstart : m'.reset = m.reset.mapWorld f) :
    runFuel host' code limit fuel m' = (runFuel host code limit fuel m).map (inWorld f) := by
  have hlimit : m'.reset.withLimit limit = (m.reset.withLimit limit).mapWorld f := by
    rw [hstart]
    rfl
  rw [runFuel_eq_andThen, runFuel_eq_andThen, hlimit]
  exact (steps_mirrors hf fuel _ fuel _).andThen fun _ m _ => mirrors_some rfl

end Machine

/-! ### Programs that draw nothing -/

def Instruction.callsFunction (b : Builtin) : Instruction → Bool
  | .call name _ => Builtin.ofName? name == some b
  | _ => false

def Code.Avoids (b : Builtin) (code : Code) : Prop := ∀ i ∈ code, i.callsFunction b = false

instance (b : Builtin) (code : Code) : Decidable (code.Avoids b) :=
  inferInstanceAs (Decidable (∀ i ∈ code, i.callsFunction b = false))

theorem Code.Avoids.name_ne {b : Builtin} {code : Code} (h : code.Avoids b) {name : String}
    {argc : Nat} (hcall : .call name argc ∈ code) : Builtin.ofName? name ≠ some b := by
  simpa [Instruction.callsFunction] using h _ hcall

/-- No function but one looks at the draws, or changes them. -/
theorem Builtin.callByName_withDraws {name : String} (h : ofName? name ≠ some .random)
    (args : List Value) (console : Console) (draws : Tape Nat) :
    callByName name args { console with draws } =
      ((callByName name args console).1, { (callByName name args console).2 with draws }) := by
  cases hname : ofName? name with
  | none => simp only [callByName, hname]
  | some b =>
    simp only [callByName, hname]
    cases b with
    | random => exact absurd hname h
    | write | writeLn =>
      simp only [call]
      split <;> rfl
    | _ => rfl

namespace Machine

/-- The machine with other draws to come. -/
def withDraws (draws : Tape Nat) (m : Machine σ) : Machine σ :=
  m.mapWorld fun w => (w.1, { w.2 with draws })

/-- **A program that draws nothing** comes to the same whatever the draws would be, and leaves
them. -/
theorem runFuel_withDraws (host : Host σ) {code : Code} (h : code.Avoids .random) (limit : Limit)
    (fuel : Nat) (draws : Tape Nat) (m : Machine σ) :
    runFuel host code.toArray limit fuel (m.withDraws draws) =
      (runFuel host code.toArray limit fuel m).map fun r => (r.1, r.2.withDraws draws) := by
  refine runFuel_mapWorld (f := fun w => (w.1, { w.2 with draws }))
    ⟨fun _ _ => rfl, ?_⟩ limit fuel rfl
  intro name argc hcall args m
  have hname := h.name_ne (List.mem_toArray.1 hcall)
  unfold callWithValues mapWorld
  cases host.call name args m.host with
  | some r => rfl
  | none =>
    have hsame := Builtin.callByName_withDraws hname args m.console draws
    simp only [hsame]
    rfl

end Machine

end BindScript
