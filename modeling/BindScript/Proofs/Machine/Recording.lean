/-
**What a run asks of its host.**

A program reaches its host only by the names that it resolves and the functions that it calls.  So a
host can be made to keep a record: each request with its answer, in the order in which they come.
The record changes nothing, because the machine cannot look into the state of a host: if the states
of one host are mapped to those of another one that answers alike, then so are the results of all
runs.

A record carries its own proof that it is true: answered one after the other from the first state
on, its requests lead to the present state.

Main results:

* `Machine.runFuel_mapHost` — **runs do not look into the state of their host**.
-/

import BindScript.Proofs.Machine.World

namespace BindScript

variable {σ τ α : Type}

/-- A map between the states of two hosts that answer alike. -/
structure Host.Maps (f : σ → τ) (host : Host σ) (host' : Host τ) : Prop where
  resolve : ∀ name s,
    host'.resolve name (f s) = ((host.resolve name s).1, f (host.resolve name s).2)
  call : ∀ name args s,
    host'.call name args (f s) = (host.call name args s).map fun r => (r.1, f r.2)

namespace Machine

/-! ### Machines with another host -/

def mapHost (f : σ → τ) (m : Machine σ) : Machine τ :=
  ⟨m.position, m.frames, m.finished, m.limit, m.console, m.lastValue, m.lastError, f m.host⟩

def mapResult (f : σ → τ) (r : Result σ α) : Result τ α := (r.1, r.2.mapHost f)

theorem follows_of_maps {f : σ → τ} {host : Host σ} {host' : Host τ} (hmaps : host.Maps f host')
    (code : Array Instruction) : host.Follows (Prod.map f id) code host' where
  resolve name m :=
    congrArg (fun r => (r.1, { m.mapHost f with host := r.2 })) (hmaps.resolve name m.host)
  call name _ _ args m := by
    have hcall : host'.call name args (m.mapWorld (Prod.map f id)).host = _ :=
      hmaps.call name args m.host
    unfold callWithValues
    rw [hcall]
    rcases host.call name args m.host with _ | ⟨r, s⟩ <;> rfl

/-- **Runs do not look into the state of their host**: if the states of two hosts that answer alike
are mapped, then so are the results. -/
theorem runFuel_mapHost {f : σ → τ} {host : Host σ} {host' : Host τ} (hmaps : host.Maps f host')
    (code : Array Instruction) (limit : Limit) (fuel : Nat) (m : Machine σ) :
    runFuel host' code limit fuel (m.mapHost f) =
      (runFuel host code limit fuel m).map (mapResult f) :=
  runFuel_mapWorld (follows_of_maps hmaps code) limit fuel rfl

end Machine

/-! ### Records -/

namespace Host

/-- What a program can ask of its host. -/
inductive Request where
  | resolve (name : String)
  | call (name : String) (args : List Value)

/-- The name that a request resolves. -/
def Request.name? : Request → Option String
  | .resolve name => some name
  | .call _ _ => none

theorem Request.eq_resolve {r : Request} {name : String} (h : r.name? = some name) :
    r = .resolve name := by
  cases r with
  | resolve name' => rw [Option.some.inj h]
  | call name' args => simp [Request.name?] at h

structure Exchange where
  request : Request
  answer : Except RuntimeError Value

/-- The answer of a host, with its state after that; none if the host leaves a call to the
catalog. -/
def respond (host : Host σ) : Request → σ → Option (Except RuntimeError Value × σ)
  | .resolve name, s => some (host.resolve name s)
  | .call name args, s => host.call name args s

/-- The requests are answered as the exchanges say, one after the other, and lead from the first
state to the second one. -/
inductive Replays (host : Host σ) : σ → List Exchange → σ → Prop
  | nil {s} : Replays host s [] s
  | cons {s t u x xs} : host.respond x.request s = some (x.answer, t) → Replays host t xs u →
      Replays host s (x :: xs) u

variable {host : Host σ} {s t u : σ} {xs ys : List Exchange}

theorem Replays.append (h : host.Replays s xs t) (h' : host.Replays t ys u) :
    host.Replays s (xs ++ ys) u := by
  induction h with
  | nil => exact h'
  | cons hx _ ih => exact .cons hx (ih h')

theorem Replays.split (h : host.Replays s (xs ++ ys) u) :
    ∃ t, host.Replays s xs t ∧ host.Replays t ys u := by
  induction xs generalizing s with
  | nil => exact ⟨s, .nil, h⟩
  | cons x xs ih =>
    cases h with
    | cons hx hrest =>
      obtain ⟨t, hfirst, hsecond⟩ := ih hrest
      exact ⟨t, .cons hx hfirst, hsecond⟩

/-- A state of a host, with all that was asked since a first state. -/
structure Recording (host : Host σ) (first : σ) where
  state : σ
  exchanges : List Exchange
  replays : host.Replays first exchanges state

def Recording.add {first : σ} (r : Recording host first) (x : Exchange) (s : σ)
    (h : host.respond x.request r.state = some (x.answer, s)) : Recording host first :=
  ⟨s, r.exchanges ++ [x], r.replays.append (.cons h .nil)⟩

/-- The host that keeps a record of what it is asked. -/
def recording (host : Host σ) (first : σ) : Host (Recording host first) where
  resolve name r :=
    let answer := host.resolve name r.state
    (answer.1, r.add ⟨.resolve name, answer.1⟩ answer.2 rfl)
  call name args r :=
    match h : host.call name args r.state with
    | none => none
    | some answer => some (answer.1, r.add ⟨.call name args, answer.1⟩ answer.2 h)

theorem recording_maps (host : Host σ) (first : σ) :
    (host.recording first).Maps Recording.state host where
  resolve _ _ := rfl
  call name args r := by
    simp only [recording]
    split
    · rename_i h
      rw [h]
      rfl
    · rename_i answer h
      exact h

end Host

namespace Machine

/-- The machine whose host has not been asked anything. -/
def recorded (host : Host σ) (m : Machine σ) : Machine (host.Recording m.host) :=
  ⟨m.position, m.frames, m.finished, m.limit, m.console, m.lastValue, m.lastError,
    ⟨m.host, [], .nil⟩⟩

/-- What a run asks of its host, with the answers. -/
def exchanges (host : Host σ) (code : Array Instruction) (limit : Limit) (fuel : Nat)
    (m : Machine σ) : Option (List Host.Exchange) :=
  (runFuel (host.recording m.host) code limit fuel (m.recorded host)).map (·.2.host.exchanges)

/-- **The record of a run** leads from the first to the last state of its host. -/
theorem runFuel_replays {host : Host σ} {code : Array Instruction} {limit : Limit} {fuel : Nat}
    {m : Machine σ} {r : Result σ (Option Value)} (h : runFuel host code limit fuel m = some r) :
    ∃ xs, exchanges host code limit fuel m = some xs ∧ host.Replays m.host xs r.2.host := by
  have hrun := runFuel_mapHost (host.recording_maps m.host) code limit fuel (m.recorded host)
  have hstart : (m.recorded host).mapHost Host.Recording.state = m := rfl
  rw [hstart, h] at hrun
  obtain ⟨r', hr', rfl⟩ := Option.map_eq_some_iff.1 hrun.symm
  exact ⟨r'.2.host.exchanges, by rw [exchanges, hr']; rfl, r'.2.host.replays⟩

end Machine

end BindScript
