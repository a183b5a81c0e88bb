/-
**Programs that leave their host alone.**

A program can reach its host in two ways only: by the names that it resolves and by the functions
that it calls.  If none of these changes the host, no run of the program does, whether it ends well,
fails or has no result.

Main results:

* `Machine.runFuel_hostIs` — **a run leaves a quiet host as it is**.
-/

import BindScript.Proofs.Machine.Comparison

namespace BindScript.Machine

variable {σ α β : Type}

/-- Nothing that a program asks of its host changes it. -/
structure Quiet (host : Host σ) (code : Array Instruction) : Prop where
  resolve : ∀ name s, (host.resolve name s).2 = s
  call : ∀ name argc, .call name argc ∈ code → ∀ args s r, host.call name args s = some r → r.2 = s

/-- Whatever the result is, the host is in the given state. -/
def HostIs (s : σ) (r : Option (Result σ α)) : Prop := ∀ x, r = some x → x.2.host = s

variable {s : σ} {m : Machine σ} {host : Host σ} {code : Array Instruction}

theorem hostIs_some {x : Result σ α} (h : x.2.host = s) : HostIs s (some x) := by
  intro y hy
  rw [← Option.some.inj hy, h]

theorem HostIs.andThen {r : Option (Result σ α)} {k : α → Machine σ → Option (Result σ β)}
    (hr : HostIs s r) (hk : ∀ a m, r = some (.ok a, m) → m.host = s → HostIs s (k a m)) :
    HostIs s (andThen r k) := by
  intro x hx
  rcases andThen_eq_some.1 hx with ⟨e, m, hfail, rfl⟩ | ⟨a, m, hok, hnext⟩
  · exact hr _ hfail
  · exact hk a m hok (hr _ hok) x hnext

theorem host_fetch (m : Machine σ) : (fetch code m).2.host = m.host := by
  unfold fetch
  split
  · rfl
  · split <;> rfl

theorem host_callWithValues {name : String} {argc : Nat} (hquiet : Quiet host code)
    (hcall : .call name argc ∈ code) (args : List Value) (m : Machine σ) :
    (callWithValues host name args m).2.host = m.host := by
  unfold callWithValues
  split
  · rename_i r hr
    exact hquiet.call name argc hcall args _ _ hr
  · rfl

/-- Computations that find a host in the given state. -/
def hosting (hquiet : Quiet host code) (s : σ) : Comparison host host code where
  link m m' := m' = m ∧ m.host = s
  rel _ _ r _ := HostIs s r
  allows i := i ∈ code
  moves _ := True
  position h := by rw [h.1]
  frames h := by rw [h.1]
  andThen hr hk := hr.andThen fun a m ha hm => hk a m m ha ⟨rfl, hm⟩
  done h _ := hostIs_some h.2
  fetch h := hostIs_some ((host_fetch _).trans h.2)
  store h _ := hostIs_some h.2
  move h _ _ := hostIs_some h.2
  select _ := ⟨trivial, trivial⟩
  resolve h name := hostIs_some ((hquiet.resolve name _).trans h.2)
  crowded _ _ _ _ h := absurd h (by simp)
  call h hcall args := hostIs_some ((host_callWithValues hquiet hcall args _).trans h.2)

theorem hosting_blocks (hquiet : Quiet host code) : (hosting hquiet s).Blocks where
  moves _ := trivial
  enter h slots := by rw [h.1]; exact ⟨rfl, h.2⟩
  close _ hr := HostIs.andThen hr fun _ m _ hm => hostIs_some (by rw [leave_eq]; exact hm)
  last h _ := hostIs_some h.2

theorem steps_hostIs (hquiet : Quiet host code) (fuel stop rounds : Nat) (hm : m.host = s) :
    HostIs s (runUntil (step host code fuel) stop rounds m) :=
  (hosting_blocks hquiet).steps (fun _ hi => hi) (fun _ _ _ hx => absurd hx (by simp)) fuel stop
    rounds ⟨rfl, hm⟩

/-- **A run leaves a quiet host as it is.** -/
theorem runFuel_hostIs (hquiet : Quiet host code) (limit : Limit) (fuel : Nat) (m : Machine σ) :
    HostIs m.host (runFuel host code limit fuel m) := by
  rw [runFuel_eq_andThen]
  exact (steps_hostIs hquiet fuel _ fuel rfl).andThen fun _ m _ hm => hostIs_some hm

end BindScript.Machine
