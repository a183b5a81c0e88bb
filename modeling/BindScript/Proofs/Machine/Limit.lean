/-
**Runs with a limit.**

A limit does not change what the machine does, only how far it comes: a run with a limit comes to
the same result as the run without one, or it stops where the clock says that its time is up.  And a
run ends if the clock says so some time, as each round asks it.  So the runs with clocks that say so
early and late show the run without a limit step by step: the machine is seen in the state before
its first fetch, before its second one, and so on.

Main results:

* `Machine.runUntil_cut` — **a limit only cuts off** runs;
* `Machine.eval_pays`, `Machine.step_pays`, `Machine.runUntil_spends` —
  **a run ends when its time is up**.
-/

import BindScript.Proofs.Machine.Comparison

namespace BindScript

namespace Machine

variable {σ α β : Type}

/-- The machine without a limit. -/
def unlimited (m : Machine σ) : Machine σ := { m with limit := .none }

/-- The first result is the second one, that of a run without a limit, or the limit was reached. -/
def Cut (r r' : Option (Result σ α)) : Prop :=
  (∃ m, r = some (.error (.timeout m.limit.span), m)) ∨ r' = r.map fun x => (x.1, x.2.unlimited)

theorem cut_timeout {m : Machine σ} {r' : Option (Result σ α)} :
    Cut (some (.error (.timeout m.limit.span), m)) r' := .inl ⟨m, rfl⟩

theorem cut_same (x : Except RuntimeError α) (m : Machine σ) :
    Cut (some (x, m)) (some (x, m.unlimited)) := .inr rfl

/-- Fetching gives the same instruction, unless the time is up. -/
theorem fetch_cut (code : Array Instruction) (m : Machine σ) :
    Cut (some (fetch code m)) (some (fetch code m.unlimited)) := by
  have hunlimited : ¬m.unlimited.limit.isUp = true := Bool.false_ne_true
  rw [fetch, fetch, if_neg hunlimited]
  split
  · exact cut_timeout
  · have hposition : m.unlimited.position = m.position := rfl
    rw [hposition]
    cases code[m.position]? with
    | none => exact cut_same _ m
    | some i =>
      exact cut_same (.ok i) { m with position := m.position + 1, limit := m.limit.later }

theorem callWithValues_cut (host : Host σ) (name : String) (args : List Value) (m : Machine σ) :
    Cut (some (callWithValues host name args m))
      (some (callWithValues host name args m.unlimited)) := by
  unfold callWithValues unlimited
  cases host.call name args m.host with
  | some r => exact cut_same r.1 { m with host := r.2 }
  | none =>
    exact cut_same (Builtin.callByName name args m.console).1
      { m with console := (Builtin.callByName name args m.console).2 }

theorem leave_cut (m : Machine σ) : leave m.unlimited = (leave m).unlimited := by
  obtain ⟨position, frames, finished, limit, console, lastValue, lastError, host⟩ := m
  rcases frames with _ | ⟨f, _ | ⟨g, frames⟩⟩ <;> rfl

theorem Cut.andThen {r r' : Option (Result σ α)} {k k' : α → Machine σ → Option (Result σ β)}
    (hr : Cut r r') (hk : ∀ a m, r = some (.ok a, m) → Cut (k a m) (k' a m.unlimited)) :
    Cut (andThen r k) (andThen r' k') := by
  rcases hr with ⟨m, rfl⟩ | rfl
  · exact cut_timeout
  · rcases r with _ | ⟨e | a, m⟩
    · exact .inr rfl
    · exact cut_same (.error e) m
    · exact hk a m rfl

variable {host : Host σ} {code : Array Instruction}

/-- Computations with a limit and without one. -/
def cutting (host : Host σ) (code : Array Instruction) : Comparison host host code where
  link m m' := m' = m.unlimited
  rel _ _ r r' := Cut r r'
  allows _ := True
  moves _ := True
  position h := by rw [h]; rfl
  frames h := by rw [h]; rfl
  andThen hr hk := hr.andThen fun a m ha => hk a m _ ha rfl
  done h x := by rw [h]; exact cut_same x _
  fetch h := by rw [h]; exact fetch_cut code _
  store h _ := by rw [h]; exact .inr rfl
  move h _ _ := by rw [h]; exact .inr rfl
  select _ := ⟨trivial, trivial⟩
  resolve h name := by rw [h]; exact .inr rfl
  crowded _ _ _ := .inr rfl
  call h _ args := by rw [h]; exact callWithValues_cut host _ args _

theorem cutting_blocks : (cutting host code).Blocks where
  moves _ := trivial
  enter h slots := by rw [h]; rfl
  close _ hr := by
    refine Cut.andThen hr fun _ m _ => ?_
    rw [leave_cut]
    exact cut_same (.ok ()) (leave m)
  last h v := by rw [h]; exact .inr rfl

/-- **Runs with a limit.** -/
theorem runUntil_cut (fuel stop rounds : Nat) (m : Machine σ) :
    Cut (runUntil (step host code fuel) stop rounds m)
      (runUntil (step host code fuel) stop rounds m.unlimited) :=
  cutting_blocks.steps (fun _ _ => trivial) (fun _ _ => .inr rfl) fuel stop rounds rfl

/-! ### Clocks -/

end Machine

/-- The clock will say that the time is up, once it has been asked so many times more. -/
def Limit.isUpAfter (k : Nat) : Limit → Bool
  | .none => false
  | .within _ clock => clock.answers (clock.given + k)

theorem Limit.isUpAfter_zero (limit : Limit) : limit.isUpAfter 0 = limit.isUp := by
  cases limit <;> rfl

theorem Limit.isUpAfter_later (k : Nat) (limit : Limit) :
    limit.later.isUpAfter k = limit.isUpAfter (k + 1) := by
  cases limit with
  | none => rfl
  | within span clock => exact congrArg clock.answers (Nat.succ_add_eq_add_succ _ _)

namespace Machine

variable {σ α β : Type} {host : Host σ} {code : Array Instruction}

/-- There is a result, and the time of the machine is up after at most so many fetches. -/
def Spends (k : Nat) (r : Option (Result σ α)) : Prop :=
  ∃ x m j, r = some (x, m) ∧ m.limit.isUpAfter j = true ∧ j ≤ k

/-- There is a result, and the time of the machine is up after at most so many fetches; after a
success it is after fewer. -/
def Pays (k : Nat) (r : Option (Result σ α)) : Prop :=
  ∃ x m j, r = some (x, m) ∧ m.limit.isUpAfter j = true ∧ j ≤ k ∧ ∀ a, x = .ok a → j < k

variable {k : Nat} {m : Machine σ}

theorem Pays.spends {r : Option (Result σ α)} (h : Pays k r) : Spends k r := by
  obtain ⟨x, m, j, hr, hm, hle, -⟩ := h
  exact ⟨x, m, j, hr, hm, hle⟩

theorem spends_here {r : Result σ α} (hm : r.2.limit.isUpAfter k = true) : Spends k (some r) :=
  ⟨r.1, r.2, k, rfl, hm, Nat.le_refl k⟩

theorem Spends.andThen {r : Option (Result σ α)} {next : α → Machine σ → Option (Result σ β)}
    (hr : Spends k r)
    (hnext : ∀ a m j, r = some (.ok a, m) → j ≤ k → m.limit.isUpAfter j = true →
      Spends j (next a m)) :
    Spends k (andThen r next) := by
  obtain ⟨x, m, j, rfl, hm, hle⟩ := hr
  cases x with
  | error e => exact ⟨.error e, m, j, rfl, hm, hle⟩
  | ok a =>
    obtain ⟨y, m', i, hy, hm', hle'⟩ := hnext a m j rfl hle hm
    exact ⟨y, m', i, hy, hm', Nat.le_trans hle' hle⟩

theorem fetch_pays (hm : m.limit.isUpAfter k = true)
    {next : Instruction → Machine σ → Option (Result σ α)}
    (hnext : ∀ i m j, k = j + 1 → i ∈ code → m.limit.isUpAfter j = true → Spends j (next i m)) :
    Pays k (andThen (some (fetch code m)) next) := by
  rw [fetch]
  split
  · exact ⟨_, m, k, rfl, hm, Nat.le_refl k, by simp⟩
  · rename_i hup
    cases hi : code[m.position]? with
    | none => exact ⟨_, m, k, rfl, hm, Nat.le_refl k, by simp⟩
    | some i =>
      obtain ⟨k, rfl⟩ : ∃ j, k = j + 1 := by
        refine Nat.exists_eq_succ_of_ne_zero ?_
        rintro rfl
        exact hup (m.limit.isUpAfter_zero ▸ hm)
      rw [← Limit.isUpAfter_later] at hm
      obtain ⟨x, m', j, hx, hm', hle⟩ := hnext i
        { m with position := m.position + 1, limit := m.limit.later } k rfl
        (Array.mem_of_getElem? hi) hm
      exact ⟨x, m', j, hx, hm', by omega, fun _ _ => by omega⟩

theorem fetch_spends (hm : m.limit.isUpAfter k = true) : Spends k (some (fetch code m)) := by
  have hpays : Pays k (andThen (some (fetch code m)) fun i m => some (.ok i, m)) :=
    fetch_pays hm fun i m j _ _ hm => spends_here hm
  rcases hfetch : fetch code m with ⟨e | i, n⟩ <;> rw [hfetch] at hpays <;> exact hpays.spends

@[simp] theorem limit_callWithValues (name : String) (args : List Value) (m : Machine σ) :
    (callWithValues host name args m).2.limit = m.limit := by
  unfold callWithValues
  split <;> rfl

/-- Computations whose time is up after at most so many fetches, with room for all arguments. -/
def spending (host : Host σ) (code : Array Instruction) (k : Nat) : Comparison host host code where
  link m m' := m' = m ∧ ∃ j ≤ k, m.limit.isUpAfter j = true
  rel m _ r _ := ∀ j ≤ k, m.limit.isUpAfter j = true → Spends j r
  allows i := HasRoom i
  moves _ := True
  position h := by rw [h.1]
  frames h := by rw [h.1]
  andThen hr hk j hle hj :=
    (hr j hle hj).andThen fun a m i ha hi hm =>
      hk a m m ha ⟨rfl, i, Nat.le_trans hi hle, hm⟩ i (Nat.le_trans hi hle) hm
  done _ _ _ _ hj := spends_here hj
  fetch _ _ _ hj := fetch_spends hj
  store _ _ _ _ hj := spends_here hj
  move _ _ _ _ _ hj := spends_here hj
  select _ := ⟨trivial, trivial⟩
  resolve _ _ _ _ hj := spends_here hj
  crowded _ hroom hlt := absurd hroom (Nat.not_le.2 hlt)
  call _ _ _ _ _ hj := spends_here (by simpa using hj)

theorem spending_blocks : (spending host code k).Blocks where
  moves _ := trivial
  enter h slots := by rw [h.1]; exact ⟨rfl, h.2⟩
  close _ hr j hle hj := by
    refine Spends.andThen (hr j hle hj) fun _ m i _ _ hi => spends_here ?_
    rw [leave_eq]
    exact hi
  last _ _ _ _ hj := spends_here hj

theorem relates_spending {f : Machine σ → Option (Result σ α)}
    (h : ∀ m j, j ≤ k → m.limit.isUpAfter j = true → Spends j (f m)) :
    (spending host code k).Relates f f :=
  fun m _ _ j hle hj => h m j hle hj

variable (hroom : ∀ i ∈ code, HasRoom i)

include hroom in
theorem eval_pays {fuel : Nat} (hfuel : k < fuel) (hm : m.limit.isUpAfter k = true) :
    Pays k (eval host code fuel m) := by
  induction fuel generalizing m k with
  | zero => omega
  | succ fuel ih =>
    rw [eval_succ]
    refine fetch_pays hm fun i m j hj hi hm => ?_
    have hev : (spending host code j).Relates (eval host code fuel) (eval host code fuel) :=
      relates_spending fun m i hi hm => (ih (by omega) hm).spends
    exact Comparison.evalFetched hev (hroom i hi) ⟨rfl, j, Nat.le_refl j, hm⟩ j (Nat.le_refl j) hm

/-- **A run ends when its time is up** if its rounds do. -/
theorem runUntil_spends {st : Machine σ → Option (Result σ Unit)}
    (hst : ∀ m j, j ≤ k → m.limit.isUpAfter j = true → Pays j (st m)) (stop : Nat) {rounds : Nat}
    (hrounds : k < rounds) (hm : m.limit.isUpAfter k = true) :
    Spends k (runUntil st stop rounds m) := by
  induction rounds generalizing m k with
  | zero => omega
  | succ rounds ih =>
    rw [runUntil_succ]
    split
    · obtain ⟨x, m', j, hx, hm', hle, hlt⟩ := hst m k (Nat.le_refl k) hm
      rw [hx]
      cases x with
      | error e => exact ⟨.error e, m', j, rfl, hm', hle⟩
      | ok a =>
        have hlt := hlt a rfl
        obtain ⟨y, m'', i, hy, hm'', hle'⟩ :=
          ih (k := j) (fun m i hi => hst m i (by omega)) (by omega) hm'
        exact ⟨y, m'', i, hy, hm'', by omega⟩
    · exact spends_here hm

include hroom in
theorem step_pays {fuel : Nat} (hfuel : k < fuel) (hm : m.limit.isUpAfter k = true) :
    Pays k (step host code fuel m) := by
  induction fuel generalizing m k with
  | zero => omega
  | succ fuel ih =>
    rw [step_succ]
    refine fetch_pays hm ?_
    intro i m j hj hi hm
    have hev : (spending host code j).Relates (eval host code fuel) (eval host code fuel) :=
      relates_spending fun m i hi hm => (eval_pays hroom (by omega) hm).spends
    refine spending_blocks.perform hev (fun stop => relates_spending ?_) (hroom i hi)
      ⟨rfl, j, Nat.le_refl j, hm⟩ j (Nat.le_refl j) hm
    intro m i hi hm
    exact runUntil_spends (fun m i hi hm => ih (by omega) hm) stop (by omega) hm

end Machine

end BindScript
