/-
**Runs and outcomes.**

Whether a run comes to a result, and to which one, does not hang on fuel; the relations below leave
it out. They are then compared with the outcomes of trees: two such things *agree* if every result
of the machine is matched by an outcome of the tree, and every outcome of the tree by a result of
the machine.

Main results:

* `Machine.reaches_step`, `Machine.reaches_stop` — runs step by step;
* `Machine.Agree.seq` — what agrees in one round and then in the rest of a run agrees in all;
* `Machine.LoopAt.seq` — the same for loops, which go on as long as their condition holds.
-/

import BindScript.Proofs.Simulation.Expression

namespace BindScript.Machine

variable {program : Array Instruction} {m n : Machine Unit} {stop rounds : Nat}

/-! ### Results without fuel -/

/-- With enough fuel, the round that begins at this state comes to the result. -/
def StepsTo (program : Array Instruction) (m : Machine Unit) (x : Result Unit Unit) : Prop :=
  ∃ fuel, step .plain program fuel m = some x

/-- With enough fuel, the run up to a position comes to the result within so many rounds. -/
def ReachesIn (program : Array Instruction) (stop rounds : Nat) (m : Machine Unit)
    (r : Result Unit Unit) : Prop :=
  ∃ fuel, runUntil (step .plain program fuel) stop rounds m = some r

/-- With enough fuel, the run up to a position comes to the result. -/
def Reaches (program : Array Instruction) (stop : Nat) (m : Machine Unit) (r : Result Unit Unit) :
    Prop :=
  ∃ rounds, ReachesIn program stop rounds m r

theorem StepsTo.unique {x y : Result Unit Unit} (hx : StepsTo program m x)
    (hy : StepsTo program m y) : x = y := by
  obtain ⟨fuel, hx⟩ := hx
  obtain ⟨fuel', hy⟩ := hy
  have hx := step_mono (Nat.le_max_left fuel fuel') hx
  have hy := step_mono (Nat.le_max_right fuel fuel') hy
  exact Option.some.inj (hx.symm.trans hy)

variable {r : Result Unit Unit} {st : Store}

theorem not_reachesIn_zero : ¬ReachesIn program stop 0 m r := by
  rintro ⟨fuel, h⟩
  simp [runUntil] at h

theorem reachesIn_succ (hlt : m.position < stop) :
    ReachesIn program stop (rounds + 1) m r ↔
      (∃ e n, StepsTo program m (.error e, n) ∧ r = (.error e, n)) ∨
        ∃ n, StepsTo program m (.ok (), n) ∧ ReachesIn program stop rounds n r := by
  constructor
  · rintro ⟨fuel, h⟩
    rw [runUntil_succ, if_pos hlt] at h
    rcases andThen_eq_some.1 h with ⟨e, n, hstep, rfl⟩ | ⟨_, n, hstep, hrest⟩
    · exact .inl ⟨e, n, ⟨fuel, hstep⟩, rfl⟩
    · exact .inr ⟨n, ⟨fuel, hstep⟩, ⟨fuel, hrest⟩⟩
  · rintro (⟨e, n, ⟨fuel, hstep⟩, rfl⟩ | ⟨n, ⟨fuel, hstep⟩, ⟨fuel', hrest⟩⟩)
    · exact ⟨fuel, by rw [runUntil_succ, if_pos hlt, hstep, andThen_error]⟩
    · refine ⟨max fuel fuel', ?_⟩
      rw [runUntil_succ, if_pos hlt, step_mono (Nat.le_max_left fuel fuel') hstep, andThen_ok]
      exact runUntil_mono (step_mono (Nat.le_max_right fuel fuel')) stop (Nat.le_refl _) hrest

/-- A run goes on with the next round until it fails. -/
theorem reaches_step (hlt : m.position < stop) :
    Reaches program stop m r ↔
      (∃ e n, StepsTo program m (.error e, n) ∧ r = (.error e, n)) ∨
        ∃ n, StepsTo program m (.ok (), n) ∧ Reaches program stop n r := by
  constructor
  · rintro ⟨rounds, h⟩
    cases rounds with
    | zero => exact absurd h not_reachesIn_zero
    | succ rounds =>
      rcases (reachesIn_succ hlt).1 h with hfail | ⟨n, hstep, hrest⟩
      · exact .inl hfail
      · exact .inr ⟨n, hstep, rounds, hrest⟩
  · rintro (hfail | ⟨n, hstep, rounds, hrest⟩)
    · exact ⟨1, (reachesIn_succ hlt).2 (.inl hfail)⟩
    · exact ⟨rounds + 1, (reachesIn_succ hlt).2 (.inr ⟨n, hstep, hrest⟩)⟩

/-- A run ends where it has come to its stop. -/
theorem reaches_stop (hle : stop ≤ m.position) : Reaches program stop m r ↔ r = (.ok (), m) := by
  have hlt : ¬m.position < stop := by omega
  constructor
  · rintro ⟨rounds, fuel, h⟩
    cases rounds with
    | zero => simp [runUntil] at h
    | succ rounds =>
      rw [runUntil_succ, if_neg hlt] at h
      exact (Option.some.inj h).symm
  · rintro rfl
    exact ⟨1, 0, by rw [runUntil_succ, if_neg hlt]⟩

theorem Reaches.stop_le {n : Machine Unit} (h : Reaches program stop m (.ok (), n)) :
    stop ≤ n.position := by
  obtain ⟨rounds, h⟩ := h
  induction rounds generalizing m with
  | zero => exact absurd h not_reachesIn_zero
  | succ rounds ih =>
    by_cases hlt : m.position < stop
    · rcases (reachesIn_succ hlt).1 h with ⟨e, n', -, heq⟩ | ⟨n', -, hrest⟩
      · simp at heq
      · exact ih hrest
    · obtain rfl : n = m := by simpa using (reaches_stop (by omega)).1 ⟨_, h⟩
      omega

theorem reaches_of_ok (hstep : StepsTo program m (.ok (), n)) (hlt : m.position < stop) :
    Reaches program stop m r ↔ Reaches program stop n r := by
  rw [reaches_step hlt]
  constructor
  · rintro (⟨e, n', hfail, -⟩ | ⟨n', hok, hrest⟩)
    · exact absurd (hstep.unique hfail) (by simp)
    · obtain rfl : n = n' := by simpa using hstep.unique hok
      exact hrest
  · exact fun h => .inr ⟨n, hstep, h⟩

theorem reaches_of_error {e : RuntimeError} (hstep : StepsTo program m (.error e, n))
    (hlt : m.position < stop) :
    Reaches program stop m r ↔ r = (.error e, n) := by
  rw [reaches_step hlt]
  constructor
  · rintro (⟨e', n', hfail, rfl⟩ | ⟨n', hok, -⟩)
    · exact (hstep.unique hfail).symm
    · exact absurd (hstep.unique hok) (by simp)
  · exact fun h => .inl ⟨e, n, hstep, h⟩

/-! ### Agreement -/

/-- The result of the machine matches the outcome of the tree: it is the same error, or it is at the
given position; in both cases the machine is in the place of the store. -/
def Settles (m : Machine Unit) (laters : List (List Slot)) (stop : Nat) :
    Outcome → Result Unit Unit → Prop
  | (.ok (), st), x => x = (.ok (), m.holding stop laters st)
  | (.error e, st), x => ∃ p laters', x = (.error e, m.holding p laters' st)

/-- Every result is matched by an outcome, and every outcome by a result. -/
def Agree (outcomes : Outcome → Prop) (results : Result Unit Unit → Prop)
    (matching : Outcome → Result Unit Unit → Prop) : Prop :=
  (∀ r, results r → ∃ o, outcomes o ∧ matching o r) ∧
    ∀ o, outcomes o → ∃ r, results r ∧ matching o r

/-- An outcome, followed by other ones from its store if it is normal. -/
def Then (o : Outcome) (next : Store → Outcome → Prop) (o' : Outcome) : Prop :=
  match o with
  | (.ok (), st) => next st o'
  | (.error e, st) => o' = (.error e, st)

@[simp] theorem then_ok (st : Store) (next : Store → Outcome → Prop) (o : Outcome) :
    Then (.ok (), st) next o ↔ next st o := Iff.rfl

@[simp] theorem then_error (e : RuntimeError) (st : Store) (next : Store → Outcome → Prop)
    (o : Outcome) : Then (.error e, st) next o ↔ o = (.error e, st) := Iff.rfl

variable {laters laters' : List (List Slot)} {q stop' : Nat}

theorem Agree.congr {P P' : Outcome → Prop} {R R' : Result Unit Unit → Prop}
    {S : Outcome → Result Unit Unit → Prop} (hP : ∀ o, P' o ↔ P o) (hR : ∀ r, R' r ↔ R r)
    (h : Agree P R S) : Agree P' R' S := by
  refine ⟨fun r hr => ?_, fun o ho => ?_⟩
  · obtain ⟨o, ho, hS⟩ := h.1 r ((hR r).1 hr)
    exact ⟨o, (hP o).2 ho, hS⟩
  · obtain ⟨r, hr, hS⟩ := h.2 o ((hP o).1 ho)
    exact ⟨r, (hR r).2 hr, hS⟩

theorem Agree.of_step {o : Outcome} {x : Result Unit Unit} (hstep : StepsTo program n x)
    (hx : Settles m laters stop o x) :
    Agree (· = o) (StepsTo program n) (Settles m laters stop) := by
  refine ⟨fun r hr => ⟨o, rfl, ?_⟩, ?_⟩
  · rw [hr.unique hstep]
    exact hx
  · rintro _ rfl
    exact ⟨x, hstep, hx⟩

theorem Agree.of_error {e : RuntimeError} {p : Nat}
    (hstep : StepsTo program n (.error e, m.holding p laters' st)) (hlt : n.position < stop) :
    Agree (· = (.error e, st)) (Reaches program stop n) (Settles m laters stop') := by
  refine ⟨fun r hr => ⟨(.error e, st), rfl, p, laters', (reaches_of_error hstep hlt).1 hr⟩, ?_⟩
  rintro _ rfl
  exact ⟨_, (reaches_of_error hstep hlt).2 rfl, p, laters', rfl⟩

/-- A run that begins with a round that agrees: it fails with it, or it goes on. -/
theorem Agree.of_reachesIn {P : Outcome → Prop}
    (hround : Agree P (StepsTo program n) (Settles m laters q)) (hlt : n.position < stop)
    (hr : ReachesIn program stop rounds n r) :
    (∃ e st p l, P (.error e, st) ∧ r = (.error e, m.holding p l st)) ∨
      ∃ st fewer, fewer < rounds ∧ P (.ok (), st) ∧
        ReachesIn program stop fewer (m.holding q laters st) r := by
  cases rounds with
  | zero => exact absurd hr not_reachesIn_zero
  | succ rounds =>
    rcases (reachesIn_succ hlt).1 hr with ⟨e, n', hstep, rfl⟩ | ⟨n', hstep, hrest⟩
    · obtain ⟨⟨r₁, st⟩, hP, hS⟩ := hround.1 _ hstep
      cases r₁ with
      | ok u => simp [Settles] at hS
      | error e' =>
        obtain ⟨p, l, heq⟩ := hS
        obtain ⟨rfl, rfl⟩ : e = e' ∧ n' = m.holding p l st := by simpa using heq
        exact .inl ⟨e, st, p, l, hP, rfl⟩
    · obtain ⟨⟨r₁, st⟩, hP, hS⟩ := hround.1 _ hstep
      cases r₁ with
      | error e' => simp [Settles] at hS
      | ok u =>
        obtain rfl : n' = m.holding q laters st := by simpa [Settles] using hS
        exact .inr ⟨st, rounds, Nat.lt_succ_self rounds, hP, hrest⟩

/-- What agrees in one round and then in the rest of a run agrees in all of it. -/
theorem Agree.seq {P : Outcome → Prop} (next : Store → Outcome → Prop)
    (hround : Agree P (StepsTo program n) (Settles m laters q)) (hlt : n.position < stop)
    (hnext : ∀ st, P (.ok (), st) →
      Agree (next st) (Reaches program stop (m.holding q laters st)) (Settles m laters' stop')) :
    Agree (fun o => ∃ o₁, P o₁ ∧ Then o₁ next o) (Reaches program stop n)
      (Settles m laters' stop') := by
  constructor
  · rintro r ⟨rounds, hr⟩
    rcases hround.of_reachesIn hlt hr with ⟨e, st, p, l, hP, rfl⟩ | ⟨st, fewer, -, hP, hrest⟩
    · exact ⟨(.error e, st), ⟨_, hP, rfl⟩, p, l, rfl⟩
    · obtain ⟨o, ho, hmatch⟩ := (hnext st hP).1 r ⟨fewer, hrest⟩
      exact ⟨o, ⟨_, hP, ho⟩, hmatch⟩
  · rintro o ⟨⟨r₁, st⟩, hP, hthen⟩
    obtain ⟨x, hstep, hS⟩ := hround.2 _ hP
    cases r₁ with
    | ok u =>
      obtain rfl : x = (.ok (), m.holding q laters st) := hS
      obtain ⟨r, hr, hmatch⟩ := (hnext st hP).2 o hthen
      exact ⟨r, (reaches_of_ok hstep hlt).2 hr, hmatch⟩
    | error e =>
      obtain ⟨p, l, rfl⟩ := hS
      obtain rfl : o = (.error e, st) := hthen
      exact ⟨_, (reaches_of_error hstep hlt).2 rfl, p, l, rfl⟩

/-! ### Loops -/

/-- A loop in its place: the machine tests the condition at `p`, goes on at `body` or at `exit`, and
comes back from `back` to `p`. The stores that come up are good ones, and from these the body agrees
with its block. -/
structure LoopAt (program : Array Instruction) (m : Machine Unit) (laters : List (List Slot))
    (p body back exit : Nat) (condition : Expr) (block : Block) (good : Store → Prop) : Prop where
  good_eval : ∀ {st st' r}, good st → condition.eval st = (r, st') → good st'
  good_body : ∀ {st st'}, good st → Block.Exec block st (.ok (), st') → good st'
  agree : ∀ {st}, good st → Agree (Block.Exec block st) (StepsTo program (m.holding body laters st))
    (Settles m laters back)
  fails : ∀ {st e st'}, good st → condition.eval st = (.error e, st') →
    ∃ q, StepsTo program (m.holding p laters st) (.error e, m.holding q laters st')
  yes : ∀ {st v st'}, good st → condition.eval st = (.ok v, st') → v.isTruthy = true →
    StepsTo program (m.holding p laters st) (.ok (), m.holding body laters st')
  no : ∀ {st v st'}, good st → condition.eval st = (.ok v, st') → v.isTruthy = false →
    StepsTo program (m.holding p laters st) (.ok (), m.holding exit laters st')
  again : ∀ {st}, StepsTo program (m.holding back laters st) (.ok (), m.holding p laters st)

theorem ReachesIn.of_ok (h : ReachesIn program stop rounds m r)
    (hstep : StepsTo program m (.ok (), n)) (hlt : m.position < stop) :
    ∃ fewer, fewer < rounds ∧ ReachesIn program stop fewer n r := by
  cases rounds with
  | zero => exact absurd h not_reachesIn_zero
  | succ rounds =>
    rcases (reachesIn_succ hlt).1 h with ⟨e, n', hfail, -⟩ | ⟨n', hok, hrest⟩
    · exact absurd (hstep.unique hfail) (by simp)
    · obtain rfl : n = n' := by simpa using hstep.unique hok
      exact ⟨rounds, by omega, hrest⟩

namespace LoopAt

variable {p body back exit : Nat} {condition : Expr} {block : Block} {good : Store → Prop}
  {slots : List Slot} {line : Nat} {next : Store → Outcome → Prop}
  (h : LoopAt program m laters p body back exit condition block good)
include h

/-- A round of a loop whose condition holds: the body fails, or the run comes back in fewer
rounds. -/
theorem round {st' : Store} {v : Value} (hst : good st) (hc : condition.eval st = (.ok v, st'))
    (hv : v.isTruthy = true) (hp : p < stop) (hb : body < stop) (hk : back < stop)
    (hr : ReachesIn program stop rounds (m.holding p laters st) r) :
    (∃ e st'' q l, Block.Exec block st' (.error e, st'') ∧ r = (.error e, m.holding q l st'')) ∨
      ∃ st'' fewer, Block.Exec block st' (.ok (), st'') ∧ fewer < rounds ∧
        ReachesIn program stop fewer (m.holding p laters st'') r := by
  obtain ⟨n₁, hn₁, hr₁⟩ := hr.of_ok (h.yes hst hc hv) hp
  rcases (h.agree (h.good_eval hst hc)).of_reachesIn hb hr₁ with
    hfails | ⟨st'', n₂, hn₂, hexec, hr₂⟩
  · exact .inl hfails
  · obtain ⟨n₃, hn₃, hr₃⟩ := hr₂.of_ok h.again hk
    exact .inr ⟨st'', n₃, hexec, by omega, hr₃⟩

/-- Every result of a loop and of what follows it is matched. The induction is on the rounds that
the machine still has to go. -/
theorem outcome_of_reachesIn (hp : p < stop) (hb : body < stop) (hk : back < stop)
    (hnext : ∀ st, good st →
      Agree (next st) (Reaches program stop (m.holding exit laters st)) (Settles m laters' stop'))
    (hst : good st) (hr : ReachesIn program stop rounds (m.holding p laters st) r) :
    ∃ o, (∃ o₁, Stmt.Exec slots (.loop line condition block) st o₁ ∧ Then o₁ next o) ∧
      Settles m laters' stop' o r := by
  induction rounds using Nat.strongRecOn generalizing st with
  | ind rounds ih =>
    rcases hc : condition.eval st with ⟨e | v, st₁⟩
    · obtain ⟨q, hstep⟩ := h.fails hst hc
      have hr : r = _ := (reaches_of_error hstep hp).1 ⟨_, hr⟩
      exact ⟨(.error e, st₁), ⟨_, .loopFails hc, rfl⟩, q, laters, hr⟩
    · have hst₁ := h.good_eval hst hc
      cases hv : v.isTruthy with
      | false =>
        have hr := (reaches_of_ok (h.no hst hc hv) hp).1 ⟨_, hr⟩
        obtain ⟨o, ho, hmatch⟩ := (hnext st₁ hst₁).1 r hr
        exact ⟨o, ⟨_, .loopStop hc hv, ho⟩, hmatch⟩
      | true =>
        rcases h.round hst hc hv hp hb hk hr with ⟨e, st₂, q, l, hexec, rfl⟩ |
          ⟨st₂, fewer, hexec, hfewer, hr'⟩
        · exact ⟨(.error e, st₂), ⟨_, .loopBodyFails hc hv hexec, rfl⟩, q, l, rfl⟩
        · obtain ⟨o, ⟨o₁, hloop, hthen⟩, hmatch⟩ :=
            ih fewer hfewer (h.good_body hst₁ hexec) hr'
          exact ⟨o, ⟨o₁, .loopNext hc hv hexec hloop, hthen⟩, hmatch⟩

/-- Every outcome of a loop and of what follows it is matched. The induction is on the rounds of the
loop. -/
theorem reaches_of_exec (hp : p < stop) (hb : body < stop) (hk : back < stop)
    (hnext : ∀ st, good st →
      Agree (next st) (Reaches program stop (m.holding exit laters st)) (Settles m laters' stop'))
    {o₁ o : Outcome} (hexec : Stmt.Exec slots (.loop line condition block) st o₁) (hst : good st)
    (hthen : Then o₁ next o) :
    ∃ r, Reaches program stop (m.holding p laters st) r ∧ Settles m laters' stop' o r := by
  refine Stmt.Exec.loop_induct (motive := fun st o₁ => good st → Then o₁ next o →
    ∃ r, Reaches program stop (m.holding p laters st) r ∧ Settles m laters' stop' o r)
    ?_ ?_ ?_ ?_ hexec rfl hst hthen
  · -- the condition fails
    intro st e st₁ hc hst hthen
    obtain ⟨q, hstep⟩ := h.fails hst hc
    obtain rfl : o = (.error e, st₁) := hthen
    exact ⟨_, (reaches_of_error hstep hp).2 rfl, q, laters, rfl⟩
  · -- the condition does not hold
    intro st v st₁ hc hv hst hthen
    obtain ⟨r, hr, hmatch⟩ := (hnext st₁ (h.good_eval hst hc)).2 o hthen
    exact ⟨r, (reaches_of_ok (h.no hst hc hv) hp).2 hr, hmatch⟩
  · -- the body fails
    intro st v st₁ e st₂ hc hv hbody hst hthen
    obtain ⟨x, hstep, q, l, rfl⟩ := (h.agree (h.good_eval hst hc)).2 _ hbody
    obtain rfl : o = (.error e, st₂) := hthen
    refine ⟨_, ?_, q, l, rfl⟩
    rw [reaches_of_ok (h.yes hst hc hv) hp, reaches_of_error hstep hb]
  · -- another round
    intro st v st₁ st₂ o₁ hc hv hbody ih hst hthen
    have hst₁ := h.good_eval hst hc
    obtain ⟨x, hstep, rfl⟩ := (h.agree hst₁).2 _ hbody
    obtain ⟨r, hr, hmatch⟩ := ih (h.good_body hst₁ hbody) hthen
    refine ⟨r, ?_, hmatch⟩
    rw [reaches_of_ok (h.yes hst hc hv) hp, reaches_of_ok hstep hb, reaches_of_ok h.again hk]
    exact hr

/-- A loop in its place and what follows it agree with their trees. -/
theorem seq (hp : p < stop) (hb : body < stop) (hk : back < stop) (hnext : ∀ st, good st →
      Agree (next st) (Reaches program stop (m.holding exit laters st)) (Settles m laters' stop'))
    (hst : good st) :
    Agree (fun o => ∃ o₁, Stmt.Exec slots (.loop line condition block) st o₁ ∧ Then o₁ next o)
      (Reaches program stop (m.holding p laters st)) (Settles m laters' stop') :=
  ⟨fun _ ⟨_, hr⟩ => h.outcome_of_reachesIn hp hb hk hnext hst hr,
    fun _ ⟨_, hexec, hthen⟩ => h.reaches_of_exec hp hb hk hnext hexec hst hthen⟩

end LoopAt

end BindScript.Machine
