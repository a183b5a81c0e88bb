/-
**Comparing computations.**

Many facts about the machine compare two computations that begin in states that belong together:
with less and with more fuel, with and without a limit, in one world and in another one.  Or they
say something of a single computation, which is compared with itself.  Such a comparison says when
two states are linked and how the computations that begin in linked states are related.  If it says
so of the single acts of the machine, and of a chain when it does of its parts, then it says so of
all rounds.

Main results:

* `Machine.Comparison.evalFetched`, `Machine.Comparison.Blocks.perform` — **the rounds, with one
  argument for all comparisons**.
-/

import BindScript.Proofs.Machine.Rounds

namespace BindScript

/-- A variable gets a value, or is declared. -/
def Frames.Stores (frames frames' : Frames) : Prop :=
  (∃ name v, frames.write name v = .ok frames') ∨ ∃ name v, frames.declare name v = .ok frames'

namespace Machine

variable {σ τ α β : Type}

/-- There is room for the arguments of an instruction. -/
def HasRoom : Instruction → Prop
  | .call _ argc => argc ≤ maxArguments
  | _ => True

/-- There is room for as many arguments as a function of the catalog takes. -/
theorem room_of_params {b : Builtin} {argc : Nat} (h : argc ≤ b.signature.params.length) :
    argc ≤ maxArguments := by
  have hparams : b.signature.params.length ≤ 10 := by cases b <;> decide
  exact Nat.le_trans h (Nat.le_trans hparams (by decide))

def resolve (host : Host σ) (name : String) (m : Machine σ) : Result σ Value :=
  ((host.resolve name m.host).1, { m with host := (host.resolve name m.host).2 })

/-- Which states are linked, how the computations that begin in them are related, and that chains
and single acts keep to it. -/
structure Comparison (host : Host σ) (host' : Host τ) (code : Array Instruction) where
  link : Machine σ → Machine τ → Prop
  rel : {α : Type} → Machine σ → Machine τ → Option (Result σ α) → Option (Result τ α) → Prop
  /-- The instructions that can be fetched. -/
  allows : Instruction → Prop
  /-- The positions that can be jumped to. -/
  moves : Nat → Prop
  position : ∀ {m m'}, link m m' → m'.position = m.position
  frames : ∀ {m m'}, link m m' → m'.frames = m.frames
  andThen : ∀ {α β : Type} {m m'} {r : Option (Result σ α)} {r' : Option (Result τ α)}
    {k : α → Machine σ → Option (Result σ β)} {k' : α → Machine τ → Option (Result τ β)},
    rel m m' r r' →
    (∀ a n n', r = some (.ok a, n) → link n n' → rel n n' (k a n) (k' a n')) →
    rel m m' (Machine.andThen r k) (Machine.andThen r' k')
  done : ∀ {α : Type} {m m'}, link m m' → ∀ x : Except RuntimeError α,
    rel m m' (some (x, m)) (some (x, m'))
  fetch : ∀ {m m'}, link m m' → rel m m' (some (fetch code m)) (some (fetch code m'))
  store : ∀ {m m' frames}, link m m' → m.frames.Stores frames →
    rel m m' (some (.ok Value.void, { m with frames })) (some (.ok Value.void, { m' with frames }))
  move : ∀ {m m' target}, link m m' → moves target → target ≤ code.size →
    rel m m' (some (.ok (), { m with position := target }))
      (some (.ok (), { m' with position := target }))
  select : ∀ {otherwise stop}, allows (.select otherwise stop) → moves otherwise ∧ moves stop
  resolve : ∀ {m m'}, link m m' → ∀ name,
    rel m m' (some (resolve host name m)) (some (resolve host' name m'))
  /-- Where there is no room for the arguments, neither computation has a result. -/
  crowded : ∀ {α : Type} {m m' name argc}, link m m' → allows (.call name argc) →
    maxArguments < argc → rel (α := α) m m' none none
  call : ∀ {m m' name argc}, link m m' → allows (.call name argc) → ∀ args,
    rel m m' (some (callWithValues host name args m)) (some (callWithValues host' name args m'))

namespace Comparison

variable {host : Host σ} {host' : Host τ} {code : Array Instruction}
    (C : Comparison host host' code)
  {m : Machine σ} {m' : Machine τ}

/-- Computations that are related wherever they begin. -/
def Relates (f : Machine σ → Option (Result σ α)) (g : Machine τ → Option (Result τ α)) : Prop :=
  ∀ ⦃m m'⦄, C.link m m' → C.rel m m' (f m) (g m')

/-! ### Single acts -/

theorem assign (h : C.link m m') (name : String) (v : Value) :
    C.rel m m' (some (assign name v m)) (some (assign name v m')) := by
  unfold Machine.assign
  rw [C.frames h]
  cases hwrite : m.frames.write name v with
  | error e => exact C.done h _
  | ok frames => exact C.store h (.inl ⟨name, v, hwrite⟩)

theorem declare (h : C.link m m') (name : String) (v : Option Value) :
    C.rel m m' (some (declare name v m)) (some (declare name v m')) := by
  unfold Machine.declare
  rw [C.frames h]
  cases hdeclare : m.frames.declare name v with
  | error e => exact C.done h _
  | ok frames => exact C.store h (.inr ⟨name, v, hdeclare⟩)

theorem jump (h : C.link m m') {target : Nat} (htarget : C.moves target) :
    C.rel m m' (some (jump code.size target m)) (some (jump code.size target m')) := by
  unfold Machine.jump
  split
  · rename_i hle
    exact C.move h htarget hle
  · exact C.done h _

theorem updateTarget (h : C.link m m') (b : Builtin) (i : Instruction) :
    C.rel m m' (some (updateTarget b i m)) (some (updateTarget b i m')) := by
  cases i with
  | load target =>
    simp only [Machine.updateTarget, C.frames h]
    rcases m.frames.read target with e | v
    · exact C.done h _
    · cases v with
      | int n =>
        simp only
        rcases Value.checkedInt b.name (n.toInt + referenceStep b) with e | w
        · exact C.done h _
        · exact C.assign h target w
      | _ => exact C.done h _
  | _ => exact C.done h _

/-! ### Expressions -/

section

variable {C} {ev : Machine σ → Option (Result σ Value)} {ev' : Machine τ → Option (Result τ Value)}
  (hev : C.Relates ev ev')

include hev

theorem evalArgs (count : Nat) : C.Relates (evalArgs ev count) (evalArgs ev' count) := by
  induction count with
  | zero => exact fun m m' h => C.done h _
  | succ count ih =>
    intro m m' h
    rw [evalArgs_succ, evalArgs_succ]
    refine C.andThen (hev h) fun v n n' _ h => ?_
    exact C.andThen (ih h) fun vs n n' _ h => C.done h _

theorem collectArgs {name : String} {argc : Nat} (hi : C.allows (.call name argc)) :
    C.Relates (collectArgs ev argc) (collectArgs ev' argc) := by
  intro m m' h
  unfold Machine.collectArgs
  split
  · exact evalArgs hev argc h
  · rename_i hroom
    exact C.crowded h hi (Nat.not_le.1 hroom)

theorem evalCall {name : String} {argc : Nat} (hi : C.allows (.call name argc)) :
    C.Relates (evalFetched host code ev (.call name argc))
      (evalFetched host' code ev' (.call name argc)) := by
  intro m m' h
  cases hname : Builtin.ofName? name with
  | none =>
    rw [evalFetched_call_unknown hname, evalFetched_call_unknown hname]
    exact C.andThen (collectArgs hev hi h) fun args n n' _ h => C.call h hi args
  | some b =>
    cases href : b.takesReference with
    | true =>
      rw [evalFetched_call_reference hname href, evalFetched_call_reference hname href,
        callByReference_eq, callByReference_eq]
      split
      · exact C.done h _
      · exact C.andThen (C.fetch h) fun i n n' _ h => C.updateTarget h b i
    | false =>
      rw [evalFetched_call hname href, evalFetched_call hname href]
      refine C.andThen (collectArgs hev hi h) fun args n n' _ h => ?_
      cases completeArgs b args with
      | error e => exact C.done h _
      | ok args => exact C.call h hi args

theorem evalFetched {i : Instruction} (hi : C.allows i) :
    C.Relates (evalFetched host code ev i) (evalFetched host' code ev' i) := by
  intro m m' h
  cases i with
  | load name =>
    simp only [Machine.evalFetched, C.frames h]
    exact C.done h _
  | loadHost name => exact C.resolve h name
  | assign name =>
    rw [evalFetched_assign, evalFetched_assign]
    exact C.andThen (hev h) fun v n n' _ h => C.assign h name v
  | declare name init =>
    cases init with
    | false => exact C.declare h name none
    | true =>
      rw [evalFetched_declare, evalFetched_declare]
      exact C.andThen (hev h) fun v n n' _ h => C.declare h name (some v)
  | negate =>
    rw [evalFetched_negate, evalFetched_negate]
    exact C.andThen (hev h) fun v n n' _ h => C.done h _
  | binary op =>
    rw [evalFetched_binary, evalFetched_binary]
    refine C.andThen (hev h) fun l n n' _ h => ?_
    exact C.andThen (hev h) fun r n n' _ h => C.done h _
  | select otherwise stop =>
    obtain ⟨hotherwise, hstop⟩ := C.select hi
    rw [evalFetched_select, evalFetched_select]
    refine C.andThen (hev h) fun v n n' _ h => ?_
    cases v.isTruthy with
    | true =>
      refine C.andThen (hev h) fun w n n' _ h => ?_
      exact C.andThen (C.jump h hstop) fun _ n n' _ h => C.done h _
    | false => exact C.andThen (C.jump h hotherwise) fun _ n n' _ h => hev h
  | call name argc => exact evalCall hev hi h
  | _ => exact C.done h _

end

/-! ### Statements -/

/-- What a comparison of statements says in addition: of blocks, of the value that a statement
leaves behind, and of every jump. -/
structure Blocks : Prop where
  moves : ∀ target, C.moves target
  enter : ∀ {m m'}, C.link m m' → ∀ slots, C.link (enter slots m) (enter slots m')
  close : ∀ {m m' slots r r'}, C.link m m' →
    C.rel (Machine.enter slots m) (Machine.enter slots m') r r' →
    C.rel m m' (Machine.andThen r fun _ n => some (.ok (), leave n))
      (Machine.andThen r' fun (_ : Unit) n => some (.ok (), leave n))
  last : ∀ {m m'}, C.link m m' → ∀ v,
    C.rel m m' (some (.ok (), { m with lastValue := some v }))
      (some (.ok (), { m' with lastValue := some v }))

variable {C} (hblocks : C.Blocks) {ev : Machine σ → Option (Result σ Value)}
  {ev' : Machine τ → Option (Result τ Value)} {run : Nat → Machine σ → Option (Result σ Unit)}
  {run' : Nat → Machine τ → Option (Result τ Unit)}

include hblocks

/-- What a round does with the instruction that it has fetched. -/
theorem Blocks.perform (hev : C.Relates ev ev') (hrun : ∀ stop, C.Relates (run stop) (run' stop))
    {i : Instruction} (hi : C.allows i) :
    C.Relates (perform host code ev run i) (perform host' code ev' run' i) := by
  intro m m' h
  cases i with
  | block count slots =>
    simp only [Machine.perform, C.position h]
    split
    · exact C.done h _
    · exact hblocks.close h (hrun _ (hblocks.enter h slots))
  | jumpIfFalse target =>
    refine C.andThen (hev h) fun v n n' _ h => ?_
    cases v.isTruthy with
    | true => exact C.done h _
    | false => exact C.jump h (hblocks.moves target)
  | jump target => exact C.jump h (hblocks.moves target)
  | _ =>
    rw [perform_of_hasValue rfl, perform_of_hasValue rfl]
    exact C.andThen (evalFetched hev hi h) fun v n n' _ h => hblocks.last h v

omit hblocks

/-! ### Computations with the same fuel -/

theorem runUntil {st : Machine σ → Option (Result σ Unit)}
    {st' : Machine τ → Option (Result τ Unit)} (hnone : ∀ m m', C.rel (α := Unit) m m' none none)
    (hst : C.Relates st st') (stop rounds : Nat) :
    C.Relates (runUntil st stop rounds) (runUntil st' stop rounds) := by
  induction rounds with
  | zero => exact fun m m' _ => hnone m m'
  | succ rounds ih =>
    intro m m' h
    rw [runUntil_succ, runUntil_succ, C.position h]
    split
    · exact C.andThen (hst h) fun _ n n' _ h => ih h
    · exact C.done h _

theorem mem_of_fetch {i : Instruction} {n : Machine σ}
    (h : some (Machine.fetch code m) = some (.ok i, n)) : i ∈ code :=
  Array.mem_of_getElem? (fetch_eq_ok (Option.some.inj h)).1

variable (hallows : ∀ i ∈ code, C.allows i)
  (hnone : ∀ {α : Type} m m', C.rel (α := α) m m' none none)

include hallows hnone

theorem eval (fuel : Nat) : C.Relates (eval host code fuel) (eval host' code fuel) := by
  induction fuel with
  | zero => exact fun m m' _ => hnone m m'
  | succ fuel ih =>
    intro m m' h
    rw [eval_succ, eval_succ]
    exact C.andThen (C.fetch h) fun i n n' hi h => evalFetched ih (hallows i (mem_of_fetch hi)) h

include hblocks

theorem Blocks.step (fuel : Nat) : C.Relates (step host code fuel) (step host' code fuel) := by
  induction fuel with
  | zero => exact fun m m' _ => hnone m m'
  | succ fuel ih =>
    intro m m' h
    rw [step_succ, step_succ]
    refine C.andThen (C.fetch h) fun i n n' hi h => ?_
    exact hblocks.perform (eval hallows hnone fuel) (fun stop => runUntil hnone ih stop fuel)
      (hallows i (mem_of_fetch hi)) h

theorem Blocks.steps (fuel stop rounds : Nat) :
    C.Relates (Machine.runUntil (Machine.step host code fuel) stop rounds)
      (Machine.runUntil (Machine.step host' code fuel) stop rounds) :=
  runUntil hnone (hblocks.step hallows hnone fuel) stop rounds

end Comparison

/-! ### Fuel -/

variable {host : Host σ} {code : Array Instruction}

/-- The second computation has all results of the first one. -/
def Refines (f g : Machine σ → Option (Result σ α)) : Prop := ∀ ⦃m r⦄, f m = some r → g m = some r

theorem andThen_mono {r r' : Option (Result σ α)} {k k' : α → Machine σ → Option (Result σ β)}
    {x : Result σ β} (hr : ∀ y, r = some y → r' = some y)
    (hk : ∀ a m, r = some (.ok a, m) → ∀ x, k a m = some x → k' a m = some x)
    (h : andThen r k = some x) : andThen r' k' = some x := by
  rcases andThen_eq_some.1 h with ⟨e, m, hfail, rfl⟩ | ⟨a, m, hok, hnext⟩
  · rw [hr _ hfail, andThen_error]
  · rw [hr _ hok, andThen_ok]
    exact hk a m hok x hnext

theorem position_of_eq {m m' : Machine σ} (h : m' = m) : m'.position = m.position := by rw [h]

theorem frames_of_eq {m m' : Machine σ} (h : m' = m) : m'.frames = m.frames := by rw [h]

/-- Computations of one machine with more and more results. -/
def refining (host : Host σ) (code : Array Instruction) : Comparison host host code where
  link m m' := m' = m
  rel _ _ r r' := ∀ x, r = some x → r' = some x
  allows _ := True
  moves _ := True
  position h := position_of_eq h
  frames h := frames_of_eq h
  andThen hr hk x h := andThen_mono hr (fun a n hok => hk a n n hok rfl) h
  done h _ _ := by rw [h]; exact id
  fetch h _ := by rw [h]; exact id
  store h _ _ := by rw [h]; exact id
  move h _ _ _ := by rw [h]; exact id
  select _ := ⟨trivial, trivial⟩
  resolve h _ _ := by rw [h]; exact id
  crowded _ _ _ _ h := absurd h (by simp)
  call h _ _ _ := by rw [h]; exact id

theorem refining_blocks : (refining host code).Blocks where
  moves _ := trivial
  enter h slots := congrArg (enter slots) h
  close _ hr x h := andThen_mono hr (fun _ _ _ _ h => h) h
  last h _ _ := by rw [h]; exact id

theorem relates_refining {f g : Machine σ → Option (Result σ α)} :
    (refining host code).Relates f g ↔ Refines f g := by
  constructor
  · intro h m r hr
    exact h rfl r hr
  · rintro h m _ rfl r hr
    exact h hr

theorem eval_mono {fuel fuel' : Nat} (hfuel : fuel ≤ fuel') :
    Refines (eval host code fuel) (eval host code fuel') := by
  induction fuel generalizing fuel' with
  | zero =>
    intro m r h
    simp [eval] at h
  | succ fuel ih =>
    obtain ⟨fuel', rfl⟩ : ∃ n, fuel' = n + 1 := ⟨fuel' - 1, by omega⟩
    intro m r h
    rw [eval_succ] at h ⊢
    refine andThen_mono (fun _ h => h) (fun i n _ x h => ?_) h
    have hev : (refining host code).Relates (eval host code fuel) (eval host code fuel') :=
      relates_refining.2 (ih (by omega))
    exact Comparison.evalFetched hev (i := i) trivial rfl x h

theorem runUntil_mono {st st' : Machine σ → Option (Result σ Unit)} (hst : Refines st st')
    (stop : Nat) {rounds rounds' : Nat} (hrounds : rounds ≤ rounds') :
    Refines (runUntil st stop rounds) (runUntil st' stop rounds') := by
  induction rounds generalizing rounds' with
  | zero =>
    intro m r h
    simp [runUntil] at h
  | succ rounds ih =>
    obtain ⟨rounds', rfl⟩ : ∃ n, rounds' = n + 1 := ⟨rounds' - 1, by omega⟩
    intro m r h
    rw [runUntil_succ] at h ⊢
    split at h
    · rename_i hlt
      rw [if_pos hlt]
      exact andThen_mono (fun _ hy => hst hy) (fun _ _ _ _ hy => ih (by omega) hy) h
    · rename_i hlt
      rw [if_neg hlt]
      exact h

theorem step_mono {fuel fuel' : Nat} (hfuel : fuel ≤ fuel') :
    Refines (step host code fuel) (step host code fuel') := by
  induction fuel generalizing fuel' with
  | zero =>
    intro m r h
    simp [step] at h
  | succ fuel ih =>
    obtain ⟨fuel', rfl⟩ : ∃ n, fuel' = n + 1 := ⟨fuel' - 1, by omega⟩
    intro m r h
    rw [step_succ] at h ⊢
    refine andThen_mono (fun _ h => h) (fun i n _ x h => ?_) h
    have hev : (refining host code).Relates (eval host code fuel) (eval host code fuel') :=
      relates_refining.2 (eval_mono (by omega))
    exact refining_blocks.perform hev
      (fun stop => relates_refining.2 (runUntil_mono (ih (by omega)) stop (by omega))) (i := i)
        trivial rfl
      x h

theorem runFuel_mono {fuel fuel' : Nat} (hfuel : fuel ≤ fuel') (limit : Limit) :
    Refines (runFuel host code limit fuel) (runFuel host code limit fuel') := by
  intro m r h
  rw [runFuel_eq_andThen] at h ⊢
  exact andThen_mono (fun _ hy => runUntil_mono (step_mono hfuel) _ hfuel hy)
    (fun _ _ _ _ hx => hx) h

end Machine

end BindScript
