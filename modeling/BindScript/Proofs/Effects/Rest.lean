/-
**Runs from rest to rest.**

Between two rounds of a block the machine *rests*: it is at the start of one of the statements or
past the last one, or inside a branch or a loop, at one of its blocks or at the jump that follows
it.  One round takes it from a place of rest to a place of rest in the same block, unless it fails;
so the whole run of a block ends past its last statement.  A block inside a statement is a single
round, which is a run with less fuel.

What is known of the frames meanwhile is a parameter.  Expressions leave the frames alone, and a
simple statement changes them at its end.  So all that has to be known is what simple statements do
to the property, what entering and leaving a block does to it, and that evaluation keeps to some
values and errors wherever it holds.  Then it holds whenever the machine is about to fetch, and when
a run fails: the limit shows the machine at every single step.

Main results:

* `Machine.step_meets` — **one round** keeps the machine at rest;
* `Machine.block_meets`, `Machine.run_meets` — so do the runs of blocks and programs.
-/

import BindScript.Proofs.Code.Positions
import BindScript.Proofs.Effects.Statement

namespace BindScript

/-! ### Places in expressions -/

theorem Expr.exists_arg_at {args : List Expr} {p q : Nat} (hp : p ≤ q)
    (hq : q < p + (Expr.codeOfAll p args).length) :
    ∃ before arg rest, args = before ++ arg :: rest ∧ p + (Expr.codeOfAll p before).length ≤ q ∧
      q < p + (Expr.codeOfAll p before).length +
        (arg.codeAt (p + (Expr.codeOfAll p before).length)).length := by
  induction args generalizing p with
  | nil =>
    rw [Expr.codeOfAll, List.length_nil] at hq
    omega
  | cons arg args ih =>
    rw [Expr.codeOfAll, List.length_append] at hq
    by_cases hhere : q < p + (arg.codeAt p).length
    · exact ⟨[], arg, args, rfl, hp, hhere⟩
    · have hnext : p + (arg.codeAt p).length ≤ q := by omega
      obtain ⟨before, arg', rest, rfl, hle, hlt⟩ := ih hnext (by omega)
      refine ⟨arg :: before, arg', rest, rfl, ?_⟩
      rw [Expr.codeOfAll, List.length_append, ← Nat.add_assoc]
      exact ⟨hle, hlt⟩

/-- Every position in the code of an expression is a place with the same open blocks. -/
theorem Site.expr_at {root : Block} {ctx : Context} {e : Expr} {p q : Nat}
    (h : Site root p ctx (.expr e)) (hp : p ≤ q) (hq : q < p + (e.codeAt p).length) :
    ∃ part, Site root q ctx part := by
  -- induction on the length of the code, since arguments stand in lists
  have hall : ∀ (n : Nat) {e : Expr} {p : Nat}, (e.codeAt p).length ≤ n →
      Site root p ctx (.expr e) →
      p ≤ q → q < p + (e.codeAt p).length → ∃ part, Site root q ctx part := by
    intro n
    induction n with
    | zero =>
      intro e p hn
      have hpos := e.codeAt_pos p
      omega
    | succ n ih =>
      intro e p hn h hp hq
      rcases Nat.eq_or_lt_of_le hp with rfl | hlt
      · exact ⟨_, h⟩
      cases e with
      | literal line v | load target | host line name =>
        simp only [Expr.codeAt, List.length_cons, List.length_nil] at hq
        omega
      | negate line logical e =>
        simp only [Expr.codeAt, List.length_cons] at hn hq
        exact ih (by omega) (.operand h) hlt (by omega)
      | binary line op ty left right =>
        simp only [Expr.codeAt, List.length_cons, List.length_append] at hn hq
        by_cases hleft : q < p + 1 + (left.codeAt (p + 1)).length
        · exact ih (by omega) (.left h) hlt hleft
        · exact ih (by omega) (.right h) (by omega) (by omega)
      | select line ty condition yes no =>
        simp only [Expr.codeAt, List.length_cons, List.length_append] at hn hq
        by_cases hcondition : q < p + 1 + (condition.codeAt (p + 1)).length
        · exact ih (by omega) (.selector h) hlt hcondition
        by_cases hyes : q < p + 1 + (condition.codeAt (p + 1)).length +
            (yes.codeAt (p + 1 + (condition.codeAt (p + 1)).length)).length
        · exact ih (by omega) (.first h) (by omega) hyes
        · exact ih (by omega) (.second h rfl) (by omega) (by omega)
      | call line f ty args =>
        simp only [Expr.codeAt, List.length_cons] at hn hq
        have hin : q < p + 1 + (Expr.codeOfAll (p + 1) args).length := by omega
        obtain ⟨before, arg, rest, rfl, hle, hstop⟩ := Expr.exists_arg_at hlt hin
        have hlength := congrArg List.length (Expr.codeOfAll_append (p + 1) before (arg :: rest))
        simp only [Expr.codeOfAll, List.length_append] at hlength
        exact ih (by omega) (.argument h) hle hstop
  exact hall _ (Nat.le_refl _) h hp hq

/-- Every position in the code of a simple statement is a place with the same open blocks. -/
theorem Site.simple_at {root : Block} {ctx : Context} {s : Stmt} {p q : Nat}
    (h : Site root p ctx (.stmt s)) (hsimple : s.isSimple = true) (hp : p ≤ q)
    (hq : q < p + (s.codeAt p).length) : ∃ part, Site root q ctx part := by
  rcases Nat.eq_or_lt_of_le hp with rfl | hlt
  · exact ⟨_, h⟩
  cases s with
  | declare line name ty init =>
    rw [Stmt.stop_declare] at hq
    cases init with
    | none =>
      rw [initCode, List.length_nil] at hq
      omega
    | some e => exact (Site.init h).expr_at hlt hq
  | assign line target e =>
    rw [Stmt.stop_assign] at hq
    exact (Site.value h).expr_at hlt hq
  | perform e => exact (Site.performed h).expr_at hp hq
  | _ => simp [Stmt.isSimple] at hsimple

/-! ### Places of rest -/

/-- The parts of a statement at which the machine is between two rounds. -/
inductive Inner : Stmt → Nat → Nat → Part → Prop
  | yes {p line condition yes no} :
      Inner (.branch line condition yes no) p
        (p + 1 + (condition.codeAt (p + 1)).length) (.block yes)
  | skip {p q r line condition yes no} :
      q = p + 1 + (condition.codeAt (p + 1)).length → r = q + (yes.codeAt q).length →
      Inner (.branch line condition yes (some no)) p r (.goto (r + 1 + (no.codeAt (r + 1)).length))
  | no {p q r line condition yes no} :
      q = p + 1 + (condition.codeAt (p + 1)).length → r = q + (yes.codeAt q).length →
      Inner (.branch line condition yes (some no)) p (r + 1) (.block no)
  | body {p line condition body} :
      Inner (.loop line condition body) p (p + 1 + (condition.codeAt (p + 1)).length) (.block body)
  | again {p q line condition body} :
      q = p + 1 + (condition.codeAt (p + 1)).length →
      Inner (.loop line condition body) p (q + (body.codeAt q).length) (.goto p)

namespace Inner

variable {s : Stmt} {p q : Nat} {part : Part}

theorem site {root : Block} {ctx : Context} (h : Inner s p q part)
    (hs : Site root p ctx (.stmt s)) :
    Site root q ctx part := by
  cases h with
  | yes => exact .yes hs
  | skip hq hr => exact .skip hs hq hr
  | no hq hr => exact .no hs hq hr
  | body => exact .body hs
  | again hq => exact .again hs hq

theorem lt (h : Inner s p q part) : q < p + (s.codeAt p).length := by
  cases h with
  | @yes _ line condition yes no =>
    have hpos := yes.codeAt_pos (p + 1 + (condition.codeAt (p + 1)).length)
    cases no with
    | none =>
      rw [Stmt.stop_branch rfl]
      omega
    | some no =>
      rw [Stmt.stop_branchElse rfl rfl]
      omega
  | skip hq hr =>
    rw [Stmt.stop_branchElse hq hr]
    omega
  | @no _ q r line condition yes no hq hr =>
    have hpos := no.codeAt_pos (r + 1)
    rw [Stmt.stop_branchElse hq hr]
    omega
  | body =>
    rw [Stmt.stop_loop rfl]
    omega
  | again hq =>
    rw [Stmt.stop_loop hq]
    omega

end Inner

/-! ### Jumps -/

namespace Machine

section Jumps

variable {σ : Type} {host : Host σ} {code : Array Instruction} {Γ : Scopes} {frames : Frames}
  {V : Ty → Value → Prop} {Q : RuntimeError → Prop} {m : Machine σ} {p fuel target : Nat}

/-- A condition is evaluated, and the machine goes on or jumps. All is left alone. -/
theorem step_condition_attempts (hhost : host.Orderly) (hlaws : Lawful host Γ frames V Q)
    {condition : Expr} (hc : condition.Typed Γ) (hty : condition.ty = .bool)
    (hi : code[p]? = some (.jumpIfFalse target))
    (hcode : Code.At code (p + 1) (condition.codeAt (p + 1))) (htarget : target ≤ code.size)
    (hfuel : (condition.codeAt (p + 1)).length ≤ fuel) (hposition : m.position = p)
    (hframes : m.frames = frames) :
    Attempts m p (p + 1 + (condition.codeAt (p + 1)).length) Q
      (fun _ m' => Keeps m m' ∧
        (m'.position = p + 1 + (condition.codeAt (p + 1)).length ∨ m'.position = target))
      (step host code (fuel + 1) m) := by
  have hvoid : condition.ty ≠ .void := by
    rw [hty]
    decide
  rw [step_succ]
  refine (fetch_attempts hposition hi (Nat.le_refl p) (by omega)).andThen ?_
  rintro j m₁ ⟨rfl, hm₁, hposition₁⟩
  rw [perform]
  refine ((eval_attempts hhost hlaws fuel).part hc hvoid hcode hfuel hm₁
    hposition₁ hframes (by omega) (Nat.le_refl _)).andThen ?_
  rintro v m₂ ⟨-, hm₂, hposition₂⟩
  cases v.isTruthy with
  | true => exact attempts_ok ⟨hm₂, .inl hposition₂⟩
  | false =>
    simp only [Bool.false_eq_true, if_false]
    refine (jump_attempts htarget hm₂).imp ?_
    rintro _ m₃ ⟨hm₃, hposition₃⟩
    exact ⟨hm₃, .inr hposition₃⟩

theorem step_jump_attempts (hi : code[p]? = some (.jump target)) (htarget : target ≤ code.size)
    (hposition : m.position = p) :
    Attempts m p (p + 1) Q (fun _ m' => Keeps m m' ∧ m'.position = target)
      (step host code (fuel + 1) m) := by
  rw [step_succ]
  refine (fetch_attempts hposition hi (Nat.le_refl p) (Nat.lt_succ_self p)).andThen ?_
  rintro j m₁ ⟨rfl, hm₁, -⟩
  exact jump_attempts htarget hm₁

end Jumps

/-! ### Invariants -/

/-- What is to hold of frames where some blocks are open; which values of a type evaluation may come
to, in the scopes of a place; and with what errors it may fail. -/
structure Invariant where
  fresh : Prop
  frames : Context → Frames → Prop
  values : Scopes → Ty → Value → Prop
  errors : RuntimeError → Prop

namespace Invariant

/-- In these scopes the part of a place is well typed and all operations keep to the values and
errors; a simple statement that keeps to them keeps the property of the frames. -/
structure Governs (I : Invariant) (ctx : Context) (part : Part) (frames : Frames) (Γ : Scopes) :
    Prop where
  typed : part.Typed I.fresh Γ
  lawful : Lawful .plain Γ frames (I.values Γ) I.errors
  stores : ctx ≠ [] → Stores Γ frames (I.values Γ) I.errors
  next {b : Block} {before rest : List Stmt} {s : Stmt} {split : b.statements = before ++ s :: rest}
    {outer : Context} {frames' : Frames} (split' : b.statements = (before ++ [s]) ++ rest) :
    ctx = ⟨b, before, s :: rest, split⟩ :: outer → part = .stmt s → s.isSimple = true →
    s.Performs Γ (I.values Γ) frames frames' →
    I.frames (⟨b, before ++ [s], rest, split'⟩ :: outer) frames'

/-- The property of the frames is kept by the statements and the blocks of a program. -/
structure Kept (I : Invariant) (root : Block) : Prop where
  governs {p : Nat} {ctx : Context} {part : Part} {frames : Frames} :
    Site root p ctx part → I.frames ctx frames → ∃ Γ, I.Governs ctx part frames Γ
  past {b : Block} {before rest : List Stmt} {s : Stmt} {split : b.statements = before ++ s :: rest}
    {ctx : Context} {frames : Frames} (split' : b.statements = (before ++ [s]) ++ rest) :
    s.declares = [] →
    I.frames (⟨b, before, s :: rest, split⟩ :: ctx) frames →
    I.frames (⟨b, before ++ [s], rest, split'⟩ :: ctx) frames
  enter {p : Nat} {ctx : Context} {b : Block} {frames : Frames} : Site root p ctx (.block b) →
    I.frames ctx frames →
    I.frames (⟨b, [], b.statements, rfl⟩ :: ctx) (Frame.ofSlots b.slots :: frames)
  leave {o : Open} {ctx : Context} {frames : Frames} : I.frames (o :: ctx) frames →
    I.frames ctx frames.tail

end Invariant

/-! ### Results -/

/-- The machine stands at a position, and its frames have the property. There is a limit only if it
is said so. -/
structure Stands (I : Invariant) (limited : Prop) (ctx : Context) (p : Nat) (m : Machine Unit) :
    Prop where
  position : m.position = p
  frames : I.frames ctx m.frames
  limit : m.limit.span?.isSome = true → limited

/-- How the machine may fail inside a program: with one of the errors, or, if it is limited, at the
place where its time is up. Its frames have the property with the blocks that are open there. -/
def Fails (I : Invariant) (root : Block) (limited : Prop) (e : RuntimeError) (m : Machine Unit) :
    Prop :=
  ∃ p ctx part, Site root p ctx part ∧ I.frames ctx m.frames ∧
    (I.errors e ∨ limited ∧ e = .timeout m.limit.span ∧ m.position = p)

/-- A result, if there is one, is as it should be. -/
def Meets (I : Invariant) (root : Block) (limited : Prop) {α : Type} (P : α → Machine Unit → Prop)
    (r : Option (Result Unit α)) : Prop :=
  (∀ a m, r = some (.ok a, m) → P a m) ∧ ∀ e m, r = some (.error e, m) → Fails I root limited e m

section Meets

variable {I : Invariant} {root : Block} {limited : Prop} {α β : Type}
    {P P' : α → Machine Unit → Prop}
  {Q : β → Machine Unit → Prop} {r r' : Option (Result Unit α)} {m m' : Machine Unit}

theorem meets_none : Meets I root limited P none := ⟨by simp, by simp⟩

theorem meets_ok {a : α} (h : P a m) : Meets I root limited P (some (.ok a, m)) := by
  refine ⟨?_, by simp⟩
  intro a' m' heq
  obtain ⟨rfl, rfl⟩ : a = a' ∧ m = m' := by simpa using heq
  exact h

theorem meets_error {e : RuntimeError} (h : Fails I root limited e m) :
    Meets I root limited P (some (.error e, m)) := by
  refine ⟨by simp, ?_⟩
  intro e' m' heq
  obtain ⟨rfl, rfl⟩ : e = e' ∧ m = m' := by simpa using heq
  exact h

theorem Meets.andThen {k : α → Machine Unit → Option (Result Unit β)}
    (hr : Meets I root limited P r) (hk : ∀ a m, P a m → Meets I root limited Q (k a m)) :
    Meets I root limited Q (andThen r k) := by
  rcases r with _ | ⟨e | a, m⟩
  · exact meets_none
  · exact meets_error (hr.2 e m rfl)
  · exact hk a m (hr.1 a m rfl)

theorem Meets.imp (hr : Meets I root limited P r) (himp : ∀ a m, P a m → P' a m) :
    Meets I root limited P' r :=
  ⟨fun a m heq => himp a m (hr.1 a m heq), hr.2⟩

theorem Meets.of_refines (hr : Meets I root limited P r') (h : ∀ x, r = some x → r' = some x) :
    Meets I root limited P r :=
  ⟨fun a m heq => hr.1 a m (h _ heq), fun e m heq => hr.2 e m (h _ heq)⟩

/-- A computation that leaves all alone when it fails, in a range of places with the same open
blocks. -/
theorem meets_of_attempts {ctx : Context} {p stop : Nat} (hstop : p < stop)
    (hrange : ∀ q, p ≤ q → q < stop → ∃ part, Site root q ctx part) (hm : Stands I limited ctx p m)
    (h : Attempts m p stop I.errors P r) : Meets I root limited P r := by
  rcases h with ⟨a, m', rfl, ha⟩ | ⟨e, m', rfl, hkeeps, hcause⟩
  · exact meets_ok ha
  · have hframes : I.frames ctx m'.frames := by
      rw [hkeeps.frames]
      exact hm.frames
    rcases hcause with he | ⟨rfl, hlimited, hle, hlt⟩
    · obtain ⟨part, hsite⟩ := hrange p (Nat.le_refl p) hstop
      exact meets_error ⟨p, ctx, part, hsite, hframes, .inl he⟩
    · obtain ⟨part, hsite⟩ := hrange m'.position hle hlt
      have htimeout := congrArg RuntimeError.timeout (Limit.span_of_span? hkeeps.limit).symm
      exact meets_error ⟨_, ctx, part, hsite, hframes, .inr ⟨hm.limit hlimited, htimeout, rfl⟩⟩

theorem meets_of_attempts_here {ctx : Context} {p : Nat} {part : Part}
    (hsite : Site root p ctx part) (hm : Stands I limited ctx p m)
    (h : Attempts m p (p + 1) I.errors P r) : Meets I root limited P r := by
  refine meets_of_attempts (Nat.lt_succ_self p) ?_ hm h
  intro q hle hlt
  obtain rfl : p = q := by omega
  exact ⟨part, hsite⟩

theorem stands_reset (limited : Prop) (h : I.frames [] []) (m : Machine Unit) (limit : Limit)
    (hlimit : limit.span?.isSome = true → limited) :
    Stands I limited [] 0 (m.reset.withLimit limit) :=
  ⟨rfl, h, hlimit⟩

theorem Stands.move {ctx : Context} {p q : Nat} (h : Stands I limited ctx p m) (hkeeps : Keeps m m')
    (hposition : m'.position = q) : Stands I limited ctx q m' := by
  refine ⟨hposition, ?_, ?_⟩
  · rw [hkeeps.frames]
    exact h.frames
  · rw [hkeeps.limit]
    exact h.limit

end Meets

/-! ### Places of rest -/

variable {I : Invariant} {root : Block} {limited : Prop} {p q : Nat} {ctx : Context} {b : Block}
    {m : Machine Unit}
  {before rest : List Stmt} {s : Stmt}

theorem statements_split (b : Block) : b.statements = b.statements ++ [] := (List.append_nil _).symm

/-- The machine has come to the end of a block, all of whose variables are in sight. -/
def Ends (I : Invariant) (limited : Prop) (p : Nat) (ctx : Context) (b : Block) (m : Machine Unit) :
    Prop :=
  Stands I limited (⟨b, b.statements, [], statements_split b⟩ :: ctx) (p + (b.codeAt p).length) m

/-- The machine rests in a block: before a statement or past the last one, or inside a statement. -/
inductive Rests (I : Invariant) (limited : Prop) (p : Nat) (ctx : Context) (b : Block)
    (m : Machine Unit) : Prop
  | before {before after} (split : b.statements = before ++ after) :
      Stands I limited (⟨b, before, after, split⟩ :: ctx)
        (p + 1 + (codeOfStatements (p + 1) before).length) m →
      Rests I limited p ctx b m
  | inside {before s rest q part} (split : b.statements = before ++ s :: rest) :
      Inner s (p + 1 + (codeOfStatements (p + 1) before).length) q part →
      Stands I limited (⟨b, before, s :: rest, split⟩ :: ctx) q m →
      Rests I limited p ctx b m

theorem statement_stop {before rest : List Stmt} {s : Stmt}
    (split : b.statements = before ++ s :: rest) :
    p + 1 + (codeOfStatements (p + 1) before).length +
        (s.codeAt (p + 1 + (codeOfStatements (p + 1) before).length)).length ≤
      p + (b.codeAt p).length := by
  rw [b.stop_eq, split, codeOfStatements_append, List.length_append, codeOfStatements,
    List.length_append]
  omega

/-- The machine rests at the end of the block only when it is past the last statement. -/
theorem Rests.ends (h : Rests I limited p ctx b m) (hstop : ¬m.position < p + (b.codeAt p).length) :
    Ends I limited p ctx b m := by
  cases h with
  | @before before after split hm =>
    cases after with
    | nil =>
      obtain rfl : before = b.statements := by simpa using split.symm
      refine ⟨?_, hm.frames, hm.limit⟩
      rw [hm.position, b.stop_eq]
    | cons s rest =>
      have hle := statement_stop (p := p) split
      have hpos := s.codeAt_pos (p + 1 + (codeOfStatements (p + 1) before).length)
      have hposition := hm.position
      omega
  | @inside before s rest q part split hinner hm =>
    have hle := statement_stop (p := p) split
    have hlt := hinner.lt
    have hposition := hm.position
    omega

theorem rests_next (split' : b.statements = (before ++ [s]) ++ rest)
    (hq : q = p + 1 + (codeOfStatements (p + 1) before).length +
      (s.codeAt (p + 1 + (codeOfStatements (p + 1) before).length)).length)
    (hm : Stands I limited (⟨b, before ++ [s], rest, split'⟩ :: ctx) q m) :
    Rests I limited p ctx b m := by
  refine .before split' ⟨?_, hm.frames, hm.limit⟩
  rw [hm.position, hq, codeOfStatements_append, List.length_append, codeOfStatements,
    codeOfStatements, List.append_nil, Nat.add_assoc]

/-! ### Rounds -/

/-- A round at a block runs the block. -/
def BlockMeets (I : Invariant) (root : Block) (limited : Prop)
    (round : Machine Unit → Option (Result Unit Unit)) : Prop :=
  ∀ {p : Nat} {ctx : Context} {b : Block} {m : Machine Unit},
    Site root p ctx (.block b) → Stands I limited ctx p m →
    Meets I root limited (fun _ m' => ∃ m₁, Ends I limited p ctx b m₁ ∧ m' = leave m₁) (round m)

section Rounds

variable (hkept : I.Kept root) {fuel target : Nat} {part : Part}
include hkept

theorem rests_past {split : b.statements = before ++ s :: rest} (hs : s.declares = [])
    (hq : q = p + 1 + (codeOfStatements (p + 1) before).length +
      (s.codeAt (p + 1 + (codeOfStatements (p + 1) before).length)).length)
    (hm : Stands I limited (⟨b, before, s :: rest, split⟩ :: ctx) q m) :
    Rests I limited p ctx b m := by
  have split' : b.statements = (before ++ [s]) ++ rest := by simp [split]
  exact rests_next split' hq ⟨hm.position, hkept.past split' hs hm.frames, hm.limit⟩

theorem Ends.leave (h : Ends I limited p ctx b m) :
    Stands I limited ctx (p + (b.codeAt p).length) (leave m) := by
  rw [leave_eq]
  exact ⟨h.position, hkept.leave h.frames, h.limit⟩

theorem BlockMeets.passes {round : Machine Unit → Option (Result Unit Unit)}
    (h : BlockMeets I root limited round) (hsite : Site root p ctx (.block b))
    (hm : Stands I limited ctx p m) :
    Meets I root limited (fun _ m' => Stands I limited ctx (p + (b.codeAt p).length) m')
      (round m) := by
  refine (h hsite hm).imp ?_
  rintro _ _ ⟨m₁, hm₁, rfl⟩
  exact hm₁.leave hkept

theorem simple_meets (hsimple : s.isSimple = true) {split : b.statements = before ++ s :: rest}
    (hsite : Site root p (⟨b, before, s :: rest, split⟩ :: ctx) (.stmt s))
    (split' : b.statements = (before ++ [s]) ++ rest)
    (hm : Stands I limited (⟨b, before, s :: rest, split⟩ :: ctx) p m) :
    Meets I root limited
      (fun _ m' => Stands I limited (⟨b, before ++ [s], rest, split'⟩ :: ctx)
        (p + (s.codeAt p).length) m')
      (step .plain root.code.toArray fuel m) := by
  obtain ⟨Γ, hgoverns⟩ := hkept.governs hsite hm.frames
  obtain ⟨Γ', hs⟩ := hgoverns.typed
  have hattempts :=
    step_simple_attempts Host.plain_orderly hgoverns.lawful (hgoverns.stores (by simp)) hs hsimple
    hsite.code (Nat.le_max_right fuel (s.codeAt p).length) hm.position rfl
  have hpos := s.codeAt_pos p
  have hmeets := meets_of_attempts (by omega) (fun q hle hlt => hsite.simple_at hsimple hle hlt) hm
    hattempts
  refine (hmeets.of_refines fun x hx => step_mono (Nat.le_max_left _ _) hx).imp ?_
  intro _ m' hm'
  refine ⟨hm'.position, hgoverns.next split' rfl rfl hsimple hm'.frames, ?_⟩
  rw [hm'.limit]
  exact hm.limit

theorem condition_meets {condition : Expr} (hsite : Site root p ctx part)
    (hexpr : Site root (p + 1) ctx (.expr condition)) (hty : condition.ty = .bool)
    (hi : root.code.toArray[p]? = some (.jumpIfFalse target))
    (htarget : target ≤ root.code.toArray.size) (hm : Stands I limited ctx p m) :
    Meets I root limited
      (fun _ m' => Stands I limited ctx (p + 1 + (condition.codeAt (p + 1)).length) m' ∨
        Stands I limited ctx target m')
      (step .plain root.code.toArray fuel m) := by
  obtain ⟨Γ, hgoverns⟩ := hkept.governs hexpr hm.frames
  have hattempts := step_condition_attempts (m := m) Host.plain_orderly hgoverns.lawful
    hgoverns.typed hty hi hexpr.code htarget
    (Nat.le_max_right fuel (condition.codeAt (p + 1)).length) hm.position rfl
  have hrange : ∀ q, p ≤ q → q < p + 1 + (condition.codeAt (p + 1)).length →
      ∃ part, Site root q ctx part := by
    intro q hle hlt
    rcases Nat.eq_or_lt_of_le hle with rfl | hpast
    · exact ⟨part, hsite⟩
    · exact hexpr.expr_at hpast hlt
  have hmeets := meets_of_attempts (by omega) hrange hm hattempts
  refine (hmeets.of_refines fun x hx => step_mono (by omega) hx).imp ?_
  rintro _ m' ⟨hkeeps, hposition | hposition⟩
  · exact .inl (hm.move hkeeps hposition)
  · exact .inr (hm.move hkeeps hposition)

omit hkept in
theorem goto_meets (hsite : Site root p ctx (.goto target))
    (htarget : target ≤ root.code.toArray.size) (hm : Stands I limited ctx p m) :
    Meets I root limited (fun _ m' => Stands I limited ctx target m')
      (step .plain root.code.toArray (fuel + 1) m) := by
  refine (meets_of_attempts_here hsite hm
    (step_jump_attempts hsite.code.1 htarget hm.position)).imp ?_
  rintro _ m' ⟨hkeeps, hposition⟩
  exact hm.move hkeeps hposition

theorem stmt_meets (hblock : BlockMeets I root limited (step .plain root.code.toArray fuel))
    (hb : Site root p ctx (.block b)) (split : b.statements = before ++ s :: rest)
    (hm : Stands I limited (⟨b, before, s :: rest, split⟩ :: ctx)
      (p + 1 + (codeOfStatements (p + 1) before).length) m) :
    Meets I root limited (fun _ m' => Rests I limited p ctx b m')
      (step .plain root.code.toArray fuel m) := by
  have hsite : Site root _ _ (.stmt s) := .statement split hb
  obtain ⟨Γ, hgoverns⟩ := hkept.governs hsite hm.frames
  obtain ⟨Γ', hs⟩ := hgoverns.typed
  have hat : Code.At root.code.toArray _ (s.codeAt _) := hsite.code
  have hbound := hat.bound
  have split' : b.statements = (before ++ [s]) ++ rest := by simp [split]
  -- one step takes a simple statement or a block, but only the condition of the others
  cases hs with
  | @branch _ line condition yes _ hty _ =>
    rw [Stmt.stop_branch rfl] at hbound
    refine (condition_meets hkept hsite (.condition hsite) hty hat.1 hbound hm).imp ?_
    rintro _ m' (hm' | hm')
    · exact .inside split .yes hm'
    · exact rests_past hkept rfl (Stmt.stop_branch rfl).symm hm'
  | @branchElse _ line condition yes no _ hty _ _ =>
    rw [Stmt.stop_branchElse rfl rfl] at hbound
    refine (condition_meets hkept hsite (.condition hsite) hty hat.1 (by omega) hm).imp ?_
    rintro _ m' (hm' | hm')
    · exact .inside split .yes hm'
    · exact .inside split (.no rfl rfl) hm'
  | @loop _ line condition body _ hty _ =>
    rw [Stmt.stop_loop rfl] at hbound
    refine (condition_meets hkept hsite (.test hsite) hty hat.1 hbound hm).imp ?_
    rintro _ m' (hm' | hm')
    · exact .inside split .body hm'
    · exact rests_past hkept rfl (Stmt.stop_loop rfl).symm hm'
  | @block _ line body _ =>
    refine (hblock.passes hkept (.nested hsite) hm).imp ?_
    exact fun _ m' hm' => rests_past hkept rfl rfl hm'
  | declare _ =>
    exact (simple_meets hkept rfl hsite split' hm).imp fun _ m' hm' => rests_next split' rfl hm'
  | declareInit _ _ _ _ | assign _ _ _ _ =>
    exact (simple_meets hkept rfl hsite split' hm).imp fun _ m' hm' => rests_next split' rfl hm'
  | perform _ =>
    exact (simple_meets hkept rfl hsite split' hm).imp fun _ m' hm' => rests_next split' rfl hm'

theorem inner_meets (hblock : BlockMeets I root limited (step .plain root.code.toArray (fuel + 1)))
    (hb : Site root p ctx (.block b)) (split : b.statements = before ++ s :: rest)
    (hinner : Inner s (p + 1 + (codeOfStatements (p + 1) before).length) q part)
    (hm : Stands I limited (⟨b, before, s :: rest, split⟩ :: ctx) q m) :
    Meets I root limited (fun _ m' => Rests I limited p ctx b m')
      (step .plain root.code.toArray (fuel + 1) m) := by
  have hsite : Site root _ _ (.stmt s) := .statement split hb
  have hplace := hinner.site hsite
  have hbound : _ + (s.codeAt _).length ≤ root.code.toArray.size := hsite.code.bound
  cases hinner with
  | @yes _ line condition yes no =>
    refine (hblock.passes hkept hplace hm).imp ?_
    intro _ m' hm'
    cases no with
    | none => exact rests_past hkept rfl (Stmt.stop_branch rfl).symm hm'
    | some no => exact .inside split (.skip rfl rfl) hm'
  | @skip _ start _ line condition yes no hstart hq =>
    rw [Stmt.stop_branchElse hstart hq] at hbound
    refine (goto_meets hplace hbound hm).imp ?_
    exact fun _ m' hm' => rests_past hkept rfl (Stmt.stop_branchElse hstart hq).symm hm'
  | @no _ start q line condition yes no hstart hq =>
    refine (hblock.passes hkept hplace hm).imp ?_
    exact fun _ m' hm' => rests_past hkept rfl (Stmt.stop_branchElse hstart hq).symm hm'
  | body =>
    refine (hblock.passes hkept hplace hm).imp ?_
    exact fun _ m' hm' => .inside split (.again rfl) hm'
  | again hq =>
    refine (goto_meets hplace (by omega) hm).imp ?_
    exact fun _ m' hm' => .before split hm'

/-! ### Runs -/

/-- **One round** takes the machine from rest to rest. -/
theorem step_meets (hblock : BlockMeets I root limited (step .plain root.code.toArray (fuel + 1)))
    (hsite : Site root p ctx (.block b)) (hm : Rests I limited p ctx b m)
    (hstop : m.position < p + (b.codeAt p).length) :
    Meets I root limited (fun _ m' => Rests I limited p ctx b m')
      (step .plain root.code.toArray (fuel + 1) m) := by
  cases hm with
  | @before before after split hm =>
    cases after with
    | nil =>
      obtain rfl : before = b.statements := by simpa using split.symm
      have hposition := hm.position
      rw [b.stop_eq] at hstop
      omega
    | cons s rest => exact stmt_meets hkept hblock hsite split hm
  | inside split hinner hm => exact inner_meets hkept hblock hsite split hinner hm

/-- **A run** of a block ends past its last statement. -/
theorem runUntil_meets (hblock : BlockMeets I root limited (step .plain root.code.toArray fuel))
    (hsite : Site root p ctx (.block b)) (rounds : Nat) (hm : Rests I limited p ctx b m) :
    Meets I root limited (fun _ m' => Ends I limited p ctx b m')
      (runUntil (step .plain root.code.toArray fuel) (p + (b.codeAt p).length) rounds m) := by
  induction rounds generalizing m with
  | zero => exact meets_none
  | succ rounds ih =>
    rw [runUntil_succ]
    split
    · rename_i hlt
      cases fuel with
      | zero => exact meets_none
      | succ fuel => exact (step_meets hkept hblock hsite hm hlt).andThen fun _ m' hm' => ih hm'
    · rename_i hstop
      exact meets_ok (hm.ends hstop)

/-- **Blocks.** -/
theorem block_meets (hindex : IsIndex root.code.length) (fuel : Nat) :
    BlockMeets I root limited (step .plain root.code.toArray fuel) := by
  induction fuel with
  | zero => exact fun _ _ => meets_none
  | succ fuel ih =>
    intro p ctx b m hsite hm
    have hat : Code.At root.code.toArray p (b.codeAt p) := hsite.code
    have hbound := hat.bound
    rw [b.stop_eq] at hbound
    rw [b.codeAt_eq p] at hat
    rw [step_succ]
    refine (meets_of_attempts_here hsite hm
      (fetch_attempts hm.position hat.1 (Nat.le_refl p) (Nat.lt_succ_self p))).andThen ?_
    rintro _ m₁ ⟨rfl, hkeeps, hposition⟩
    have hm₁ := hm.move hkeeps hposition
    have hsize : IsIndex root.code.toArray.size := by simpa using hindex
    rw [perform, hm₁.position, Code.advance_eq (Nat.lt_of_le_of_lt hbound hsize), if_neg (by omega),
      ← b.stop_eq]
    have hstands : Stands I limited (⟨b, [], b.statements, rfl⟩ :: ctx)
        (p + 1) (enter b.slots m₁) :=
      ⟨hm₁.position, hkept.enter hsite hm₁.frames, hm₁.limit⟩
    refine (runUntil_meets hkept ih hsite fuel (.before rfl hstands)).andThen ?_
    intro _ m₂ hm₂
    exact meets_ok ⟨m₂, hm₂, rfl⟩

/-- **Programs.** -/
theorem run_meets (hindex : IsIndex root.code.length) (fuel : Nat) (hm : Stands I limited [] 0 m) :
    Meets I root limited (fun _ m' => ∃ m₁, Ends I limited 0 [] root m₁ ∧ m' = leave m₁)
      (andThen (runUntil (step .plain root.code.toArray fuel) root.code.toArray.size fuel m)
        fun _ m =>
        some (.ok m.lastValue, m)) := by
  have hsize : root.code.toArray.size = 0 + (root.codeAt 0).length := by
    rw [Nat.zero_add]
    rfl
  have hpos := root.codeAt_pos 0
  have hruns : ∀ rounds, Meets I root limited
      (fun _ m' => ∃ m₁, Ends I limited 0 [] root m₁ ∧ m' = leave m₁)
      (runUntil (step .plain root.code.toArray fuel) root.code.toArray.size rounds m) := by
    intro rounds
    cases rounds with
    | zero => exact meets_none
    | succ rounds =>
      rw [runUntil_succ, if_pos (by rw [hm.position]; omega)]
      refine (block_meets hkept hindex fuel .root hm).andThen ?_
      rintro _ _ ⟨m₁, hm₁, rfl⟩
      cases rounds with
      | zero => exact meets_none
      | succ rounds =>
        have hposition := (hm₁.leave hkept).position
        rw [runUntil_succ, if_neg (by omega)]
        exact meets_ok ⟨m₁, hm₁, rfl⟩
  exact (hruns fuel).andThen fun _ m' hm' => meets_ok hm'

end Rounds

end Machine

end BindScript
