/-
**Simple statements.**

A declaration, an assignment or a call is one round of the machine.  It evaluates an expression that
leaves all alone, and then it does one thing: it brings a variable into sight, writes a place, or
has the effect of its call.  If it fails, it fails before that.  An expression may also stand in the
place of a statement, as the body of a binding does; its value is then the last one.

Main results:

* `Machine.step_simple_attempts` — **simple statements**.
-/

import BindScript.Proofs.Effects.Expression

namespace BindScript

/-- A statement with no statements inside it. -/
def Stmt.isSimple : Stmt → Bool
  | .declare _ _ _ _ | .assign _ _ _ | .perform _ => true
  | .branch _ _ _ _ | .loop _ _ _ | .block _ _ => false

/-- What a simple statement makes of the frames: a declaration and an assignment do what they say,
and a call writes one place, if any. -/
def Stmt.Changes (Γ : Scopes) (s : Stmt) (frames frames' : Frames) : Prop :=
  match s with
  | .declare _ name _ _ => ∃ v, frames.declare name v = .ok frames'
  | .assign _ target _ => ∃ v, frames.write target.fullName v = .ok frames'
  | _ => frames' = frames ∨
      ∃ (target : Place) (v : Value), target.Typed Γ ∧ frames.write target.fullName v = .ok frames'

theorem Frames.declare_ne_error {frames : Frames} (h : frames ≠ []) {name : String}
    {v : Option Value} {e : RuntimeError} : frames.declare name v ≠ .error e := by
  intro hdeclare
  unfold Frames.declare at hdeclare
  split at hdeclare
  · exact h rfl
  · split at hdeclare
    · cases hdeclare
    · cases hdeclare

/-- What a simple statement makes of the frames, and with what values it does so. -/
def Stmt.Performs (Γ : Scopes) (V : Ty → Value → Prop) (s : Stmt) (frames frames' : Frames) :
    Prop :=
  match s with
  | .declare _ name ty _ => ∃ v, (∀ w, v = some w → V ty w) ∧ frames.declare name v = .ok frames'
  | .assign _ target _ => ∃ v, V target.ty v ∧ frames.write target.fullName v = .ok frames'
  | _ => frames' = frames ∨ ∃ (target : Place) (v : Value), target.Typed Γ ∧ V target.ty v ∧
      frames.write target.fullName v = .ok frames'

theorem Stmt.Performs.changes {Γ : Scopes} {V : Ty → Value → Prop} {s : Stmt}
    {frames frames' : Frames} (h : s.Performs Γ V frames frames') : s.Changes Γ frames frames' := by
  cases s with
  | declare line name ty init =>
    obtain ⟨v, -, hdeclare⟩ := h
    exact ⟨v, hdeclare⟩
  | assign line target e =>
    obtain ⟨v, -, hwrite⟩ := h
    exact ⟨v, hwrite⟩
  | _ => exact h.imp_right fun ⟨target, v, htarget, _, hwrite⟩ => ⟨target, v, htarget, hwrite⟩

namespace Machine

variable {σ : Type} {host : Host σ} {code : Array Instruction} {Γ : Scopes} {frames : Frames}
  {V : Ty → Value → Prop} {Q : RuntimeError → Prop} {m : Machine σ} {e : Expr} {p stop fuel : Nat}

/-! ### Rounds with a value -/

/-- A round at an instruction with a value, which is kept as the last one. -/
theorem step_value_attempts {i : Instruction} {P : Value → Machine σ → Prop}
    (hposition : m.position = p) (hi : code[p]? = some i) (hvalue : hasValue i = true)
    (hstop : p < stop) (heval : ∀ m₁, Keeps m m₁ → m₁.position = p + 1 →
      Attempts m p stop Q P (evalFetched host code (eval host code fuel) i m₁)) :
    Attempts m p stop Q (fun _ m' => ∃ v m₁, P v m₁ ∧ m' = { m₁ with lastValue := some v })
      (step host code (fuel + 1) m) := by
  rw [step_succ]
  refine (fetch_attempts hposition hi (Nat.le_refl p) hstop).andThen ?_
  rintro j m₁ ⟨rfl, hm₁, hposition₁⟩
  rw [perform_of_hasValue hvalue]
  refine (heval m₁ hm₁ hposition₁).andThen ?_
  intro v m₂ hm₂
  exact attempts_ok ⟨v, m₂, hm₂, rfl⟩

theorem step_expr_attempts (hhost : host.Orderly) (hlaws : Lawful host Γ frames V Q)
    (he : e.Typed Γ) (hcode : Code.At code p (e.codeAt p)) (hfuel : (e.codeAt p).length ≤ fuel)
    (hposition : m.position = p) (hframes : m.frames = frames) :
    Attempts m p (p + (e.codeAt p).length) Q
      (fun _ m' => ∃ v m₁, Done Γ V e (p + (e.codeAt p).length) m v m₁ ∧
        m' = { m₁ with lastValue := some v }) (step host code fuel m) := by
  obtain ⟨i, rest, hfirst, hvalue⟩ := exists_codeAt_eq_cons e p
  have hpos := e.codeAt_pos p
  obtain ⟨fuel, rfl⟩ : ∃ n, fuel = n + 1 := ⟨fuel - 1, by omega⟩
  have hi : code[p]? = some i := by
    rw [hfirst] at hcode
    exact hcode.1
  refine step_value_attempts hposition hi hvalue (by omega) ?_
  intro m₁ hm₁ hposition₁
  refine ((evalFetched_attempts hhost hlaws (eval_attempts hhost hlaws fuel) he hcode hfuel hfirst
    hposition₁ (hm₁.frames.trans hframes)).rebase hm₁ (Nat.le_refl p) (Nat.le_refl _)).imp ?_
  exact fun v m' hdone => hdone.rebase hm₁

/-! ### Simple statements -/

/-- Writing values of their types to places, and declaring, keep to the errors. -/
structure Stores (Γ : Scopes) (frames : Frames) (V : Ty → Value → Prop) (Q : RuntimeError → Prop) :
    Prop where
  write {target : Place} {v : Value} {e : RuntimeError} :
    target.Typed Γ → V target.ty v → frames.write target.fullName v = .error e → Q e
  declare {name : String} {v : Option Value} {e : RuntimeError} :
    frames.declare name v = .error e → Q e

/-- A simple statement has been completed. -/
structure Completes (Γ : Scopes) (V : Ty → Value → Prop) (s : Stmt) (stop : Nat)
    (m m' : Machine σ) : Prop where
  position : m'.position = stop
  limit : m'.limit.span? = m.limit.span?
  frames : s.Performs Γ V m.frames m'.frames

theorem assign_attempts (hstores : Stores Γ frames V Q) {line : Nat} {target : Place} {value : Expr}
    (htarget : target.Typed Γ) {v : Value} (hv : V target.ty v) {m₁ : Machine σ} (hm : Keeps m m₁)
    (hframes : m.frames = frames) (hposition : m₁.position = stop) :
    Attempts m p stop Q (fun _ m' => Completes Γ V (.assign line target value) stop m m')
      (some (assign target.fullName v m₁)) := by
  unfold assign
  rw [hm.frames]
  cases hwrite : m.frames.write target.fullName v with
  | error err =>
    rw [hframes] at hwrite
    exact attempts_error (hstores.write htarget hv hwrite) hm
  | ok frames' => exact attempts_ok ⟨hposition, hm.limit, v, hv, hwrite⟩

theorem declare_attempts (hstores : Stores Γ frames V Q) {line : Nat} {name : String} {ty : Ty}
    {init : Option Expr} {v : Option Value} (hv : ∀ w, v = some w → V ty w) {m₁ : Machine σ}
    (hm : Keeps m m₁) (hframes : m.frames = frames) (hposition : m₁.position = stop) :
    Attempts m p stop Q (fun _ m' => Completes Γ V (.declare line name ty init) stop m m')
      (some (declare name v m₁)) := by
  unfold declare
  rw [hm.frames]
  cases hdeclare : m.frames.declare name v with
  | error err =>
    rw [hframes] at hdeclare
    exact attempts_error (hstores.declare hdeclare) hm
  | ok frames' => exact attempts_ok ⟨hposition, hm.limit, v, hv, hdeclare⟩

/-- **Simple statements** come to an end in as many rounds as they have instructions. -/
theorem step_simple_attempts (hhost : host.Orderly) (hlaws : Lawful host Γ frames V Q)
    (hstores : Stores Γ frames V Q) {fresh : Prop} {Γ' : Scopes} {s : Stmt}
    (hs : Stmt.Typed fresh Γ s Γ') (hsimple : s.isSimple = true)
    (hcode : Code.At code p (s.codeAt p)) (hfuel : (s.codeAt p).length ≤ fuel)
    (hposition : m.position = p) (hframes : m.frames = frames) :
    Attempts m p (p + (s.codeAt p).length) Q
      (fun _ m' => Completes Γ V s (p + (s.codeAt p).length) m m') (step host code fuel m) := by
  -- what is kept as the last value does not count
  have hlast : ∀ {s : Stmt} {stop : Nat} {m' : Machine σ},
      (∃ (v : Value) (m₁ : Machine σ), Completes Γ V s stop m m₁ ∧
        m' = { m₁ with lastValue := some v }) →
        Completes Γ V s stop m m' := by
    rintro s stop m' ⟨v, m₁, hm₁, rfl⟩
    exact ⟨hm₁.position, hm₁.limit, hm₁.frames⟩
  cases hs with
  | @declare _ _ line name ty nameLine _ =>
    simp only [Stmt.codeAt, initCode, List.length_cons, List.length_nil] at hfuel hcode ⊢
    obtain ⟨fuel, rfl⟩ : ∃ n, fuel = n + 1 := ⟨fuel - 1, by omega⟩
    refine (step_value_attempts hposition hcode.1 rfl (by omega) ?_).imp fun _ m' => hlast
    intro m₁ hm₁ hposition₁
    exact declare_attempts hstores (by simp) hm₁ hframes (by omega)
  | @declareInit _ _ line name ty nameLine init he hty hleaf _ =>
    simp only [Stmt.codeAt, initCode, List.length_cons] at hfuel hcode ⊢
    obtain ⟨fuel, rfl⟩ : ∃ n, fuel = n + 1 := ⟨fuel - 1, by omega⟩
    refine (step_value_attempts hposition hcode.1 rfl (by omega) ?_).imp fun _ m' => hlast
    intro m₁ hm₁ hposition₁
    rw [Option.isSome_some, evalFetched_declare]
    have hne : init.ty ≠ .void := by
      rw [hty]
      exact Ty.ne_void hleaf
    refine ((eval_attempts hhost hlaws fuel).part he hne hcode.2 (by omega) hm₁ hposition₁ hframes
      (by omega) (by omega)).andThen ?_
    rintro v m₂ ⟨hv, hm₂, hposition₂⟩
    rw [hty] at hv
    exact declare_attempts hstores (fun w hw => Option.some.inj hw ▸ hv) hm₂ hframes (by omega)
  | @assign _ line target value htarget he hty hvoid =>
    simp only [Stmt.codeAt, List.length_cons] at hfuel hcode ⊢
    obtain ⟨fuel, rfl⟩ : ∃ n, fuel = n + 1 := ⟨fuel - 1, by omega⟩
    refine (step_value_attempts hposition hcode.1 rfl (by omega) ?_).imp fun _ m' => hlast
    intro m₁ hm₁ hposition₁
    rw [evalFetched_assign]
    have hne : value.ty ≠ .void := by rwa [hty]
    refine ((eval_attempts hhost hlaws fuel).part he hne hcode.2 (by omega) hm₁ hposition₁ hframes
      (by omega) (by omega)).andThen ?_
    rintro v m₂ ⟨hv, hm₂, hposition₂⟩
    rw [hty] at hv
    exact assign_attempts hstores htarget hv hm₂ hframes (by omega)
  | @perform _ line f ty args hcall =>
    simp only [Stmt.codeAt] at hfuel hcode ⊢
    refine (step_expr_attempts hhost hlaws hcall hcode hfuel hposition hframes).imp ?_
    rintro _ m' ⟨v, m₁, hdone, rfl⟩
    exact ⟨hdone.position, hdone.limit, hdone.frames⟩
  | _ => simp [Stmt.isSimple] at hsimple

/-! ### Programs that are one expression -/

/-- The run of a program that is one expression: its value is the last one, or it fails and leaves
all as it was. -/
theorem run_code_attempts (hhost : host.Orderly) (hlaws : Lawful host Γ [] V Q) (he : e.Typed Γ)
    (limit : Limit) {fuel : Nat} (hfuel : e.code.length < fuel) (m : Machine σ) :
    (∃ v m', runFuel host e.code.toArray limit fuel m = some (.ok (some v), m') ∧ V e.ty v) ∨
      ∃ err m', runFuel host e.code.toArray limit fuel m = some (.error err, m') ∧
        Breaks (m.reset.withLimit limit) 0 (0 + (e.codeAt 0).length) Q err m' := by
  have hpos := e.codeAt_pos 0
  obtain ⟨fuel, rfl⟩ : ∃ n, fuel = n + 2 := ⟨fuel - 2, by unfold Expr.code at hfuel; omega⟩
  have hround := step_expr_attempts (m := m.reset.withLimit limit) hhost hlaws he
    (Code.at_self e.code) (Nat.le_of_lt hfuel) rfl rfl
  rw [← Expr.code, ← List.size_toArray] at hpos
  rcases hround with ⟨_, m', hstep, v, m₁, hdone, rfl⟩ | ⟨err, m', hstep, hbreaks⟩
  · refine .inl ⟨v, _, runFuel_once hpos hstep ?_, hdone.value⟩
    intro m' hm'
    obtain rfl := (Prod.mk.inj hm').2
    have hposition := hdone.position
    rw [Nat.zero_add] at hposition
    exact Nat.le_of_eq (List.size_toArray.trans hposition.symm)
  · exact .inr ⟨err, m', runFuel_once hpos hstep (by simp), hbreaks⟩

theorem run_code (hhost : host.Orderly) (hlaws : Lawful host Γ [] V Q) (he : e.Typed Γ) {fuel : Nat}
    (hfuel : e.code.length < fuel) (m : Machine σ) :
    (∃ v m', runFuel host e.code.toArray .none fuel m = some (.ok (some v), m') ∧ V e.ty v) ∨
      ∃ err m', runFuel host e.code.toArray .none fuel m = some (.error err, m') ∧ Q err ∧
        Keeps m.reset m' := by
  rcases run_code_attempts hhost hlaws he .none hfuel m with
    hvalue | ⟨err, m', hrun, hkeeps, hcause⟩
  · exact .inl hvalue
  · refine .inr ⟨err, m', hrun, ?_, hkeeps⟩
    rcases hcause with hcause | ⟨-, hlimited, -⟩
    · exact hcause
    · exact absurd hlimited Bool.false_ne_true

end Machine

end BindScript
