/-
**Simple statements are atomic.**

A call for its effect gives no value, and everything but a whole statement or a whole expression has
to have one.  So in an accepted tree such a call stands at the root or nowhere: not in an operand, a
condition, an argument, a branch of a choice, an initializer or the value of an assignment.  What
follows is that a simple statement does all of what it does at its end.  If it fails, be it for want
of time, then no variable, no output and nothing of the host has changed.

Main results:

* `Machine.effects_at_root` — **effects stand at the root, and simple statements are atomic**.
-/

import BindScript.Proofs.Binding.Parser
import BindScript.Proofs.Effects.Statement

namespace BindScript

/-! ### Effects in trees -/

/-- No call for its effect stands in the expression, not even as the whole. -/
def Expr.EffectFree (e : Expr) : Prop := ∀ x : Expr, x.OccursIn e → x.isEffect = false

/-- The expressions of a statement. Of a statement that is a call, these are the arguments. -/
def Stmt.operands : Stmt → List Expr
  | .branch _ condition _ _ => [condition]
  | .loop _ condition _ => [condition]
  | .block _ _ => []
  | .declare _ _ _ init => init.toList
  | .assign _ _ value => [value]
  | .perform e => e.parts

variable {Γ Γ' : Scopes} {fresh : Prop}

theorem Expr.Typed.parts {e : Expr} (h : e.Typed Γ) :
    ∀ part ∈ e.parts, part.Typed Γ ∧ part.ty ≠ .void := by
  intro part hpart
  cases h with
  | literal _ | load _ | host => simp [Expr.parts] at hpart
  | negate he hop =>
    obtain rfl := List.mem_singleton.1 hpart
    exact ⟨he, Ty.negated_ne_void hop⟩
  | binary hl hr hne =>
    obtain ⟨hleft, hright⟩ := Operator.operands_ne_void hne
    rcases List.mem_pair.1 hpart with rfl | rfl
    · exact ⟨hl, hleft⟩
    · exact ⟨hr, hright⟩
  | @select _ condition yes no hc hcty hy hn hbranches hne =>
    have hcases : part = condition ∨ part = yes ∨ part = no := by simpa [Expr.parts] using hpart
    rcases hcases with rfl | rfl | rfl
    · exact ⟨hc, by rw [hcty]; decide⟩
    · exact ⟨hy, hne⟩
    · exact ⟨hn, by rwa [hbranches]⟩
  | call hargs haccepts => exact ⟨hargs part hpart, Ty.ne_void (haccepts.arg_leaf hpart)⟩

variable {e : Expr}

theorem Expr.Typed.effectFree (h : e.Typed Γ) (hty : e.ty ≠ .void) : e.EffectFree := by
  intro x hx
  induction hx with
  | self => exact h.isEffect_eq_false hty
  | part hpart _ ih =>
    obtain ⟨htyped, hvalue⟩ := h.parts _ hpart
    exact ih htyped hvalue

theorem Expr.Typed.parts_effectFree (h : e.Typed Γ) : ∀ part ∈ e.parts, part.EffectFree := by
  intro part hpart
  obtain ⟨htyped, hvalue⟩ := h.parts part hpart
  exact htyped.effectFree hvalue

theorem Stmt.Typed.operands_effectFree {s : Stmt} (h : Stmt.Typed fresh Γ s Γ') :
    ∀ e ∈ s.operands, e.EffectFree := by
  intro e he
  cases h with
  | branch hc hty _ | branchElse hc hty _ _ | loop hc hty _ =>
    obtain rfl := List.mem_singleton.1 he
    exact hc.effectFree (by rw [hty]; decide)
  | block _ => simp [Stmt.operands] at he
  | declare _ => simp [Stmt.operands] at he
  | declareInit hinit hty hleaf _ =>
    obtain rfl : e = _ := by simpa [Stmt.operands] using he
    exact hinit.effectFree (by rw [hty]; exact Ty.ne_void hleaf)
  | assign _ hvalue hty hne =>
    obtain rfl := List.mem_singleton.1 he
    exact hvalue.effectFree (by rwa [hty])
  | perform hcall => exact hcall.parts_effectFree e he

/-! ### Atomic pieces of code -/

namespace Machine

variable {σ : Type} {host : Host σ} {code : Array Instruction} {frames : Frames} {p : Nat}

/-- From every state at its start, a round through the piece of code comes to the end of it; or it
fails, and then variables, output and host are what they were. Both take no more nested rounds than
the piece has instructions. -/
def Atomic (host : Host σ) (code : Array Instruction) (p length : Nat) : Prop :=
  ∀ m : Machine σ, m.position = p →
    ∃ r m', (∀ fuel, length ≤ fuel → step host code fuel m = some (r, m')) ∧
      ((r = .ok () ∧ m'.position = p + length) ∨
        ∃ e, r = .error e ∧ m'.frames = m.frames ∧ m'.output = m.output ∧ m'.host = m.host)

/-- A round that comes to an end or breaks with as much fuel as the piece has instructions. -/
theorem atomic_of_attempts {length : Nat} {Q : Machine σ → RuntimeError → Prop}
    (h : ∀ m : Machine σ, m.position = p → Attempts m p (p + length) (Q m)
      (fun _ m' => m'.position = p + length) (step host code length m)) :
    Atomic host code p length := by
  intro m hm
  rcases h m hm with ⟨_, m', hstep, hposition⟩ | ⟨e, m', hstep, hkeeps, -⟩
  · exact ⟨.ok (), m', fun fuel hfuel => step_mono hfuel hstep, .inl ⟨rfl, hposition⟩⟩
  · refine ⟨.error e, m', fun fuel hfuel => step_mono hfuel hstep, .inr ⟨e, rfl, ?_⟩⟩
    exact ⟨hkeeps.frames, hkeeps.output, hkeeps.host⟩

theorem lawful_any (host : Host σ) (Γ : Scopes) (frames : Frames) :
    Lawful host Γ frames (fun _ _ => True) (fun _ => True) := by
  have hany : ∀ r, Answers (fun _ => True) (fun _ => True) r := by
    rintro (e | v) <;> trivial
  exact ⟨fun _ => trivial, fun _ => hany _, fun _ _ => hany _, fun _ _ => hany _,
    fun _ _ _ => hany _, fun _ _ _ _ => hany _, fun _ _ _ _ _ => hany _⟩

theorem expr_atomic (hhost : host.Orderly) (he : e.Typed Γ) :
    Atomic host e.code.toArray 0 e.code.length := by
  refine atomic_of_attempts (Q := fun _ _ => True) fun m hm => ?_
  have hround := step_expr_attempts hhost (lawful_any host Γ m.frames) he (Code.at_self e.code)
    (Nat.le_refl _) hm rfl
  refine hround.imp ?_
  rintro _ m' ⟨v, m₁, hdone, rfl⟩
  exact hdone.position

theorem stmt_atomic (hhost : host.Orderly) {s : Stmt} (hs : Stmt.Typed fresh Γ s Γ')
    (hsimple : s.isSimple = true) (hcode : Code.At code p (s.codeAt p)) :
    Atomic host code p (s.codeAt p).length := by
  refine atomic_of_attempts (Q := fun _ _ => True) fun m hm => ?_
  have hstores : Stores Γ m.frames (fun _ _ => True) (fun _ => True) :=
    ⟨fun _ _ _ => trivial, fun _ => trivial⟩
  have hround := step_simple_attempts hhost (lawful_any host Γ m.frames) hstores hs hsimple hcode
    (Nat.le_refl _) hm rfl
  exact hround.imp fun _ m' hm' => hm'.position

/-- The piece of code is atomic for programs that stand alone and for those that run on a
snapshot. -/
def AlwaysAtomic (code : Array Instruction) (p length : Nat) : Prop :=
  Atomic .plain code p length ∧ ∀ symbols, Atomic (Snapshot.host symbols) code p length

theorem expr_alwaysAtomic (he : e.Typed Γ) : AlwaysAtomic e.code.toArray 0 e.code.length :=
  ⟨expr_atomic Host.plain_orderly he, fun symbols => expr_atomic (Snapshot.host_orderly symbols) he⟩

/-- **Effects stand at the root, and simple statements are atomic.** In an accepted program, no call
for its effect stands in the expressions of a statement, and a simple statement comes to its end or
fails and changes nothing.  In an accepted expression, and in the expressions of accepted bindings,
no such call stands in a part, and the program of the expression comes to its end or fails and
changes nothing. -/
theorem effects_at_root :
    (∀ (source : String) (globals : Globals) (root : Block),
      parseProgram source globals = .ok root →
      (globals.map Prod.fst).Nodup → ∀ p ctx s, Site root p ctx (.stmt s) →
        (∀ e ∈ s.operands, e.EffectFree) ∧
        (s.isSimple = true → AlwaysAtomic root.code.toArray p (s.codeAt p).length)) ∧
    (∀ (source : String) (e : Expr), parseExpression source = .ok e →
      (∀ part ∈ e.parts, part.EffectFree) ∧ AlwaysAtomic e.code.toArray 0 e.code.length) ∧
    ∀ (source : String) (trees : Bindings Expr), parseBindings source = .ok trees →
      ∀ e ∈ trees.codes,
        (∀ part ∈ e.parts, part.EffectFree) ∧ AlwaysAtomic e.code.toArray 0 e.code.length := by
  refine ⟨?_, ?_, ?_⟩
  · intro source globals root hparse hglobals p ctx s hsite
    obtain ⟨Γ, -, Γ', hs⟩ := hsite.typed (parseProgram_opens hparse hglobals)
    refine ⟨hs.operands_effectFree, fun hsimple => ⟨?_, fun symbols => ?_⟩⟩
    · exact stmt_atomic Host.plain_orderly hs hsimple hsite.code
    · exact stmt_atomic (Snapshot.host_orderly symbols) hs hsimple hsite.code
  · intro source e hparse
    have he := parseExpression_typed hparse
    exact ⟨he.parts_effectFree, expr_alwaysAtomic he⟩
  · intro source trees hparse e hmem
    have he := parseBindings_typed hparse e hmem
    exact ⟨he.parts_effectFree, expr_alwaysAtomic he⟩

/-- The state of a program with one global when its first statement is next. -/
def atFirst (root : Block) : Machine Unit :=
  enter root.slots { start () Console.empty with position := 1 }

/-- A call that would take the largest number one up fails, and the number stays. -/
theorem effects_at_root_overflow :
    ∃ root s rest e m',
      parseProgram "Inc(x); Write('done');" [("x", .int 9223372036854775807)] = .ok root ∧
      root.statements = s :: rest ∧ s.isSimple = true ∧ (∀ e ∈ s.operands, e.EffectFree) ∧
      step .plain root.code.toArray 2 (atFirst root) = some (.error e, m') ∧
      m'.frames = [Frame.ofSlots root.slots] ∧ m'.output = "" := by
  obtain ⟨root, hparse, ⟨s, hs, hsimple, hlength⟩, x, hstep, herror⟩ :
      ∃ root, parseProgram "Inc(x); Write('done');" [("x", .int 9223372036854775807)] = .ok root ∧
        (∃ s, root.statements.head? = some s ∧ s.isSimple = true ∧ (s.codeAt 1).length = 2) ∧
        ∃ x, step .plain root.code.toArray 2 (atFirst root) = some x ∧
          x.1.toOption.isNone = true := by
    decide +kernel
  obtain ⟨rest, hstatements⟩ := List.head?_eq_some_iff.1 hs
  have hsplit : root.statements = [] ++ s :: rest := hstatements
  have hsite : Site root 1 [⟨root, [], s :: rest, hsplit⟩] (.stmt s) := .statement hsplit .root
  obtain ⟨hfree, hatomic⟩ := effects_at_root.1 _ _ root hparse (by decide) 1 _ s hsite
  obtain ⟨r, m', hround, hresult⟩ := (hatomic hsimple).1 (atFirst root) rfl
  have hsame := hround 2 (Nat.le_of_eq hlength)
  obtain rfl : (r, m') = x := Option.some.inj (hsame.symm.trans hstep)
  rcases hresult with ⟨rfl, -⟩ | ⟨e, rfl, hframes, houtput, -⟩
  · simp [Except.toOption] at herror
  · exact ⟨root, s, rest, e, m', hparse, hstatements, hsimple, hfree, hstep, hframes, houtput⟩

end Machine

end BindScript
