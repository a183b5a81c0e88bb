/-
**Accepted programs keep to their types.**

A run of an accepted program is seen step by step by cutting it off: the run that may fetch `n`
times stops in the state before the next fetch.  In every such state the machine stands at a part of
the program, all that can be seen in its frames has the type that it was declared with, and an
expression that begins there evaluates to a value of its type.  The run without a limit fails only
with expected errors.

All this is so if no record type is declared while another one of the same name is in sight.

Main results:

* `Machine.runFuel_sound` — **type soundness of programs**.
-/

import BindScript.Proofs.Soundness.Run

namespace BindScript.Machine

/-! ### Steps -/

/-- A clock that says at the fetch after `n` others that the time is up. -/
def afterFetches (n : Nat) : Limit := .within ⟨0⟩ ⟨fun k => decide (n ≤ k), 0⟩

/-- The run of a program comes to a state after `n` fetches, and is about to fetch again. -/
def Passes (code : Array Instruction) (m : Machine Unit) (n : Nat) (m' : Machine Unit) : Prop :=
  ∃ fuel, runFuel .plain code (afterFetches n) fuel m = some (.error (.timeout m'.limit.span), m')

/-- A run was cut: it ends with the timeout of its own limit. -/
def isCut : Result Unit (Option Value) → Bool
  | (.error e, m) => e == .timeout m.limit.span
  | (.ok _, _) => false

theorem Passes.of_isCut {code : Array Instruction} {m : Machine Unit} {fuel n : Nat}
    {r : Result Unit (Option Value)} (hrun : runFuel .plain code (afterFetches n) fuel m = some r)
    (h : isCut r = true) : Passes code m n r.2 := by
  obtain ⟨e | v, m'⟩ := r
  · obtain rfl : e = .timeout m'.limit.span := by simpa [isCut] using h
    exact ⟨fuel, hrun⟩
  · simp [isCut] at h

/-- For each number of fetches, a run passes a state or has ended, if there is room for all
arguments. -/
theorem passes_or_ends {code : Array Instruction} (hroom : ∀ i ∈ code, HasRoom i) (m : Machine Unit)
    (n : Nat) :
    (∃ m', Passes code m n m') ∨
      ∃ fuel r m', runFuel .plain code (afterFetches n) fuel m = some (r, m') ∧
      runFuel .plain code .none fuel m = some (r, m'.unlimited) := by
  have hcut : Cut (runFuel .plain code (afterFetches n) (n + 1) m)
      (runFuel .plain code .none (n + 1) m) := by
    rw [runFuel_eq_andThen, runFuel_eq_andThen]
    exact (runUntil_cut (n + 1) code.size (n + 1) (m.reset.withLimit (afterFetches n))).andThen
      fun _ m _ => cut_same (.ok m.lastValue) m
  have hup : (m.reset.withLimit (afterFetches n)).limit.isUpAfter n = true := by
    simp [withLimit, afterFetches, Limit.isUpAfter]
  have hspends : Spends n (runFuel .plain code (afterFetches n) (n + 1) m) := by
    rw [runFuel_eq_andThen]
    refine (runUntil_spends (fun m j hj hm => step_pays hroom (by omega) hm)
      code.size (Nat.lt_succ_self n) hup).andThen ?_
    exact fun _ m j _ _ hm => spends_here hm
  obtain ⟨r, m', -, hr, -, -⟩ := hspends
  rcases hcut with ⟨m'', htimeout⟩ | hsame
  · exact .inl ⟨m'', n + 1, htimeout⟩
  · rw [hr] at hsame
    exact .inr ⟨n + 1, r, m', hr, hsame⟩

/-! ### Whole runs -/

variable {root : Block} {fresh limited : Prop} {m : Machine Unit}

/-- There is room for the arguments of all calls of an accepted program. -/
theorem hasRoom_of_opens (h : root.Opens fresh []) : ∀ i ∈ root.code.toArray, HasRoom i := by
  intro i hi
  rw [List.mem_toArray, root.code_eq, List.mem_cons] at hi
  rcases hi with rfl | hi
  · trivial
  · exact hasRoom_of_typed_all h.typed 1 i hi

/-- At the end of a program the frame of its outermost block is kept. -/
theorem leave_of_ends (h : Ends (typing fresh) limited 0 [] root m) :
    ∃ f, m.frames = [f] ∧ leave m = { m with frames := [], finished := some f } := by
  obtain ⟨Γ, hstack, env, henv, hframes⟩ := h.frames
  cases hstack with
  | cons hnone _ _ _ =>
    cases hnone
    cases henv with
    | cons _ hrest =>
      cases hrest
      refine ⟨_, hframes, ?_⟩
      rw [leave, hframes]
      rfl

theorem holds_of_typing (hfresh : fresh) {ctx : Context} {frames : Frames}
    (h : (typing fresh).frames ctx frames) :
    ctx.Holds frames := by
  obtain ⟨Γ, hstack, hfits⟩ := h
  exact hfits.holds hfresh hstack

/-- An expression comes to a value of its type, or to an expected error. -/
def Evaluates (code : Array Instruction) (ctx : Context) (e : Expr) (m : Machine Unit) : Prop :=
  ∃ r m', (∀ fuel, (e.codeAt m.position).length ≤ fuel → eval .plain code fuel m = some (r, m')) ∧
    ((∃ v, r = .ok v ∧ v.HasType ctx.type? e.ty) ∨ ∃ err, r = .error err ∧ err.Expected)

/-- Every expression at a place that the machine has come to evaluates. -/
theorem evaluates_of_site (hfresh : fresh) (hroot : root.Opens fresh []) {ctx : Context}
    (hframes : (typing fresh).frames ctx m.frames) {e : Expr}
    (hsite : Site root m.position ctx (.expr e)) (hlimit : m.limit = .none) :
    Evaluates root.code.toArray ctx e m := by
  obtain ⟨Γ₀, hstack₀, hfits⟩ := hframes
  -- the expression is typed in scopes of its own, which have the same variables
  obtain ⟨Γ, hstack, htyped⟩ := hsite.typed hroot
  have hlaws := lawful_typed (hstack.settled hfresh) (fits_of_stack hstack₀ hstack hfits)
  rcases eval_attempts Host.plain_orderly hlaws _ htyped hsite.code (Nat.le_refl _) rfl rfl with
    ⟨v, m', heval, hdone⟩ | ⟨err, m', heval, -, hexpected | ⟨-, hlimited, -⟩⟩
  · refine ⟨_, m', fun fuel hfuel => eval_mono hfuel heval, .inl ⟨v, rfl, ?_⟩⟩
    exact hdone.value.mono fun hfields => hstack.type?_eq_some hfresh hfields
  · exact ⟨_, m', fun fuel hfuel => eval_mono hfuel heval, .inr ⟨err, rfl, hexpected⟩⟩
  · simp [hlimit, Limit.span?] at hlimited

/-- **Type soundness of programs.** Whenever an accepted program is about to fetch, it stands at a
part of the tree, what can be seen in its frames has the declared types, and an expression that
begins there comes to a value of its type or to an expected error.  A run that fails does so with an
expected error, and its frames have the declared types; one that ends leaves the variables of the
outermost block with values of theirs.  Every run is seen in every step: for each number of fetches
it passes a state, or it has ended. -/
theorem runFuel_sound {source : String} {globals : Globals}
    (hparse : parseProgram source globals = .ok root) (hglobals : (globals.map Prod.fst).Nodup)
    (hfresh : RecordNamesFresh source) (hindex : IsIndex root.code.length) (m : Machine Unit) :
    (∀ n m', Passes root.code.toArray m n m' →
      (∃ ctx part, Site root m'.position ctx part) ∧
      ∀ ctx part, Site root m'.position ctx part → ctx.Holds m'.frames ∧
        ∀ e, part = .expr e → Evaluates root.code.toArray ctx e m'.unlimited) ∧
    (∀ fuel e m', runFuel .plain root.code.toArray .none fuel m = some (.error e, m') →
      e.Expected ∧ ∃ p ctx part, Site root p ctx part ∧ ctx.Holds m'.frames) ∧
    (∀ fuel v m', runFuel .plain root.code.toArray .none fuel m = some (.ok v, m') →
      m'.frames = [] ∧ ∃ f, m'.finished = some f ∧
        Context.Holds [⟨root, root.statements, [], by simp⟩] [f]) ∧
    ∀ n, (∃ m', Passes root.code.toArray m n m') ∨
      ∃ fuel r m', runFuel .plain root.code.toArray (afterFetches n) fuel m = some (r, m') ∧
        runFuel .plain root.code.toArray .none fuel m = some (r, m'.unlimited) := by
  have hroot := parseProgram_opens hparse hglobals
  have hkept := typing_kept hfresh hroot
  have hempty : (typing (RecordNamesFresh source)).frames [] [] := ⟨[], .nil, [], .nil, rfl⟩
  have hfree := fun fuel =>
    run_meets hkept hindex fuel (stands_reset False hempty m .none (by simp [Limit.span?]))
  refine ⟨?_, ?_, ?_, ?_⟩
  · rintro n m' ⟨fuel, hcut⟩
    rw [runFuel_eq_andThen] at hcut
    have hfails :=
      (run_meets hkept hindex fuel (stands_reset True hempty m (afterFetches n) fun _ => trivial)).2
        _ m' hcut
    obtain ⟨p, ctx, part, hsite, hframes, hexpected | ⟨-, -, rfl⟩⟩ := hfails
    · simp [typing, RuntimeError.Expected] at hexpected
    · refine ⟨⟨ctx, part, hsite⟩, ?_⟩
      intro ctx' part' hsite'
      -- the machine knows one part at this position; all others have its context
      obtain rfl := hsite'.context_unique hsite
      refine ⟨holds_of_typing hfresh hframes, ?_⟩
      rintro e rfl
      exact evaluates_of_site (m := m'.unlimited) hfresh hroot hframes hsite' rfl
  · intro fuel e m' hend
    obtain ⟨p, ctx, part, hsite, hframes, hexpected | ⟨hlimited, -⟩⟩ :=
      (hfree fuel).2 e m' (runFuel_eq_andThen .none fuel ▸ hend)
    · exact ⟨hexpected, p, ctx, part, hsite, holds_of_typing hfresh hframes⟩
    · exact absurd hlimited id
  · intro fuel v m' hend
    obtain ⟨m₁, hends, rfl⟩ := (hfree fuel).1 v m' (runFuel_eq_andThen .none fuel ▸ hend)
    obtain ⟨f, hframes, hleave⟩ := leave_of_ends hends
    rw [hleave]
    refine ⟨rfl, f, rfl, ?_⟩
    rw [← hframes]
    exact holds_of_typing hfresh hends.frames
  · exact passes_or_ends (hasRoom_of_opens hroot) m

/-- A loop that adds up in a record is seen in the middle of its second round, in the block of the
loop. -/
theorem runFuel_sound_sum :
    ∃ root m' ctx part m'' v f,
      parseProgram
        "record P { int x; } P p; int i = 0; while (i < n) { int k = i; p.x = k; i = k + 1; }"
        [("n", .int 2)] = .ok root ∧
      Passes root.code.toArray (start () Console.empty) 26 m' ∧ m'.frames.length = 2 ∧
      Site root m'.position ctx part ∧ ctx.Holds m'.frames ∧
      runFuel .plain root.code.toArray .none 60 (start () Console.empty) = some (.ok v, m'') ∧
      m''.finished = some f ∧ Context.Holds [⟨root, root.statements, [], by simp⟩] [f] := by
  obtain ⟨root, hparse, hshort, ⟨r, hcutRun, hisCut, hlength⟩, x, hrun, hok⟩ :
      ∃ root, parseProgram
        "record P { int x; } P p; int i = 0; while (i < n) { int k = i; p.x = k; i = k + 1; }"
        [("n", .int 2)] = .ok root ∧ root.code.length < 60 ∧
        (∃ r, runFuel .plain root.code.toArray (afterFetches 26) 60 (start () Console.empty) =
          some r ∧
          isCut r = true ∧ r.2.frames.length = 2) ∧
        ∃ r, runFuel .plain root.code.toArray .none 60 (start () Console.empty) = some r ∧
          r.1.isOk = true := by
    decide +kernel
  have hfresh : RecordNamesFresh
      "record P { int x; } P p; int i = 0; while (i < n) { int k = i; p.x = k; i = k + 1; }" := by
    decide +kernel
  have hindex : IsIndex root.code.length := Nat.lt_trans hshort (by decide)
  have hpasses := Passes.of_isCut hcutRun hisCut
  obtain ⟨e | v, m''⟩ := x
  · simp [Except.isOk, Except.toBool] at hok
  · have hsound := runFuel_sound hparse (by decide) hfresh hindex (start () Console.empty)
    obtain ⟨⟨ctx, part, hsite⟩, hparts⟩ := hsound.1 26 r.2 hpasses
    have hholds := (hparts ctx part hsite).1
    obtain ⟨-, f, hf, hfinal⟩ := hsound.2.2.1 60 v m'' hrun
    exact ⟨root, r.2, ctx, part, m'', v, f, hparse, hpasses, hlength, hsite, hholds, hrun, hf,
      hfinal⟩

end BindScript.Machine
