/-
**Static and dynamic scoping agree.**

A program is read with one set of scopes and run with another one.  Whenever an accepted program is
about to fetch, its frames have the variables that the parser had declared when it came to that
place, level by level, with an empty frame for each `else if`.  A load, an assignment or an update
therefore finds its variable in the frame of the declaration that the parser found, whatever other
variables have its name, and a declaration finds its slot waiting in the innermost frame.  What may
still fail is the leaf of a record, since record names may be used again.

Main results:

* `Scoping.runFuel_agrees` — **static and dynamic scoping agree**.
-/

import BindScript.Proofs.Scoping.Reading
import BindScript.Proofs.Scoping.Run
import BindScript.Proofs.Soundness.Program

namespace BindScript

/-! ### Parts that use variables -/

/-- The place that an expression uses itself: by loading it, or by updating it. -/
def Expr.accessed? : Expr → Option Place
  | .load p => some p
  | .call _ f _ [.load p] => if f.takesReference then some p else none
  | _ => none

/-- The place that a part uses itself: a load, an update, or the target of an assignment. -/
def Part.place? : Part → Option Place
  | .expr e => e.accessed?
  | .stmt (.perform e) => e.accessed?
  | .stmt (.assign _ target _) => some target
  | _ => none

/-- The name that a part declares. -/
def Part.declared? : Part → Option String
  | .stmt (.declare _ name _ _) => some name
  | _ => none

variable {fresh : Prop} {Γ : Scopes}

theorem Expr.Typed.accessed {e : Expr} (h : e.Typed Γ) {p : Place} (hp : e.accessed? = some p) :
    p.Typed Γ := by
  unfold Expr.accessed? at hp
  split at hp
  · cases hp
    cases h with
    | load hplace => exact hplace
  · split at hp
    · cases hp
      cases h with
      | call hargs _ =>
        cases hargs _ (List.mem_singleton_self _) with
        | load hplace => exact hplace
    · cases hp
  · cases hp

theorem Site.ne_nil {root : Block} {p : Nat} {ctx : Context} {s : Stmt}
    (h : Site root p ctx (.stmt s)) :
    ctx ≠ [] := by
  cases h with
  | statement split _ => simp

theorem Part.Typed.place {part : Part} (h : part.Typed fresh Γ) {p : Place}
    (hp : part.place? = some p) :
    p.Typed Γ := by
  unfold Part.place? at hp
  split at hp
  · exact Expr.Typed.accessed h hp
  · obtain ⟨Γ', hs⟩ := h
    cases hs with
    | perform hcall => exact hcall.accessed hp
  · cases hp
    obtain ⟨Γ', hs⟩ := h
    cases hs with
    | assign htarget _ _ _ => exact htarget
  · cases hp

namespace Scoping

open Machine

/-! ### Agreement at a place -/

/-- The frames agree with the scopes at a part of the program: the headers are those of the open
blocks, the names in sight are those of the scopes, what the part uses is accessible, and what it
declares waits in the innermost frame. -/
structure Agree (Γ : Scopes) (ctx : Context) (part : Part) (frames : Frames) : Prop where
  headers : frames.map Frame.header = ctx.map Open.header
  names : frames.map Frame.liveNames = Γ.map fun s => s.slots.map (·.name)
  accesses : ∀ p, part.place? = some p → p.Accessible Γ frames
  waits : ∀ name, part.declared? = some name →
    ∃ f outer c, frames = f :: outer ∧ f.lookup name = some c ∧ c.live = false

variable {root : Block} {ctx : Context} {part : Part} {p : Nat} {m : Machine Unit}

/-- Frames that follow the blocks that are open at a place agree with scopes that show them. -/
theorem agree_of_site (hroot : root.Opens fresh []) (hsite : Site root p ctx part) {frames : Frames}
    (hframes : Frames.Follow ctx frames) (hΓ : Γ.Show ctx) : Agree Γ ctx part frames := by
  obtain ⟨Δ, hstack, htyped⟩ := hsite.typed hroot
  refine ⟨hframes, hframes.liveNames_eq hΓ, ?_, ?_⟩
  · intro place hplace
    obtain ⟨hname, slot, hslot, -⟩ := htyped.place hplace
    rw [hstack.shows.slot?_eq hΓ] at hslot
    exact hframes.accessible hΓ hname hslot
  · intro name hname
    unfold Part.declared? at hname
    split at hname
    · cases hname
      -- only a statement of a block is a place of a declaration
      cases hsite with
      | statement split _ => exact hframes.waits hstack rfl rfl
    · cases hname

/-! ### Whole runs -/

/-- A round of a simple statement does to the frames what the statement says. -/
theorem changes_of_step (hroot : root.Opens fresh []) {s : Stmt} (hsimple : s.isSimple = true)
    (hsite : Site root m.position ctx (.stmt s)) (hm : Frames.Follow ctx m.frames) {fuel : Nat}
    {m' : Machine Unit} (hstep : step .plain root.code.toArray fuel m = some (.ok (), m')) :
    ∃ Γ, Stack fresh ctx Γ ∧ s.Changes Γ m.frames m'.frames := by
  obtain ⟨Γ, hstack, Γ', hs⟩ := hsite.typed hroot
  have htyped : (Part.stmt s).Typed fresh Γ := ⟨Γ', hs⟩
  have hgoverns := following_governs hstack htyped hm
  have hattempts :=
    step_simple_attempts Host.plain_orderly hgoverns.lawful
      (hgoverns.stores hsite.ne_nil) hs hsimple
    hsite.code (Nat.le_max_right fuel (s.codeAt m.position).length) rfl rfl
  refine ⟨Γ, hstack, ?_⟩
  have hmore := step_mono (Nat.le_max_left fuel (s.codeAt m.position).length) hstep
  rcases hattempts with ⟨_, m₁, hm₁, hdone⟩ | ⟨e, m₁, hm₁, -⟩
  · rw [hm₁] at hmore
    obtain rfl : m₁ = m' := (Prod.mk.inj (Option.some.inj hmore)).2
    exact hdone.frames.changes
  · rw [hm₁] at hmore
    exact absurd (Prod.mk.inj (Option.some.inj hmore)).1 (by simp)

/-- **Static and dynamic scoping agree.** Whenever an accepted program is about to fetch, it stands
at a part of the tree.  The parser came to that place, and its scopes, with an empty one for each
`else if`, agree with the frames; a simple statement then does to these frames what it says.  A run
that fails, with a limit or without, has frames that follow the blocks that are open at some place,
and whole variables are not the cause; one that ends has the outermost block's variables in its last
frame.  Every run is seen in every step. -/
theorem runFuel_agrees {source : String} {globals : Globals}
    (hparse : parseProgram source globals = .ok root) (hglobals : (globals.map Prod.fst).Nodup)
    (hindex : IsIndex root.code.length) (m : Machine Unit) :
    (∃ slots, globalSlots globals = .ok slots ∧ ∀ n m', Passes root.code.toArray m n m' →
      (∃ ctx part, Site root m'.position ctx part) ∧
      ∀ ctx part, Site root m'.position ctx part →
        (∃ st Γ, Parse.Reads source slots root ctx st ∧ Scopes.Pads ctx st.scopes Γ ∧
          (∀ name, Γ.slot? name = st.scopes.slot? name) ∧ Agree Γ ctx part m'.frames) ∧
        ∀ s, part = .stmt s → s.isSimple = true → ∀ fuel m'',
          step .plain root.code.toArray fuel m'.unlimited = some (.ok (), m'') →
            ∃ Γ, Stack (RecordNamesFresh source) ctx Γ ∧ s.Changes Γ m'.frames m''.frames) ∧
    (∀ limit fuel e m', runFuel .plain root.code.toArray limit fuel m = some (.error e, m') →
      (e.SparesVariables ∨ e = .timeout m'.limit.span) ∧
        ∃ p ctx part, Site root p ctx part ∧ Frames.Follow ctx m'.frames) ∧
    (∀ limit fuel v m', runFuel .plain root.code.toArray limit fuel m = some (.ok v, m') →
      m'.frames = [] ∧ ∃ f, m'.finished = some f ∧
        Frames.Follow [⟨root, root.statements, [], by simp⟩] [f]) ∧
    ∀ n, (∃ m', Passes root.code.toArray m n m') ∨
      ∃ fuel r m', runFuel .plain root.code.toArray (afterFetches n) fuel m = some (r, m') ∧
        runFuel .plain root.code.toArray .none fuel m = some (r, m'.unlimited) := by
  obtain ⟨slots, hslots, hprogram⟩ := Parse.parseProgram_program hparse hglobals
  have hroot := hprogram.opens
  have hkept := following_kept hroot
  have hrun : ∀ limit fuel, Meets (following (RecordNamesFresh source)) root True
      (fun _ m' => ∃ m₁, Ends (following (RecordNamesFresh source)) True 0 [] root m₁ ∧
        m' = leave m₁)
      (runFuel .plain root.code.toArray limit fuel m) := by
    intro limit fuel
    rw [runFuel_eq_andThen]
    exact run_meets hkept hindex fuel (stands_reset True rfl m limit fun _ => trivial)
  refine ⟨⟨slots, hslots, ?_⟩, ?_, ?_, ?_⟩
  · rintro n m' ⟨fuel, hcut⟩
    have hfails := (hrun (afterFetches n) fuel).2 _ m' hcut
    obtain ⟨p, ctx, part, hsite, hframes, hspares | ⟨-, -, rfl⟩⟩ := hfails
    · exact absurd hspares id
    · refine ⟨⟨ctx, part, hsite⟩, ?_⟩
      intro ctx' part' hsite'
      -- the machine knows one part at this position; all others have its context
      obtain rfl := hsite'.context_unique hsite
      refine ⟨?_, ?_⟩
      · obtain ⟨st, Γ, hreads, hpads⟩ := hsite'.reads hprogram
        obtain ⟨Δ, hstack, -⟩ := hsite'.typed hroot
        exact ⟨st, Γ, hreads, hpads, hpads.slot?_eq,
          agree_of_site hroot hsite' hframes ⟨hpads.slots_eq, hstack.shows.distinct⟩⟩
      · rintro s rfl hsimple fuel m'' hstep
        exact changes_of_step (m := m'.unlimited) hroot hsimple hsite' hframes hstep
  · intro limit fuel e m' hend
    obtain ⟨p, ctx, part, hsite, hframes, hcause⟩ := (hrun limit fuel).2 e m' hend
    refine ⟨?_, p, ctx, part, hsite, hframes⟩
    rcases hcause with hspares | ⟨-, htimeout, -⟩
    · exact .inl hspares
    · exact .inr htimeout
  · intro limit fuel v m' hend
    obtain ⟨m₁, hends, rfl⟩ := (hrun limit fuel).1 v m' hend
    obtain ⟨f, outer, hframes, hheader, houter⟩ := hends.frames.exists_cons
    obtain rfl : outer = [] := by simpa [Frames.Follow] using houter
    have hleave : leave m₁ = { m₁ with frames := [], finished := some f } := by
      rw [leave, hframes]
    rw [hleave]
    exact ⟨rfl, f, rfl, .cons hheader .nil⟩
  · exact passes_or_ends (hasRoom_of_opens hroot) m

/-- The name of a record type is used again where a variable is hidden, in a block after `else
if`. -/
def hidingProgram : String :=
  "record P { int x; } P p; int a = 1; " ++
    "if (a == 2) { } else if (a == 1) { record P { int y; } P q; int a = 5; Inc(a); q.y = a; }"

/-- The hiding variable is about to be updated, three levels deep. -/
theorem runFuel_agrees_hidden :
    ∃ root slots m' ctx part st Γ m'' v f,
      ¬RecordNamesFresh hidingProgram ∧ parseProgram hidingProgram [] = .ok root ∧
      Passes root.code.toArray (start () Console.empty) 17 m' ∧ Site root m'.position ctx part ∧
      Parse.Reads hidingProgram slots root ctx st ∧ Scopes.Pads ctx st.scopes Γ ∧
      Agree Γ ctx part m'.frames ∧
      Γ.map (fun s => s.slots.map (·.name)) = [["q", "a"], [], ["p", "a"]] ∧
      runFuel .plain root.code.toArray .none 60 (start () Console.empty) = some (.ok v, m'') ∧
      m''.finished = some f ∧ Frames.Follow [⟨root, root.statements, [], by simp⟩] [f] := by
  obtain ⟨root, hparse, hshort, ⟨r, hcutRun, hisCut, hnames⟩, x, hrun, hok⟩ :
      ∃ root, parseProgram hidingProgram [] = .ok root ∧ root.code.length < 60 ∧
        (∃ r, runFuel .plain root.code.toArray (afterFetches 17) 60 (start () Console.empty) =
          some r ∧
          isCut r = true ∧ r.2.frames.map Frame.liveNames = [["q", "a"], [], ["p", "a"]]) ∧
        ∃ r, runFuel .plain root.code.toArray .none 60 (start () Console.empty) = some r ∧
          r.1.isOk = true := by
    decide +kernel
  have hreused : ¬RecordNamesFresh hidingProgram := by decide +kernel
  have hindex : IsIndex root.code.length := Nat.lt_trans hshort (by decide)
  have hpasses := Passes.of_isCut hcutRun hisCut
  obtain ⟨e | v, m''⟩ := x
  · simp [Except.isOk, Except.toBool] at hok
  · have hagrees := runFuel_agrees hparse (by decide) hindex (start () Console.empty)
    obtain ⟨slots, -, hstates⟩ := hagrees.1
    obtain ⟨⟨ctx, part, hsite⟩, hparts⟩ := hstates 17 r.2 hpasses
    obtain ⟨⟨st, Γ, hreads, hpads, -, hagree⟩, -⟩ := hparts ctx part hsite
    obtain ⟨-, f, hf, hfinal⟩ := hagrees.2.2.1 .none 60 v m'' hrun
    exact ⟨root, slots, r.2, ctx, part, st, Γ, m'', v, f, hreused, hparse, hpasses, hsite, hreads,
      hpads, hagree, hagree.names.symm.trans hnames, hrun, hf, hfinal⟩

end Scoping

end BindScript
