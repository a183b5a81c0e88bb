/-
**Jumps stay in the program.**

Validation looks at the positions that a program names, once and before it runs.  That is enough:
whatever a run does, its position never leaves the program by more than the one place just past the
end, and no jump fails.  Validation does not look at how the instructions nest.  So a program can
still be malformed in three ways, and the last act of the run shows which one it is: a block or a
jump stands where an expression should, a variable is declared while no block is open, or the
program ends where an expression should begin.

Main results:

* `Machine.validate_safe` — **validation is enough for jumps to be safe**.
-/

import BindScript.Binding.Environment
import BindScript.Proofs.Machine.Moments
import BindScript.Proofs.Machine.Termination
import BindScript.Proofs.Soundness.Errors

namespace BindScript

/-! ### The form of a program -/

/-- The errors that a program causes by its form. -/
def RuntimeError.OfProgram : RuntimeError → Prop
  | .malformed _ | .invalidJumpTarget _ _ => True
  | _ => False

/-- The result fails, if at all, for another reason than the form of the program. -/
def Mild {α : Type} (r : Except RuntimeError α) : Prop := ∀ e, r = .error e → ¬e.OfProgram

theorem mild_ok {α : Type} (a : α) : Mild (.ok a) := fun _ h => absurd h (by simp)

theorem mild_error {α : Type} {e : RuntimeError} (h : ¬e.OfProgram) :
    Mild (.error e : Except RuntimeError α) := by
  intro e' he'
  rw [← Except.error.inj he']
  exact h

theorem BlamesValues.mild {α : Type} {r : Except RuntimeError α} (h : BlamesValues r) : Mild r := by
  intro e he hprogram
  have hvalues := h e he
  cases e <;> simp_all [RuntimeError.OfValues, RuntimeError.OfProgram]

/-- A host does not answer with an error about the form of the program. -/
structure Host.Mild {σ : Type} (host : Host σ) : Prop where
  resolve : ∀ name s, BindScript.Mild (host.resolve name s).1
  call : ∀ name args s r, host.call name args s = some r → BindScript.Mild r.1

/-! ### Functions and hosts -/

namespace Builtin

/-- The functions that need a variable or a host cannot be called without. -/
theorem call_unsupported {f : Builtin} (h : f.needsHost = true ∨ f.takesReference = true)
    (args : List Value) (console : Console) :
    f.call args console = (.error (.unsupported f.name), console) := by
  cases f with
  | inc => rfl
  | dec => rfl
  | selectedOptionId => rfl
  | selectedOptionExtraValue => rfl
  | setValue => rfl
  | _ => exact absurd h (by decide)

theorem callByName_mild (name : String) (args : List Value) (console : Console) :
    Mild (callByName name args console).1 := by
  unfold callByName
  cases ofName? name with
  | none => exact mild_error id
  | some f =>
    by_cases h : f.needsHost = true ∨ f.takesReference = true
    · simp only [call_unsupported h]
      exact mild_error id
    · obtain ⟨hhost, href⟩ : f.needsHost = false ∧ f.takesReference = false := by simpa using h
      exact (call_blames hhost href args console).mild

end Builtin

theorem Host.plain_mild : Host.plain.Mild where
  resolve _ _ := mild_error id
  call _ _ _ _ h := absurd h (by simp [Host.plain])

namespace Snapshot

theorem textArg_blames (b : Builtin) (args : List Value) (index : Nat) :
    BlamesValues (textArg b args index) := by
  unfold textArg
  split
  · exact .ok _
  · exact .error trivial
  · exact .error trivial

theorem placeArg_blames (args : List Value) : BlamesValues (placeArg args) := by
  unfold placeArg
  split
  · exact .ok _
  · exact .error trivial
  · exact .ok _

theorem selectedId_blames (args : List Value) (s : Snapshot) :
    BlamesValues (selectedId args s) := by
  refine (textArg_blames _ args 0).bind fun container => ?_
  exact (textArg_blames _ args 1).bind fun key => .ok _

theorem selectedExtra_blames (args : List Value) (s : Snapshot) :
    BlamesValues (selectedExtra args s) := by
  refine (textArg_blames _ args 0).bind fun container => ?_
  refine (textArg_blames _ args 1).bind fun key => ?_
  exact (placeArg_blames args).bind fun place => .ok _

theorem withValue_blames (args : List Value) (s : Snapshot) : BlamesValues (withValue args s) := by
  refine (textArg_blames _ args 0).bind fun container => ?_
  refine (textArg_blames _ args 1).bind fun key => ?_
  exact (textArg_blames _ args 2).bind fun text => .ok _

theorem host_mild (symbols : Table String) : (host symbols).Mild where
  resolve _ _ := mild_ok _
  call name args s r h := by
    simp only [host, call?] at h
    split at h
    · rw [← Option.some.inj h]
      exact (selectedId_blames args s).mild
    · rw [← Option.some.inj h]
      exact (selectedExtra_blames args s).mild
    · split at h
      · rw [← Option.some.inj h]
        exact mild_ok _
      · rename_i e he
        rw [← Option.some.inj h]
        exact mild_error ((withValue_blames args s).mild e he)
    · cases h

end Snapshot

namespace Machine

variable {σ α β : Type}

/-! ### Safe computations -/

/-- The act that shows what is malformed. -/
inductive Blames (code : Array Instruction) : Moment σ → Malformation → Prop
  /-- A block or a jump was fetched as an expression. -/
  | misplaced {i : Instruction} {m : Machine σ} {place : Nat} (fetched : code[place]? = some i)
      (position : m.position = place + 1) (value : hasValue i = false) :
      Blames code ⟨.doing .expression i, m⟩ (.misplaced i.write)
  /-- A variable is declared while no block is open. -/
  | orphan {role : Role} {name : String} {init : Bool} {m : Machine σ} {place : Nat}
      (fetched : code[place]? = some (.declare name init)) (frames : m.frames = []) :
      Blames code ⟨.doing role (.declare name init), m⟩ (.orphanDeclaration name)
  /-- The program ends where an expression should begin. -/
  | ended {role : Role} {m : Machine σ} (place : role ≠ .statement)
      (position : m.position = code.size) : Blames code ⟨.fetching role, m⟩ .unexpectedEnd

/-- At all moments and at the end the position is in the program or just past its end; no jump has
failed; and if the program is malformed, the last act shows why. -/
structure Safe (code : Array Instruction) (w : Watched σ α) : Prop where
  inside : ∀ moment ∈ w.moments, moment.state.position ≤ code.size
  ending : ∀ x, w.result = some x → x.2.position ≤ code.size
  jumps : ∀ target length m, w.result ≠ some (.error (.invalidJumpTarget target length), m)
  malformed : ∀ what m, w.result = some (.error (.malformed what), m) →
    ∃ moment, w.moments.getLast? = some moment ∧ Blames code moment what

variable {code : Array Instruction} {m : Machine σ}

theorem safe_none : Safe code (Watched.still (none : Option (Result σ α))) :=
  ⟨by simp [Watched.still], by simp, by simp, by simp⟩

theorem safe_still {x : α} (hm : m.position ≤ code.size) :
    Safe code (Watched.still (some (.ok x, m))) :=
  ⟨by simp [Watched.still], by simpa using hm, by simp, by simp⟩

/-- An act that can fail, but not for the form of the program. -/
theorem safe_act {a : Act} {r : Result σ α} (hm : m.position ≤ code.size)
    (hr : r.2.position ≤ code.size) (hmild : Mild r.1) : Safe code (Watched.act a m r) := by
  obtain ⟨x, n⟩ := r
  refine ⟨by simpa [Watched.act] using hm, ?_, ?_, ?_⟩
  · rintro y hy
    rw [← Option.some.inj hy]
    exact hr
  · rintro target length n' heq
    obtain ⟨rfl, -⟩ := Prod.mk.inj (Option.some.inj heq)
    exact hmild _ rfl trivial
  · rintro what n' heq
    obtain ⟨rfl, -⟩ := Prod.mk.inj (Option.some.inj heq)
    exact absurd trivial (hmild _ rfl)

theorem safe_malformed {a : Act} {what : Malformation} {n : Machine σ} (hm : m.position ≤ code.size)
    (hn : n.position ≤ code.size) (hblames : Blames code ⟨a, m⟩ what) :
    Safe code (Watched.act a m ((.error (.malformed what), n) : Result σ α)) := by
  refine ⟨by simpa [Watched.act] using hm, by simpa using hn, by simp, ?_⟩
  rintro what' n' heq
  obtain ⟨rfl, -⟩ : what = what' ∧ n = n' := by simpa using heq
  exact ⟨_, rfl, hblames⟩

theorem Safe.andThen {w : Watched σ α} {k : α → Machine σ → Watched σ β} (hw : Safe code w)
    (hk : ∀ a m, w.result = some (.ok a, m) → m.position ≤ code.size → Safe code (k a m)) :
    Safe code (w.andThen k) := by
  rcases hresult : w.result with _ | ⟨e | a, m⟩
  · have hw' : w.andThen k = ⟨w.moments, none⟩ := by simp [Watched.andThen, hresult]
    rw [hw']
    exact ⟨hw.inside, by simp, by simp, by simp⟩
  · have hw' : w.andThen k = ⟨w.moments, some (.error e, m)⟩ := by simp [Watched.andThen, hresult]
    rw [hw']
    refine ⟨hw.inside, ?_, ?_, ?_⟩
    · intro x hx
      rw [← Option.some.inj hx]
      exact hw.ending _ hresult
    · rintro target length n heq
      obtain ⟨rfl, -⟩ : e = .invalidJumpTarget target length ∧ m = n := by simpa using heq
      exact hw.jumps _ _ _ hresult
    · rintro what n heq
      obtain ⟨rfl, -⟩ : e = .malformed what ∧ m = n := by simpa using heq
      exact hw.malformed _ _ hresult
  · have hw' : w.andThen k = ⟨w.moments ++ (k a m).moments, (k a m).result⟩ := by
      simp [Watched.andThen, hresult]
    have hnext := hk a m hresult (hw.ending _ hresult)
    rw [hw']
    refine ⟨?_, hnext.ending, hnext.jumps, ?_⟩
    · intro moment hmoment
      rcases List.mem_append.1 hmoment with h | h
      · exact hw.inside _ h
      · exact hnext.inside _ h
    · intro what n heq
      obtain ⟨moment, hlast, hblames⟩ := hnext.malformed what n heq
      exact ⟨moment, by rw [List.getLast?_append, hlast, Option.some_or], hblames⟩

/-! ### Acts -/

/-- A fetch fails only at the end of the program, or because the limit is reached. -/
theorem watchFetch_safe {role : Role} (hm : m.position ≤ code.size)
    (hrole : role ≠ .statement ∨ m.position < code.size) : Safe code (watchFetch role code m) := by
  unfold watchFetch
  rcases hfetch : fetch code m with ⟨e | i, n⟩
  · unfold fetch at hfetch
    split at hfetch
    · obtain ⟨he, rfl⟩ := Prod.mk.inj hfetch
      refine safe_act hm hm ?_
      rw [← he]
      exact mild_error id
    · split at hfetch
      · rename_i hnone
        obtain ⟨he, rfl⟩ := Prod.mk.inj hfetch
        have hend : m.position = code.size := by
          have hge := Array.getElem?_eq_none_iff.1 hnone
          omega
        rw [← he]
        exact safe_malformed hm hm (.ended (hrole.resolve_right (by omega)) hend)
      · exact absurd (congrArg Prod.fst hfetch) (by simp)
  · obtain ⟨hi, rfl⟩ := fetch_eq_ok hfetch
    exact safe_act hm (Array.getElem?_eq_some_iff.1 hi).1 (mild_ok i)

theorem jump_act_safe {a : Act} {target : Nat} (hm : m.position ≤ code.size)
    (htarget : target ≤ code.size) : Safe code (Watched.act a m (jump code.size target m)) := by
  rw [jump, if_pos htarget]
  exact safe_act hm htarget (mild_ok ())

@[simp] theorem position_assign (name : String) (v : Value) (m : Machine σ) :
    (assign name v m).2.position = m.position := by
  unfold assign
  split <;> rfl

@[simp] theorem position_updateTarget (b : Builtin) (i : Instruction) (m : Machine σ) :
    (updateTarget b i m).2.position = m.position := by
  unfold updateTarget
  split
  · split
    · rfl
    · split
      · rfl
      · exact position_assign _ _ m
    · rfl
  · rfl

theorem read_mild (frames : Frames) (name : String) : Mild (frames.read name) := by
  simp only [Frames.read]
  split
  · exact mild_ok _
  · exact mild_error id

theorem assign_mild (name : String) (v : Value) (m : Machine σ) : Mild (assign name v m).1 := by
  unfold assign
  split
  · exact mild_ok _
  · rename_i e he
    simp only [Frames.write] at he
    split at he
    · cases he
    · rw [← Except.error.inj he]
      exact mild_error id

theorem updateTarget_mild (b : Builtin) (i : Instruction) (m : Machine σ) :
    Mild (updateTarget b i m).1 := by
  unfold updateTarget
  split
  · split
    · rename_i target e he
      exact mild_error (read_mild _ _ e he)
    · split
      · rename_i e he
        exact mild_error ((Value.checkedInt_blames _ _).mild e he)
      · exact assign_mild _ _ m
    · exact mild_error id
  · exact mild_error id

theorem completeArgs_mild (b : Builtin) (args : List Value) : Mild (completeArgs b args) := by
  unfold completeArgs
  simp only
  split
  · exact mild_error id
  · split
    · exact mild_ok _
    · exact mild_ok _

variable {host : Host σ}

theorem callWithValues_mild (hhost : host.Mild) (name : String) (args : List Value)
    (m : Machine σ) :
    Mild (callWithValues host name args m).1 := by
  unfold callWithValues
  split
  · rename_i r hr
    exact hhost.call _ _ _ _ hr
  · exact Builtin.callByName_mild name args m.console

theorem declare_act_safe {role : Role} {name : String} {init : Bool} {v : Option Value}
    {place : Nat} (hi : code[place]? = some (.declare name init)) (hm : m.position ≤ code.size) :
    Safe code (Watched.act (.doing role (.declare name init)) m (declare name v m)) := by
  unfold declare
  split
  · exact safe_act hm hm (mild_ok _)
  · rename_i e he
    cases hframes : m.frames with
    | nil =>
      obtain rfl : e = .malformed (.orphanDeclaration name) := by
        simpa [hframes, Frames.declare, eq_comm] using he
      exact safe_malformed hm hm (.orphan hi hframes)
    | cons f outer =>
      rw [hframes, Frames.declare] at he
      split at he <;> exact absurd he (by simp)

/-! ### Expressions -/

variable {wev : Machine σ → Watched σ Value} {role : Role}

theorem watchArgs_safe (hev : ∀ m, m.position ≤ code.size → Safe code (wev m)) (count : Nat)
    (hm : m.position ≤ code.size) : Safe code (watchArgs wev count m) := by
  induction count generalizing m with
  | zero => exact safe_still hm
  | succ count ih =>
    refine (hev m hm).andThen fun v m _ hm => ?_
    exact (ih hm).andThen fun vs m _ hm => safe_still hm

theorem watchCollect_safe (hev : ∀ m, m.position ≤ code.size → Safe code (wev m)) (argc : Nat)
    (hm : m.position ≤ code.size) : Safe code (watchCollect wev argc m) := by
  unfold watchCollect
  split
  · exact watchArgs_safe hev argc hm
  · exact safe_none

theorem watchCall_safe (hhost : host.Mild) (hev : ∀ m, m.position ≤ code.size → Safe code (wev m))
    (name : String) (argc : Nat) (hm : m.position ≤ code.size) :
    Safe code (watchFetched host code wev role (.call name argc) m) := by
  have hvalues : ∀ args (m : Machine σ), m.position ≤ code.size →
      Safe code (Watched.act (.doing role (.call name argc)) m (callWithValues host name args m)) :=
    fun args m hm => safe_act hm (by simpa using hm) (callWithValues_mild hhost name args m)
  have hargs := watchCollect_safe hev argc hm
  cases hname : Builtin.ofName? name with
  | none =>
    simp only [watchFetched, hname]
    exact hargs.andThen fun args m _ hm => hvalues args m hm
  | some b =>
    cases href : b.takesReference with
    | true =>
      simp only [watchFetched, hname, href, if_true]
      split
      · exact safe_act hm hm (mild_error id)
      · refine (watchFetch_safe hm (.inl (by simp))).andThen fun i m _ hm => ?_
        exact safe_act hm (by simpa using hm) (updateTarget_mild b i m)
    | false =>
      simp only [watchFetched, hname, href, Bool.false_eq_true, if_false]
      refine hargs.andThen fun args m _ hm => ?_
      have hcomplete := completeArgs_mild b args
      cases hresult : completeArgs b args with
      | error e => exact safe_act hm hm (mild_error (hcomplete e hresult))
      | ok args => exact hvalues args m hm

theorem watchFetched_safe (hhost : host.Mild) (hvalid : Code.Valid code)
    (hev : ∀ m, m.position ≤ code.size → Safe code (wev m)) {i : Instruction} {place : Nat}
    (hi : code[place]? = some i) (hrole : role = .expression ∨ hasValue i = true)
    (hplace : m.position = place + 1) : Safe code (watchFetched host code wev role i m) := by
  have hm : m.position ≤ code.size := by
    rw [hplace]
    exact (Array.getElem?_eq_some_iff.1 hi).1
  -- an instruction without a value is misplaced only where an expression should be
  have hmisplaced : hasValue i = false →
      Safe code (Watched.act (.doing role i) m
        ((.error (.malformed (.misplaced i.write)), m) : Result σ Value)) := by
    intro hvalue
    obtain rfl : role = .expression := hrole.resolve_right (by simp [hvalue])
    exact safe_malformed hm hm (.misplaced hi hplace hvalue)
  cases i with
  | load name => exact safe_act hm hm (read_mild m.frames name)
  | loadHost name => exact safe_act hm hm (hhost.resolve name m.host)
  | assign name =>
    exact (hev m hm).andThen fun v m _ hm => safe_act hm (by simpa using hm) (assign_mild name v m)
  | declare name init =>
    cases init with
    | false => exact declare_act_safe hi hm
    | true => exact (hev m hm).andThen fun v m _ hm => declare_act_safe hi hm
  | negate =>
    exact (hev m hm).andThen fun v m _ hm => safe_act hm hm v.negateAny_blames.mild
  | binary op =>
    refine (hev m hm).andThen fun l m _ hm => ?_
    exact (hev m hm).andThen fun r m _ hm => safe_act hm hm (Value.binary_blames op l r).mild
  | select otherwise stop =>
    obtain ⟨-, hstop, hlength⟩ := Code.checkInstruction_select.1 (hvalid _ _ hi)
    refine (hev m hm).andThen fun v m _ hm => ?_
    cases v.isTruthy with
    | true =>
      refine (hev m hm).andThen fun w m _ hm => ?_
      exact (jump_act_safe hm hlength).andThen fun _ m _ hm => safe_still hm
    | false =>
      exact (jump_act_safe hm (Nat.le_trans hstop hlength)).andThen fun _ m _ hm => hev m hm
  | call name argc => exact watchCall_safe hhost hev name argc hm
  | block count slots => exact hmisplaced rfl
  | jumpIfFalse target => exact hmisplaced rfl
  | jump target => exact hmisplaced rfl
  | _ => exact safe_act hm hm (mild_ok _)

theorem watchEval_safe (hhost : host.Mild) (hvalid : Code.Valid code) (fuel : Nat)
    (hm : m.position ≤ code.size) : Safe code (watchEval host code fuel m) := by
  induction fuel generalizing m with
  | zero => exact safe_none
  | succ fuel ih =>
    refine (watchFetch_safe hm (.inl (by simp))).andThen fun i n hfetch _ => ?_
    obtain ⟨hi, rfl⟩ := fetch_eq_ok (Option.some.inj hfetch)
    exact watchFetched_safe hhost hvalid (fun m hm => ih hm) hi (.inl rfl) rfl

/-! ### Statements -/

variable {wst : Machine σ → Watched σ Unit} {wrun : Nat → Machine σ → Watched σ Unit}

theorem watchUntil_safe (hst : ∀ m, m.position < code.size → Safe code (wst m)) {stop : Nat}
    (hstop : stop ≤ code.size) (rounds : Nat) (hm : m.position ≤ code.size) :
    Safe code (watchUntil wst stop rounds m) := by
  induction rounds generalizing m with
  | zero => exact safe_none
  | succ rounds ih =>
    rw [watchUntil]
    split
    · rename_i hlt
      exact (hst m (Nat.lt_of_lt_of_le hlt hstop)).andThen fun _ m _ hm => ih hm
    · exact safe_still hm

theorem watchPerform_safe (hhost : host.Mild) (hvalid : Code.Valid code)
    (hev : ∀ m, m.position ≤ code.size → Safe code (wev m))
    (hrun : ∀ stop m, stop ≤ code.size → m.position ≤ code.size → Safe code (wrun stop m))
    {i : Instruction} {place : Nat} (hi : code[place]? = some i) (hplace : m.position = place + 1) :
    Safe code (watchPerform host code wev wrun i m) := by
  have hm : m.position ≤ code.size := by
    rw [hplace]
    exact (Array.getElem?_eq_some_iff.1 hi).1
  have hcheck := hvalid place i hi
  cases i with
  | block count slots =>
    have hstop : Code.advance m.position count ≤ code.size := by
      rw [hplace]
      exact Code.checkTarget_eq_ok.1 hcheck
    simp only [watchPerform]
    rw [if_neg (Nat.not_lt.2 hstop)]
    refine (safe_act hm hm (mild_ok ())).andThen fun _ n _ hn => ?_
    refine (hrun _ n hstop hn).andThen fun _ n _ hn => ?_
    refine safe_act hn ?_ (mild_ok ())
    rw [leave_eq]
    exact hn
  | jumpIfFalse target =>
    refine (hev m hm).andThen fun v n _ hn => ?_
    split
    · exact safe_act hn hn (mild_ok ())
    · exact jump_act_safe hn (Code.checkTarget_eq_ok.1 hcheck)
  | jump target => exact jump_act_safe hm (Code.checkTarget_eq_ok.1 hcheck)
  | _ =>
    rw [watchPerform_of_hasValue rfl]
    refine (watchFetched_safe hhost hvalid hev hi (.inr rfl) hplace).andThen fun v n _ hn => ?_
    exact safe_act hn hn (mild_ok ())

theorem watchStep_safe (hhost : host.Mild) (hvalid : Code.Valid code) (fuel : Nat)
    (hm : m.position < code.size) : Safe code (watchStep host code fuel m) := by
  induction fuel generalizing m with
  | zero => exact safe_none
  | succ fuel ih =>
    refine (watchFetch_safe (Nat.le_of_lt hm) (.inr hm)).andThen fun i n hfetch _ => ?_
    obtain ⟨hi, rfl⟩ := fetch_eq_ok (Option.some.inj hfetch)
    refine watchPerform_safe hhost hvalid (fun m hm => watchEval_safe hhost hvalid fuel hm)
      ?_ hi rfl
    exact fun stop m hstop hm => watchUntil_safe (fun m hm => ih hm) hstop fuel hm

/-! ### Programs -/

/-- All runs and evaluations of a program with a host are safe, whatever the limit and the fuel
are. -/
def AlwaysSafe (host : Host σ) (code : Array Instruction) : Prop :=
  ∀ limit fuel m,
    (Safe code (watchRun host code limit fuel m) ∧
      (watchRun host code limit fuel m).result = runFuel host code limit fuel m) ∧
    Safe code (watchEvaluate host code fuel m) ∧
      (watchEvaluate host code fuel m).result = evaluateFuel host code fuel m

theorem alwaysSafe_of_mild (hhost : host.Mild) (hvalid : Code.Valid code) :
    AlwaysSafe host code := by
  intro limit fuel m
  refine ⟨⟨?_, result_watchRun host code limit fuel m⟩, ?_, result_watchEvaluate host code fuel m⟩
  · have hrun := watchUntil_safe (fun m hm => watchStep_safe hhost hvalid fuel hm)
      (Nat.le_refl _) fuel (m := m.reset.withLimit limit) (Nat.zero_le _)
    exact hrun.andThen fun _ m _ hm => safe_still hm
  · exact watchEval_safe hhost hvalid fuel (Nat.zero_le _)

/-- **Validation is enough for jumps to be safe.** In a valid program that stands alone or runs on a
snapshot, the position is never past the one just after the end, no jump fails, and the last act of
a run that finds the program malformed is a block or a jump in the place of an expression, a
declaration outside of all blocks, or the fetch of an expression at the end of the program. -/
theorem validate_safe {code : Code} (hvalid : code.validate = .ok ()) :
    AlwaysSafe Host.plain code.toArray ∧
      ∀ symbols, AlwaysSafe (Snapshot.host symbols) code.toArray :=
  ⟨alwaysSafe_of_mild Host.plain_mild (Code.valid_of_validate hvalid),
    fun symbols => alwaysSafe_of_mild (Snapshot.host_mild symbols) (Code.valid_of_validate hvalid)⟩

/-- A jump stands in the place of an operand: its target is right, and the run finds it when it
fetches the operand. -/
theorem validate_safe_negated_jump :
    Code.validate [.negate, .jump 2] = .ok () ∧
      ∃ m' moment, runFuel Host.plain #[.negate, .jump 2] .none 9 (start () Console.empty) =
          some (.error (.malformed (.misplaced "jmp:2")), m') ∧
        m'.position = 2 ∧
        (watchRun Host.plain #[.negate, .jump 2] .none 9
          (start () Console.empty)).moments.getLast? =
          some moment ∧
        Blames #[.negate, .jump 2] moment (.misplaced "jmp:2") := by
  have hvalid : Code.validate [.negate, .jump 2] = .ok () := rfl
  have hrun : ∃ m', runFuel Host.plain #[.negate, .jump 2] .none 9 (start () Console.empty) =
      some (.error (.malformed (.misplaced "jmp:2")), m') ∧ m'.position = 2 := ⟨_, rfl, rfl⟩
  obtain ⟨m', hrun, hposition⟩ := hrun
  obtain ⟨⟨hsafe, hresult⟩, -⟩ := (validate_safe hvalid).1 .none 9 (start () Console.empty)
  obtain ⟨moment, hlast, hblames⟩ := hsafe.malformed _ _ (hresult.trans hrun)
  exact ⟨hvalid, m', moment, hrun, hposition, hlast, hblames⟩

end Machine

end BindScript
