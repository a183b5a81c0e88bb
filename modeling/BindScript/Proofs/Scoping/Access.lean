/-
**Access to variables.**

If every variable in sight is found in the frames, a whole variable can be read and written.  The
leaf of a record may be missing: while two record types of one name are in sight, a variable may
hold a record of the other one.  So the errors that are left are those that values cause, those of
names and functions that only a host has, and an undefined leaf, whose name has a point in it.

Main results:

* `Frames.Follow.accessible` — **places in sight are accessible**.
-/

import BindScript.Proofs.Effects.Statement
import BindScript.Proofs.Scoping.Frames
import BindScript.Proofs.Soundness.Errors

namespace BindScript

/-! ### Errors -/

/-- The errors that are not about whole variables: those of values, those of what only a host has,
and the one of a leaf that is not there. -/
def RuntimeError.SparesVariables : RuntimeError → Prop
  | .undefinedVariable name => '.' ∈ name.toList
  | .unsupported _ => True
  | e => e.OfValues

theorem RuntimeError.OfValues.spares {e : RuntimeError} (h : e.OfValues) : e.SparesVariables := by
  cases e with
  | undefinedVariable name => exact absurd h id
  | unsupported what => exact trivial
  | _ => exact h

theorem Place.mem_fullName {p : Place} (h : p.path ≠ none) : '.' ∈ p.fullName.toList := by
  obtain ⟨path, hpath⟩ := Option.ne_none_iff_exists'.1 h
  rw [Place.fullName, hpath]
  simp

/-! ### Places -/

namespace Frames

variable {frames : Frames} {p : Place} {c : Frame.Cell} {e : RuntimeError}

theorem read_variable (hname : '.' ∉ p.name.toList) (hpath : p.path = none)
    (hc : frames.find? p.name = some c) : frames.read p.fullName = .ok c.value := by
  simp only [read, splitName_fullName hname, hc, hpath]
  rfl

theorem exists_write_variable (hname : '.' ∉ p.name.toList) (hpath : p.path = none)
    (hc : frames.find? p.name = some c) (v : Value) :
    ∃ frames', frames.write p.fullName v = .ok frames' := by
  have hchange : ∀ old, (Value.withLeaf? p.path v old).isSome = true := by
    rw [hpath]
    exact fun _ => rfl
  obtain ⟨frames', hupdate⟩ := exists_update? hchange hc
  refine ⟨frames', ?_⟩
  simp only [write, splitName_fullName hname, hupdate]

theorem read_eq_error (h : frames.read p.fullName = .error e) :
    e = .undefinedVariable p.fullName := by
  simp only [read] at h
  split at h
  · cases h
  · exact (Except.error.inj h).symm

theorem write_eq_error {v : Value} (h : frames.write p.fullName v = .error e) :
    e = .undefinedVariable p.fullName := by
  simp only [write] at h
  split at h
  · cases h
  · exact (Except.error.inj h).symm

theorem read_spares (hname : '.' ∉ p.name.toList) (hc : frames.find? p.name = some c)
    (h : frames.read p.fullName = .error e) : e.SparesVariables := by
  rw [read_eq_error h]
  refine Place.mem_fullName fun hpath => ?_
  rw [read_variable hname hpath hc] at h
  cases h

theorem write_spares (hname : '.' ∉ p.name.toList) (hc : frames.find? p.name = some c) {v : Value}
    (h : frames.write p.fullName v = .error e) : e.SparesVariables := by
  rw [write_eq_error h]
  refine Place.mem_fullName fun hpath => ?_
  obtain ⟨frames', hwrite⟩ := exists_write_variable hname hpath hc v
  rw [hwrite] at h
  cases h

end Frames

/-- A place is found where it was declared: its variable can be read and written as a whole, and
writing to the place changes its variable in the frame of that level and nothing else. -/
structure Place.Accessible (Γ : Scopes) (frames : Frames) (p : Place) : Prop where
  resolves : Frames.Resolves Γ frames p.name
  reads : p.path = none → ∃ v, frames.read p.fullName = .ok v
  writes : p.path = none → ∀ v, ∃ frames', frames.write p.fullName v = .ok frames'
  only : ∀ v frames', frames.write p.fullName v = .ok frames' →
    ∃ i f w, Γ.home? p.name = some i ∧ frames[i]? = some f ∧
      frames' = frames.set i (Table.replace p.name (fun c => { c with value := w }) f)

/-- **Places in sight are accessible.** -/
theorem Frames.Follow.accessible {ctx : Context} {Γ : Scopes} {frames : Frames} (hΓ : Γ.Show ctx)
    (h : Follow ctx frames) {p : Place} (hname : IsName p.name) {slot : Slot}
    (hslot : Γ.slot? p.name = some slot) : p.Accessible Γ frames := by
  have hresolves := h.resolves hΓ hslot
  obtain ⟨-, -, -, -, c, -, -, -, -, -, -, -, hc⟩ := h.resolves hΓ hslot
  refine ⟨hresolves, ?_, ?_, ?_⟩
  · intro hpath
    exact ⟨c.value, read_variable hname.noPoint hpath hc⟩
  · intro hpath v
    exact exists_write_variable hname.noPoint hpath hc v
  · intro v frames' hwrite
    have hupdate := write_eq_ok hwrite
    rw [splitName_fullName hname.noPoint] at hupdate
    obtain ⟨i, f, _, w, hhome, hf, -, -, heq⟩ := update?_at_home hupdate
    rw [h.home?_eq hΓ] at hhome
    exact ⟨i, f, w, hhome, hf, heq⟩

/-! ### Evaluation -/

namespace Machine

variable {Γ : Scopes} {frames : Frames}

theorem answers_of_blames {r : Except RuntimeError Value} (h : BlamesValues r) :
    Answers (fun _ => True) RuntimeError.SparesVariables r := by
  cases r with
  | ok v => exact trivial
  | error e => exact (h e rfl).spares

/-- A call without a host fails because of values, or because the function needs a host. -/
theorem call_spares {f : Builtin} (href : f.takesReference = false) (values : List Value)
    (m : Machine Unit) :
    Answers (fun _ => True) RuntimeError.SparesVariables
      (callWithValues .plain f.name values m).1 := by
  have hcall : (callWithValues .plain f.name values m).1 = (f.call values m.console).1 := by
    simp only [callWithValues, Host.plain, Builtin.callByName, f.ofName?_name]
  rw [hcall]
  cases hhost : f.needsHost with
  | false => exact answers_of_blames (Builtin.call_blames hhost href values m.console)
  | true =>
    cases f with
    | selectedOptionId => exact trivial
    | selectedOptionExtraValue => exact trivial
    | setValue => exact trivial
    | _ => cases hhost

theorem update_spares (f : Builtin) {p : Place} (hname : '.' ∉ p.name.toList) {m : Machine Unit}
    {c : Frame.Cell} (hc : m.frames.find? p.name = some c) :
    Answers (fun _ => True) RuntimeError.SparesVariables
      (updateTarget f (.load p.fullName) m).1 := by
  simp only [updateTarget]
  cases hread : m.frames.read p.fullName with
  | error e => exact Frames.read_spares hname hc hread
  | ok v =>
    cases v with
    | int n =>
      simp only
      cases hint : Value.checkedInt f.name (n.toInt + referenceStep f) with
      | error e => exact ((Value.checkedInt_blames _ _) e hint).spares
      | ok w =>
        simp only [assign]
        cases hwrite : m.frames.write p.fullName w with
        | error e => exact Frames.write_spares hname hc hwrite
        | ok frames' => exact trivial
    | _ => exact trivial

/-- Evaluation spares variables, if those in sight are found. -/
theorem lawful_plain (hfound : ∀ p : Place, p.Typed Γ → ∃ c, frames.find? p.name = some c) :
    Lawful .plain Γ frames (fun _ _ => True) RuntimeError.SparesVariables where
  literal _ := trivial
  load {p} hp := by
    obtain ⟨c, hc⟩ := hfound p hp
    cases hread : frames.read p.fullName with
    | ok v => exact trivial
    | error e => exact Frames.read_spares hp.1.noPoint hc hread
  resolve _ _ := trivial
  negate _ _ := answers_of_blames (Value.negateAny_blames _)
  binary _ _ _ := answers_of_blames (Value.binary_blames _ _ _)
  call m _ href _ := call_spares href _ m
  update {f p} m _ hp _ hframes := by
    obtain ⟨c, hc⟩ := hfound p hp
    exact update_spares f hp.1.noPoint (by rw [hframes]; exact hc)

theorem stores_plain (hfound : ∀ p : Place, p.Typed Γ → ∃ c, frames.find? p.name = some c)
    (hframes : frames ≠ []) :
    Stores Γ frames (fun _ _ => True) RuntimeError.SparesVariables where
  write {target v e} htarget _ hwrite := by
    obtain ⟨c, hc⟩ := hfound target htarget
    exact Frames.write_spares htarget.1.noPoint hc hwrite
  declare hdeclare := absurd hdeclare (Frames.declare_ne_error hframes)

end Machine

end BindScript
