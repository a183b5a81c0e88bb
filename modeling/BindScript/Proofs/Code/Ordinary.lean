/-
**What a source can put into a program.**

A program of a source text has no literal that is no number, assigns to variables and their leaves
only, and its blocks begin with zero values, except for the globals of the outermost one.  Zero
records are flat: the layouts of record types are, because the parser refuses a path that it has
already seen.

Main results:

* `compileProgram_ordinary` — **compiled programs are ordinary**, if the globals are finite.
-/

import BindScript.Code.Source
import BindScript.Proofs.Code.Text
import BindScript.Proofs.Soundness.Scopes

namespace BindScript

/-! ### Ordinary programs -/

/-- A slot holds finite numbers, and records with different paths. -/
structure Slot.Ordinary (s : Slot) : Prop where
  finite : ∀ x ∈ s.value.floats, x.isFinite = true
  paths : s.value.DistinctPaths

/-- A literal is a number, an assignment has a target, and the slots of a block are of a kind. -/
def Instruction.Spells (kind : Slot → Prop) : Instruction → Prop
  | .float x => x.isNaN = false
  | .assign name => name ≠ "" ∧ name ≠ "="
  | .block _ slots => ∀ s ∈ slots, kind s
  | _ => True

theorem Instruction.Spells.mono {kind kind' : Slot → Prop} {i : Instruction} (h : i.Spells kind)
    (hkind : ∀ s, kind s → kind' s) : i.Spells kind' := by
  cases i with
  | block count slots => exact fun s hs => hkind s (h s hs)
  | _ => exact h

/-- Literals are numbers, assignments have targets, and slots are ordinary. -/
def Code.Ordinary (code : Code) : Prop := ∀ i ∈ code, i.Spells Slot.Ordinary

def Code.slots (code : Code) : List Slot := code.flatMap Instruction.slots

variable {code : Code} {source : String}

theorem Code.mem_slots {s : Slot} :
    s ∈ code.slots ↔ ∃ count slots, Instruction.block count slots ∈ code ∧ s ∈ slots := by
  rw [Code.slots, List.mem_flatMap]
  constructor
  · rintro ⟨i, hi, hs⟩
    cases i with
    | block count slots => exact ⟨count, slots, hi, hs⟩
    | _ => simp [Instruction.slots] at hs
  · rintro ⟨count, slots, hi, hs⟩
    exact ⟨_, hi, hs⟩

/-! ### Zero values -/

/-- A slot begins with the zero value of a type, or with the zero record of a flat layout. -/
def Slot.Zero (s : Slot) : Prop :=
  (∃ ty, s.value = Value.zero ty) ∨ ∃ fields : Fields, fields.Flat ∧
    s.value = Value.zeroRecord fields

namespace Value

theorem floats_zero (ty : Ty) : ∀ x ∈ (zero ty).floats, x = 0.0 := by
  cases ty <;> simp [zero, floats]

theorem nesting_zero (ty : Ty) : (zero ty).nesting = 0 := by
  cases ty <;> rfl

theorem distinctPaths_zero (ty : Ty) : (zero ty).DistinctPaths := by
  cases ty <;> trivial

theorem leavesFloats_zero (fields : Fields) :
    ∀ x ∈ leavesFloats (fields.map fun (path, ty) => (path, zero ty)), x = 0.0 := by
  induction fields with
  | nil => simp [leavesFloats]
  | cons field fields ih =>
    intro x hx
    rw [List.map_cons, leavesFloats, List.mem_append] at hx
    rcases hx with hx | hx
    · exact floats_zero _ x hx
    · exact ih x hx

theorem leavesNesting_zero (fields : Fields) :
    leavesNesting (fields.map fun (path, ty) => (path, zero ty)) = 0 := by
  induction fields with
  | nil => rfl
  | cons field fields ih =>
    rw [List.map_cons, leavesNesting, ih, nesting_zero]
    rfl

theorem leavesDistinct_zero (fields : Fields) :
    LeavesDistinct (fields.map fun (path, ty) => (path, zero ty)) := by
  induction fields with
  | nil => trivial
  | cons field fields ih => exact ⟨distinctPaths_zero _, ih⟩

end Value

namespace Slot.Zero

variable {s : Slot}

theorem floats (h : s.Zero) : ∀ x ∈ s.value.floats, x = 0.0 := by
  rcases h with ⟨ty, hty⟩ | ⟨fields, -, hfields⟩
  · rw [hty]
    exact Value.floats_zero ty
  · rw [hfields]
    exact Value.leavesFloats_zero fields

theorem nesting_le (h : s.Zero) : s.value.nesting ≤ 1 := by
  rcases h with ⟨ty, hty⟩ | ⟨fields, -, hfields⟩
  · rw [hty, Value.nesting_zero]
    exact Nat.zero_le 1
  · rw [hfields, Value.zeroRecord, Value.nesting, Value.leavesNesting_zero]

theorem distinctPaths (h : s.Zero) : s.value.DistinctPaths := by
  rcases h with ⟨ty, hty⟩ | ⟨fields, hflat, hfields⟩
  · rw [hty]
    exact Value.distinctPaths_zero ty
  · rw [hfields]
    refine ⟨?_, Value.leavesDistinct_zero fields⟩
    rw [List.map_map]
    exact hflat.distinct

end Slot.Zero

/-! ### Blocks of a source -/

variable {fresh : Prop} {Γ Γ' : Scopes}

theorem Scopes.addVariable_zero {ty : Ty} {name : String} {line : Nat}
    (h : Γ.addVariable ty name line = (.ok (), Γ')) (hΓ : Γ.LeafTyped) :
    ∀ slot ∈ Γ'.top.slots, slot ∈ Γ.top.slots ∨ slot.Zero := by
  obtain ⟨s, outer, value, rfl, -, -, hvalue, rfl⟩ := Scopes.addVariable_eq_ok h
  intro slot hslot
  rcases List.mem_append.1 hslot with hslot | hslot
  · exact .inl hslot
  · right
    obtain rfl := List.mem_singleton.1 hslot
    rcases Scopes.zeroValue_eq_ok hvalue with ⟨record, fields, -, hfields, rfl⟩ | ⟨-, rfl⟩
    · exact .inr ⟨fields, hΓ.flat hfields, rfl⟩
    · exact .inl ⟨ty, rfl⟩

/-- The variables that statements add to the innermost scope start at zero. -/
theorem TypedAll.zero_slots {ss : List Stmt} (h : TypedAll fresh Γ ss Γ') (hΓ : Γ.LeafTyped) :
    ∀ slot ∈ Γ'.top.slots, slot ∈ Γ.top.slots ∨ slot.Zero := by
  induction h using TypedAll.induct with
  | nil => exact fun slot hslot => .inl hslot
  | @cons Γ Γ₁ Γ₂ s ss hs hss ih =>
    have hΓ₁ : Γ₁.LeafTyped := (TypedAll.singleton hs).leafTyped hΓ
    have hstep : ∀ slot ∈ Γ₁.top.slots, slot ∈ Γ.top.slots ∨ slot.Zero := by
      cases hs with
      | declare hadd => exact Scopes.addVariable_zero hadd hΓ
      | declareInit _ _ _ hadd => exact Scopes.addVariable_zero hadd hΓ
      | _ => exact fun slot hslot => .inl hslot
    intro slot hslot
    rcases ih hΓ₁ slot hslot with hslot | hslot
    · exact hstep slot hslot
    · exact .inr hslot
  | @record Γ Γ₁ Γ₂ name fields line ss hflat hfresh hadd hss ih =>
    have hΓ₁ : Γ₁.LeafTyped := TypedAll.leafTyped (.record hflat hfresh hadd .nil) hΓ
    obtain ⟨s, outer, rfl, -, -, rfl⟩ := Scopes.addType_eq_ok hadd
    exact ih hΓ₁

/-- A scope without record types keeps the layouts of scopes flat. -/
theorem Scopes.LeafTyped.push (hΓ : Γ.LeafTyped) (slots : List Slot) :
    Scopes.LeafTyped (⟨slots, []⟩ :: Γ) := by
  intro s hs
  rcases List.mem_cons.1 hs with rfl | hs
  · simp
  · exact hΓ s hs

theorem Place.Typed.fullName_ne {p : Place} (h : p.Typed Γ) :
    p.fullName ≠ "" ∧ p.fullName ≠ "=" := by
  obtain ⟨⟨hne, -, hequals⟩, -⟩ := h
  have hfirst : ∃ c rest, p.name.toList = c :: rest ∧ c ≠ '=' := by
    cases hname : p.name.toList with
    | nil => exact absurd (String.toList_eq_nil_iff.1 hname) hne
    | cons c rest =>
      refine ⟨c, rest, rfl, ?_⟩
      rintro rfl
      exact hequals (by rw [hname]; exact List.mem_cons_self)
  obtain ⟨c, rest, hname, hc⟩ := hfirst
  have hfull : ∃ more, p.fullName.toList = c :: more := by
    unfold Place.fullName
    split
    · exact ⟨_, hname⟩
    · rename_i path _
      exact ⟨rest ++ '.' :: path.toList, by simp [hname]⟩
  obtain ⟨more, hfull⟩ := hfull
  refine ⟨fun h => ?_, fun h => hc ?_⟩
  · rw [h] at hfull
    cases hfull
  · rw [h] at hfull
    exact (List.cons.inj hfull).1.symm

/-- The code of expressions is the code of each at some position. -/
theorem Expr.mem_codeOfAll {es : List Expr} {p : Nat} {i : Instruction}
    (h : i ∈ Expr.codeOfAll p es) :
    ∃ e ∈ es, ∃ q, i ∈ e.codeAt q := by
  induction es generalizing p with
  | nil => simp [Expr.codeOfAll] at h
  | cons e es ih =>
    rw [Expr.codeOfAll] at h
    rcases List.mem_append.1 h with h | h
    · exact ⟨e, List.mem_cons_self, p, h⟩
    · obtain ⟨e', he', q, hi⟩ := ih h
      exact ⟨e', List.mem_cons_of_mem _ he', q, hi⟩

theorem Expr.Typed.spells {e : Expr} (h : e.Typed Γ) {kind : Slot → Prop} (p : Nat) :
    ∀ i ∈ e.codeAt p, i.Spells kind := by
  induction h generalizing p with
  | @literal line v hv =>
    intro i hi
    obtain rfl : i = v.instruction := by simpa [Expr.codeAt] using hi
    cases v with
    | float x => exact show x.isNaN = false by simpa [Value.isLiteral] using hv
    | _ => trivial
  | load hp | host =>
    intro i hi
    obtain rfl : i = _ := by simpa [Expr.codeAt] using hi
    trivial
  | negate _ _ ih =>
    intro i hi
    rw [Expr.codeAt] at hi
    rcases List.mem_cons.1 hi with rfl | hi
    · trivial
    · exact ih _ i hi
  | binary _ _ _ ihl ihr =>
    intro i hi
    simp only [Expr.codeAt, List.mem_cons, List.mem_append] at hi
    rcases hi with rfl | hi | hi
    · trivial
    · exact ihl _ i hi
    · exact ihr _ i hi
  | select _ _ _ _ _ _ ihc ihy ihn =>
    intro i hi
    simp only [Expr.codeAt, List.mem_cons, List.mem_append] at hi
    rcases hi with rfl | (hi | hi) | hi
    · trivial
    · exact ihc _ i hi
    · exact ihy _ i hi
    · exact ihn _ i hi
  | @call line f args hargs _ ih =>
    intro i hi
    rw [Expr.codeAt] at hi
    rcases List.mem_cons.1 hi with rfl | hi
    · trivial
    · obtain ⟨arg, harg, q, hi⟩ := Expr.mem_codeOfAll hi
      exact ih arg harg q i hi

mutual

/-- The code of a well typed statement. Its blocks begin with zero values. -/
theorem Stmt.Typed.spells {Γ Γ' : Scopes} {s : Stmt} (h : Stmt.Typed fresh Γ s Γ')
    (hΓ : Γ.LeafTyped) (p : Nat) : ∀ i ∈ s.codeAt p, i.Spells Slot.Zero := by
  intro i hi
  match h with
  | .branch hc _ hyes =>
    simp only [Stmt.codeAt, List.mem_cons, List.mem_append] at hi
    rcases hi with rfl | hi | hi
    · trivial
    · exact hc.spells _ i hi
    · exact hyes.spells hΓ _ i hi
  | .branchElse hc _ hyes hno =>
    simp only [Stmt.codeAt, List.mem_cons, List.mem_append] at hi
    rcases hi with rfl | (hi | hi) | rfl | hi
    · trivial
    · exact hc.spells _ i hi
    · exact hyes.spells hΓ _ i hi
    · trivial
    · exact hno.spells hΓ _ i hi
  | .loop hc _ hbody =>
    simp only [Stmt.codeAt, List.mem_cons, List.mem_append, List.not_mem_nil, or_false] at hi
    rcases hi with rfl | (hi | hi) | rfl
    · trivial
    · exact hc.spells _ i hi
    · exact hbody.spells hΓ _ i hi
    · trivial
  | .block hbody => exact hbody.spells hΓ p i hi
  | .declare _ =>
    obtain rfl : i = _ := by simpa [Stmt.codeAt, initCode] using hi
    trivial
  | .declareInit hinit _ _ _ =>
    simp only [Stmt.codeAt, initCode, List.mem_cons] at hi
    rcases hi with rfl | hi
    · trivial
    · exact hinit.spells _ i hi
  | .assign htarget hvalue _ _ =>
    simp only [Stmt.codeAt, List.mem_cons] at hi
    rcases hi with rfl | hi
    · exact htarget.fullName_ne
    · exact hvalue.spells _ i hi
  | .perform hcall => exact hcall.spells p i hi

theorem Block.Typed.spells {Γ : Scopes} {b : Block} (h : Block.Typed fresh Γ b) (hΓ : Γ.LeafTyped)
    (p : Nat) :
    ∀ i ∈ b.codeAt p, i.Spells Slot.Zero := by
  intro i hi
  match h with
  | .mk hss =>
    rw [Block.codeAt] at hi
    rcases List.mem_cons.1 hi with rfl | hi
    · intro slot hslot
      rcases hss.zero_slots (hΓ.push []) slot hslot with hslot | hslot
      · simp [Scopes.top, Scope.empty] at hslot
      · exact hslot
    · exact hss.spells (hΓ.push []) _ i hi

theorem TypedAll.spells {Γ Γ' : Scopes} {ss : List Stmt} (h : TypedAll fresh Γ ss Γ')
    (hΓ : Γ.LeafTyped) (p : Nat) : ∀ i ∈ codeOfStatements p ss, i.Spells Slot.Zero := by
  intro i hi
  match h with
  | .nil => simp [codeOfStatements] at hi
  | .cons hs hss =>
    rw [codeOfStatements] at hi
    rcases List.mem_append.1 hi with hi | hi
    · exact hs.spells hΓ p i hi
    · exact hss.spells ((TypedAll.singleton hs).leafTyped hΓ) _ i hi
  | .record hflat hfresh hadd hss =>
    exact hss.spells (TypedAll.leafTyped (.record hflat hfresh hadd .nil) hΓ) p i hi

end

/-! ### Programs of a source -/

/-- The slot of a global: it holds the value of the global, which is no record. -/
def Slot.OfGlobal (globals : Globals) (s : Slot) : Prop :=
  (s.name, s.value) ∈ globals ∧ s.value.ty.isLeaf = true

/-- A program of a source is the code of a block, whose blocks begin with the globals or with zero
values. -/
theorem compileProgram_spells {globals : Globals} (h : compileProgram source globals = .ok code) :
    (∃ root : Block, code = root.code) ∧
      ∀ i ∈ code, i.Spells fun s => s.OfGlobal globals ∨ s.Zero := by
  cases hparse : parseProgram source globals with
  | error e =>
    rw [compileProgram, hparse] at h
    simp [Except.map] at h
  | ok root =>
    rw [compileProgram, hparse] at h
    obtain rfl : root.code = code := by simpa [Except.map] using h
    obtain ⟨slots, hslots, htyped⟩ := parseProgram_typed hparse
    have hΓ : Scopes.LeafTyped [⟨slots, []⟩] := by
      intro s hs
      obtain rfl := List.mem_singleton.1 hs
      simp
    refine ⟨⟨root, rfl⟩, ?_⟩
    intro i hi
    cases root with
    | mk rootSlots types statements =>
      rw [Block.code, Block.codeAt] at hi
      rcases List.mem_cons.1 hi with rfl | hi
      · intro slot hslot
        rcases htyped.zero_slots hΓ slot hslot with hslot | hslot
        · obtain ⟨-, hty, hleaf⟩ := (globalSlots_eq_ok hslots).2 slot hslot
          have hglobal : (slot.name, slot.value) ∈ globals := by
            rw [← map_globalSlots hslots]
            exact List.mem_map_of_mem hslot
          exact .inl ⟨hglobal, hty ▸ hleaf⟩
        · exact .inr hslot
      · exact (htyped.spells hΓ _ i hi).mono fun s hs => .inr hs

namespace Slot.OfGlobal

variable {globals : Globals} {s : Slot}

theorem floats (h : s.OfGlobal globals) : ∀ x ∈ s.value.floats, (s.name, .float x) ∈ globals := by
  obtain ⟨hmem, hleaf⟩ := h
  intro x hx
  cases hvalue : s.value with
  | float y =>
    rw [hvalue] at hx hmem
    obtain rfl : x = y := by simpa [Value.floats] using hx
    exact hmem
  | record leaves =>
    rw [hvalue] at hleaf
    simp [Value.ty, Ty.isLeaf] at hleaf
  | _ =>
    rw [hvalue] at hx
    simp [Value.floats] at hx

theorem nesting_eq (h : s.OfGlobal globals) : s.value.nesting = 0 := by
  obtain ⟨-, hleaf⟩ := h
  cases hvalue : s.value with
  | record leaves =>
    rw [hvalue] at hleaf
    simp [Value.ty, Ty.isLeaf] at hleaf
  | _ => rfl

theorem distinctPaths (h : s.OfGlobal globals) : s.value.DistinctPaths := by
  obtain ⟨-, hleaf⟩ := h
  cases hvalue : s.value with
  | record leaves =>
    rw [hvalue] at hleaf
    simp [Value.ty, Ty.isLeaf] at hleaf
  | _ => trivial

end Slot.OfGlobal

/-- The slots of a compiled program hold the numbers of the globals and zeros, in records that are
not nested. -/
theorem compileProgram_slots {globals : Globals} (h : compileProgram source globals = .ok code) :
    ∀ s ∈ code.slots, s.value.nesting ≤ 1 ∧
      ∀ x ∈ s.value.floats, x = 0.0 ∨ (s.name, .float x) ∈ globals := by
  intro s hs
  obtain ⟨count, slots, hi, hs⟩ := Code.mem_slots.1 hs
  have hkind := (compileProgram_spells h).2 _ hi s hs
  rcases hkind with hglobal | hzero
  · exact ⟨by rw [hglobal.nesting_eq]; exact Nat.zero_le 1, fun x hx => .inr (hglobal.floats x hx)⟩
  · exact ⟨hzero.nesting_le, fun x hx => .inl (hzero.floats x hx)⟩

/-- **Compiled programs are ordinary**, if the globals are finite. -/
theorem compileProgram_ordinary {globals : Globals} (h : compileProgram source globals = .ok code)
    (hglobals : ∀ name x, (name, Value.float x) ∈ globals → x.isFinite = true) : code.Ordinary := by
  intro i hi
  refine ((compileProgram_spells h).2 i hi).mono fun s hs => ?_
  rcases hs with hglobal | hzero
  · exact ⟨fun x hx => hglobals _ x (hglobal.floats x hx), hglobal.distinctPaths⟩
  · refine ⟨fun x hx => ?_, hzero.distinctPaths⟩
    rw [hzero.floats x hx]
    decide

end BindScript
