/-
**The table of the names in sight.**

A sequence of operations builds a stack of scopes from the empty one: scopes are opened and closed,
and variables and record types are declared in the innermost one.  An operation is performed as a
whole, or it fails and the stack stays as it was.  Whatever the sequence, and whatever in it has
failed, variables and types never share a name, and a variable keeps the value that its type started
with when it was declared.

Main results:

* `Scopes.after_invariant` — **the table after any sequence of operations**.
-/

import BindScript.Proofs.Typing
import Mathlib.Data.List.Induction

namespace BindScript

namespace Scope

def slotNames (s : Scope) : List String := s.slots.map (·.name)

def typeNames (s : Scope) : List String := s.types.map Prod.fst

theorem slot?_eq_none {s : Scope} {name : String} : s.slot? name = none ↔ name ∉ s.slotNames := by
  refine ⟨Scope.not_mem_names, ?_⟩
  intro h
  refine List.find?_eq_none.2 fun v hv heq => h ?_
  exact List.mem_map.2 ⟨v, hv, by simpa using heq⟩

theorem type?_eq_none {s : Scope} {name : String} : s.type? name = none ↔ name ∉ s.typeNames := by
  constructor
  · intro h hmem
    obtain ⟨⟨n, fields⟩, hentry, rfl⟩ := List.mem_map.1 hmem
    exact absurd (List.lookup_eq_none_iff.1 h (n, fields) hentry) (by simp)
  · exact Table.lookup_eq_none

end Scope

variable {level i : Nat} {v : Slot}

namespace Scopes

variable {t t' outer : Scopes} {s : Scope} {name : String}

theorem slot?_eq_none : t.slot? name = none ↔ ∀ s ∈ t, name ∉ s.slotNames := by
  rw [slot?, List.findSome?_eq_none_iff]
  exact forall₂_congr fun s _ => Scope.slot?_eq_none

theorem type?_eq_none_iff : t.type? name = none ↔ ∀ s ∈ t, name ∉ s.typeNames := by
  rw [type?, List.findSome?_eq_none_iff]
  exact forall₂_congr fun s _ => Scope.type?_eq_none

theorem isTypeName_eq_false :
    t.isTypeName name = false ↔ Ty.ofKeyword? name = none ∧ ∀ s ∈ t, name ∉ s.typeNames := by
  rw [isTypeName, Bool.or_eq_false_iff, Option.isSome_eq_false_iff, Option.isSome_eq_false_iff,
    Option.isNone_iff_eq_none, Option.isNone_iff_eq_none, type?_eq_none_iff]

/-! ### Operations -/

/-- An operation on the open scopes. -/
inductive Operation where
  | push
  | pop
  | addVariable (ty : Ty) (name : String) (line : Nat)
  | addType (name : String) (fields : Fields) (line : Nat)

/-- The answer of an operation, and the scopes after it. -/
def Operation.run : Operation → Scopes → Except CompileError Unit × Scopes
  | .push, t => (.ok (), t.push [])
  | .pop, t => (.ok (), t.pop)
  | .addVariable ty name line, t => t.addVariable ty name line
  | .addType name fields line, t => t.addType name fields line

/-- What an operation does when it can be done. A variable may have the name of one in an outer
scope, and a record type that of one in an outer scope; but the name of a variable is that of no
type in sight, and the name of a type is that of no variable in sight. -/
inductive Operation.Performs : Operation → Scopes → Scopes → Prop
  | push {Γ} : Performs .push Γ (Scope.empty :: Γ)
  | pop {Γ} : Performs .pop Γ Γ.tail
  | addVariable {first Γ ty n line value} : Ty.ofKeyword? n = none →
      (∀ scope ∈ first :: Γ, n ∉ scope.typeNames) → n ∉ first.slotNames →
      zeroValue (first :: Γ) ty line = .ok value →
      Performs (.addVariable ty n line) (first :: Γ)
        ({ first with slots := first.slots ++ [⟨n, ty, value, false⟩] } :: Γ)
  | addType {first Γ n fields line} : Ty.ofKeyword? n = none →
      (∀ scope ∈ first :: Γ, n ∉ scope.slotNames) → n ∉ first.typeNames →
      Performs (.addType n fields line) (first :: Γ)
        ({ first with types := first.types ++ [(n, fields)] } :: Γ)

namespace Operation

theorem performs_addVariable {ty : Ty} {line : Nat} :
    Performs (.addVariable ty name line) t t' ↔
    Scopes.addVariable t ty name line = (.ok (), t') := by
  constructor
  · rintro (_ | _ | ⟨hkeyword, htypes, hslots, hvalue⟩)
    rw [Scopes.addVariable, isTypeName_eq_false.2 ⟨hkeyword, htypes⟩, declaredHere, top,
      List.headD_cons, Scope.slot?_eq_none.2 hslots, hvalue]
    rfl
  · intro h
    have htype : t.isTypeName name = false := by
      cases htype : t.isTypeName name with
      | false => rfl
      | true => simp [Scopes.addVariable, htype] at h
    obtain ⟨hkeyword, htypes⟩ := isTypeName_eq_false.1 htype
    obtain ⟨s, outer, value, rfl, hnew, -, hvalue, rfl⟩ := addVariable_eq_ok h
    exact .addVariable hkeyword htypes (Scope.slot?_eq_none.1 hnew) hvalue

theorem performs_addType {fields : Fields} {line : Nat} :
    Performs (.addType name fields line) t t' ↔
    Scopes.addType t name fields line = (.ok (), t') := by
  constructor
  · rintro (_ | _ | _ | ⟨hkeyword, hslots, htypes⟩)
    rw [Scopes.addType, hkeyword, slot?_eq_none.2 hslots]
    simp [Scope.type?_eq_none.2 htypes]
  · intro h
    have hkeyword : Ty.ofKeyword? name = none := by
      cases hkeyword : Ty.ofKeyword? name with
      | none => rfl
      | some ty => simp [Scopes.addType, hkeyword] at h
    obtain ⟨s, outer, rfl, hnew, hslot, rfl⟩ := addType_eq_ok h
    exact .addType hkeyword (slot?_eq_none.1 hslot) (Scope.type?_eq_none.1 hnew)

theorem addVariable_of_error {ty : Ty} {line : Nat} {e : CompileError}
    (h : (Scopes.addVariable t ty name line).1 = .error e) :
    Scopes.addVariable t ty name line = (.error e, t) := by
  unfold Scopes.addVariable at h ⊢
  split at h
  · rename_i htype
    rw [if_pos htype, Except.error.inj h]
  · split at h
    · rename_i htype hhere
      rw [if_neg htype, if_pos hhere, Except.error.inj h]
    · rename_i htype hhere
      rw [if_neg htype, if_neg hhere]
      split at h
      · rw [Except.error.inj h]
      · cases t with
        | nil => rw [← Except.error.inj h]
        | cons s outer => cases h

theorem addType_of_error {fields : Fields} {line : Nat} {e : CompileError}
    (h : (Scopes.addType t name fields line).1 = .error e) :
    Scopes.addType t name fields line = (.error e, t) := by
  unfold Scopes.addType at h ⊢
  split at h
  · rename_i htaken
    rw [if_pos htaken, Except.error.inj h]
  · rename_i htaken
    rw [if_neg htaken]
    cases t with
    | nil => rw [← Except.error.inj h]
    | cons s outer =>
      simp only at h ⊢
      split at h
      · rename_i hhere
        rw [if_pos hhere, Except.error.inj h]
      · cases h

/-- **An operation is performed, or it fails and changes nothing.** -/
theorem run_cases (op : Operation) (t : Scopes) :
    (∃ t', op.Performs t t' ∧ op.run t = (.ok (), t')) ∨
      (¬∃ t', op.Performs t t') ∧ ∃ e, op.run t = (.error e, t) := by
  cases op with
  | push => exact .inl ⟨_, .push, rfl⟩
  | pop =>
    refine .inl ⟨_, .pop, ?_⟩
    rw [← List.drop_one]
    rfl
  | addVariable ty name line =>
    simp only [performs_addVariable, run]
    rcases h : Scopes.addVariable t ty name line with ⟨e | u, t'⟩
    · rw [addVariable_of_error (congrArg Prod.fst h)] at h
      exact .inr ⟨by simp, e, by rw [(Prod.mk.inj h).2]⟩
    · exact .inl ⟨t', rfl, rfl⟩
  | addType name fields line =>
    simp only [performs_addType, run]
    rcases h : Scopes.addType t name fields line with ⟨e | u, t'⟩
    · rw [addType_of_error (congrArg Prod.fst h)] at h
      exact .inr ⟨by simp, e, by rw [(Prod.mk.inj h).2]⟩
    · exact .inl ⟨t', rfl, rfl⟩

end Operation

/-- The scopes after a sequence of operations. -/
def runAll : List Operation → Scopes → Scopes
  | [], t => t
  | op :: ops, t => runAll ops (op.run t).2

theorem runAll_append (ops ops' : List Operation) (t : Scopes) :
    runAll (ops ++ ops') t = runAll ops' (runAll ops t) := by
  induction ops generalizing t with
  | nil => rfl
  | cons op ops ih => exact ih (op.run t).2

/-- The scopes after a sequence of operations that begins with none. -/
def after (ops : List Operation) : Scopes := runAll ops []

theorem after_concat (ops : List Operation) (op : Operation) :
    after (ops ++ [op]) = (op.run (after ops)).2 := runAll_append ops [op] []

/-! ### Names -/

/-- The names in each scope differ, and no variable has the name of a type. -/
structure WellFormed (t : Scopes) : Prop where
  slots : ∀ s ∈ t, s.slotNames.Nodup
  types : ∀ s ∈ t, s.typeNames.Nodup
  keyword : ∀ s ∈ t, ∀ name ∈ s.slotNames, Ty.ofKeyword? name = none
  apart : ∀ s ∈ t, ∀ name ∈ s.slotNames, ∀ s' ∈ t, name ∉ s'.typeNames

namespace WellFormed

theorem nil : WellFormed [] := ⟨by simp, by simp, by simp, by simp⟩

theorem push (h : WellFormed t) : WellFormed (Scope.empty :: t) := by
  have hslots : Scope.empty.slotNames = [] := rfl
  have htypes : Scope.empty.typeNames = [] := rfl
  constructor
  · exact List.forall_mem_cons.2 ⟨List.nodup_nil, h.slots⟩
  · exact List.forall_mem_cons.2 ⟨List.nodup_nil, h.types⟩
  · exact List.forall_mem_cons.2 ⟨by simp [hslots], h.keyword⟩
  · refine List.forall_mem_cons.2 ⟨by simp [hslots], fun s hs name hname => ?_⟩
    exact List.forall_mem_cons.2 ⟨by simp [htypes], h.apart s hs name hname⟩

theorem pop (h : WellFormed t) : WellFormed t.tail :=
  ⟨fun s hs => h.slots s (List.mem_of_mem_tail hs), fun s hs => h.types s (List.mem_of_mem_tail hs),
    fun s hs => h.keyword s (List.mem_of_mem_tail hs),
    fun s hs name hname s' hs' =>
      h.apart s (List.mem_of_mem_tail hs) name hname s' (List.mem_of_mem_tail hs')⟩

end WellFormed

/-- One operation keeps variables and types apart. -/
theorem Operation.Performs.wellFormed {op : Operation} (hop : op.Performs t t') (h : WellFormed t) :
    WellFormed t' := by
  cases hop with
  | push => exact h.push
  | pop => exact h.pop
  | @addVariable s outer ty name line value hkeyword htypes hnew hvalue =>
    obtain ⟨hs, houter⟩ := List.forall_mem_cons.1 h.slots
    obtain ⟨hks, hkouter⟩ := List.forall_mem_cons.1 h.keyword
    obtain ⟨has, haouter⟩ := List.forall_mem_cons.1 h.apart
    have hnames : Scope.slotNames { s with slots := s.slots ++ [⟨name, ty, value, false⟩] } =
        s.slotNames ++ [name] := by simp [Scope.slotNames]
    -- the types are those before
    have hall : ∀ other, (∀ scope ∈ s :: outer, other ∉ scope.typeNames) →
        ∀ scope ∈ { s with slots := s.slots ++ [⟨name, ty, value, false⟩] } :: outer,
          other ∉ scope.typeNames := by
      intro other hother
      obtain ⟨hfirst, hrest⟩ := List.forall_mem_cons.1 hother
      exact List.forall_mem_cons.2 ⟨hfirst, hrest⟩
    constructor
    · refine List.forall_mem_cons.2 ⟨?_, houter⟩
      rw [hnames]
      exact List.Nodup.append hs (List.nodup_singleton name) (by simpa using hnew)
    · exact List.forall_mem_cons.2 (List.forall_mem_cons.1 h.types)
    · refine List.forall_mem_cons.2 ⟨?_, hkouter⟩
      rw [hnames]
      exact List.forall_mem_append.2 ⟨hks, by simpa using hkeyword⟩
    · refine List.forall_mem_cons.2 ⟨?_, fun scope hscope other hother =>
        hall other (haouter scope hscope other hother)⟩
      rw [hnames]
      refine List.forall_mem_append.2 ⟨fun other hother => hall other (has other hother), ?_⟩
      intro other hother
      rw [List.mem_singleton.1 hother]
      exact hall name htypes
  | @addType s outer name fields line hkeyword hslots hnew =>
    obtain ⟨hs, houter⟩ := List.forall_mem_cons.1 h.types
    have hnames : Scope.typeNames { s with types := s.types ++ [(name, fields)] } =
        s.typeNames ++ [name] := by simp [Scope.typeNames]
    -- the new name is that of no variable
    have hall : ∀ scope ∈ s :: outer, ∀ other ∈ scope.slotNames,
        ∀ scope' ∈ { s with types := s.types ++ [(name, fields)] } :: outer,
          other ∉ scope'.typeNames := by
      intro scope hscope other hother
      obtain ⟨hfirst, hrest⟩ := List.forall_mem_cons.1 (h.apart scope hscope other hother)
      refine List.forall_mem_cons.2 ⟨?_, hrest⟩
      rw [hnames]
      intro hmem
      rcases List.mem_append.1 hmem with hmem | hmem
      · exact hfirst hmem
      · rw [List.mem_singleton.1 hmem] at hother
        exact hslots scope hscope hother
    constructor
    · exact List.forall_mem_cons.2 (List.forall_mem_cons.1 h.slots)
    · refine List.forall_mem_cons.2 ⟨?_, houter⟩
      rw [hnames]
      exact List.Nodup.append hs (List.nodup_singleton name) (by simpa using hnew)
    · exact List.forall_mem_cons.2 (List.forall_mem_cons.1 h.keyword)
    · exact List.forall_mem_cons.2 (List.forall_mem_cons.1 hall)

/-! ### Variables in their places -/

/-- The variable at a place: the scopes are counted from the outermost one on, and in a scope the
variables in the order of their declarations. -/
def slotAt : Scopes → Nat → Nat → Option Slot
  | [], _, _ => none
  | s :: outer, level, i => if level = outer.length then s.slots[i]? else slotAt outer level i

theorem slotAt_lt (h : t.slotAt level i = some v) : level < t.length := by
  induction t with
  | nil => simp [slotAt] at h
  | cons s outer ih =>
    rw [slotAt] at h
    split at h
    · rename_i hlevel
      rw [hlevel]
      exact Nat.lt_succ_self _
    · exact Nat.lt_succ_of_lt (ih h)

theorem exists_slotAt (hs : s ∈ t) (hv : v ∈ s.slots) : ∃ level i, t.slotAt level i = some v := by
  induction t with
  | nil => simp at hs
  | cons s₀ outer ih =>
    rcases List.mem_cons.1 hs with rfl | hs
    · obtain ⟨i, hi⟩ := List.mem_iff_getElem?.1 hv
      exact ⟨outer.length, i, by rw [slotAt, if_pos rfl, hi]⟩
    · obtain ⟨level, i, h⟩ := ih hs
      have hlevel := slotAt_lt h
      exact ⟨level, i, by rw [slotAt, if_neg (Nat.ne_of_lt hlevel), h]⟩

/-- The variables in an outer scope do not change with the innermost one. -/
theorem slotAt_cons_of_some (h : outer.slotAt level i = some v) (s : Scope) :
    slotAt (s :: outer) level i = some v := by
  have hlevel := slotAt_lt h
  rw [slotAt, if_neg (Nat.ne_of_lt hlevel), h]

/-- The place at the end of the innermost scope. -/
def NextPlace (t : Scopes) (level i : Nat) : Prop :=
  t.length = level + 1 ∧ t.top.slots.length = i

/-- After one operation, a variable was in its place before, or it has just been declared there. -/
theorem Operation.Performs.slotAt_cases {op : Operation} (hop : op.Performs t t')
    (h : t'.slotAt level i = some v) :
    t.slotAt level i = some v ∨
      ∃ line, op = .addVariable v.ty v.name line ∧ v.bound = false ∧
        t.zeroValue v.ty line = .ok v.value ∧ t.NextPlace level i := by
  cases hop with
  | push =>
    rw [slotAt] at h
    split at h
    · simp [Scope.empty] at h
    · exact .inl h
  | pop =>
    refine .inl ?_
    cases t with
    | nil => exact h
    | cons s outer => exact slotAt_cons_of_some h s
  | @addVariable s outer ty name line value hkeyword htypes hnew hvalue =>
    rw [slotAt] at h
    split at h
    · rename_i hlevel
      -- a variable that was there, or the new one
      rcases Nat.lt_or_ge i s.slots.length with hi | hi
      · rw [List.getElem?_append_left hi] at h
        exact .inl (by rw [slotAt, if_pos hlevel, h])
      · rw [List.getElem?_append_right hi, List.getElem?_singleton] at h
        split at h
        · rename_i hlast
          obtain rfl : _ = v := Option.some.inj h
          refine .inr ⟨line, rfl, rfl, hvalue, ?_, ?_⟩
          · rw [List.length_cons, hlevel]
          · rw [top, List.headD_cons]
            omega
        · cases h
    · rename_i hlevel
      exact .inl (by rw [slotAt, if_neg hlevel, h])
  | @addType s outer name fields line hkeyword hslots hnew =>
    refine .inl ?_
    rw [slotAt] at h ⊢
    exact h

/-- One of the operations has declared the variable at its place, at the value that its type then
started with; and since then the variable has stood there. -/
def AddedBy (ops : List Operation) (level i : Nat) (v : Slot) : Prop :=
  ∃ before line later, ops = before ++ .addVariable v.ty v.name line :: later ∧
    (after before).zeroValue v.ty line = .ok v.value ∧ (after before).NextPlace level i ∧
    ∀ between rest, later = between ++ rest →
      (after (before ++ .addVariable v.ty v.name line :: between)).slotAt level i = some v

/-- A variable that is still in its place was declared there. -/
theorem AddedBy.concat {ops : List Operation} {op : Operation} (h : AddedBy ops level i v)
    (hv : (after (ops ++ [op])).slotAt level i = some v) : AddedBy (ops ++ [op]) level i v := by
  obtain ⟨before, line, later, rfl, hvalue, hplace, hsince⟩ := h
  refine ⟨before, line, later ++ [op], by simp, hvalue, hplace, ?_⟩
  intro between rest hsplit
  rcases List.eq_nil_or_concat rest with rfl | ⟨rest, last, rfl⟩
  · rw [List.append_nil] at hsplit
    rw [← hsplit]
    simpa using hv
  · obtain ⟨hlater, -⟩ : later = between ++ rest ∧ [op] = [last] :=
      List.append_inj' (by simpa using hsplit) rfl
    exact hsince between rest hlater

/-- **Every variable has been declared in its place**, is not bound, and has kept its value. -/
theorem addedBy_of_slotAt (ops : List Operation) (h : (after ops).slotAt level i = some v) :
    v.bound = false ∧ AddedBy ops level i v := by
  induction ops using List.reverseRecOn generalizing v with
  | nil => simp [after, runAll, slotAt] at h
  | append_singleton ops op ih =>
    have hafter := after_concat ops op
    rcases op.run_cases (after ops) with ⟨t', hop, hrun⟩ | ⟨-, e, hrun⟩
    · have h' : t'.slotAt level i = some v := by rwa [hafter, hrun] at h
      rcases hop.slotAt_cases h' with hold | ⟨line, rfl, hbound, hvalue, hplace⟩
      · obtain ⟨hbound, hadded⟩ := ih hold
        exact ⟨hbound, hadded.concat h⟩
      · refine ⟨hbound, ops, line, [], rfl, hvalue, hplace, ?_⟩
        intro between rest hsplit
        obtain ⟨rfl, -⟩ := List.append_eq_nil_iff.1 hsplit.symm
        exact h
    · have hold : (after ops).slotAt level i = some v := by rwa [hafter, hrun] at h
      obtain ⟨hbound, hadded⟩ := ih hold
      exact ⟨hbound, hadded.concat h⟩

theorem wellFormed_after (ops : List Operation) : WellFormed (after ops) := by
  induction ops using List.reverseRecOn with
  | nil => exact .nil
  | append_singleton ops op ih =>
    rw [after_concat]
    rcases op.run_cases (after ops) with ⟨t', hop, hrun⟩ | ⟨-, e, hrun⟩
    · rw [hrun]
      exact hop.wellFormed ih
    · rw [hrun]
      exact ih

/-! ### Looking names up -/

/-- The scope that declares a name and in which no scope within it does. -/
def Innermost (names : Scope → List String) (name : String) (t : Scopes) (s : Scope) : Prop :=
  ∃ inner outer, t = inner ++ s :: outer ∧ ∀ s' ∈ inner, name ∉ names s'

theorem slot?_eq_some (h : WellFormed t) :
    t.slot? name = some v ↔ ∃ s, Innermost Scope.slotNames name t s ∧ v ∈ s.slots ∧
    v.name = name := by
  rw [slot?, List.findSome?_eq_some_iff]
  constructor
  · rintro ⟨inner, s, outer, rfl, hfound, hinner⟩
    refine ⟨s, ⟨inner, outer, rfl, fun s' hs' => Scope.slot?_eq_none.1 (hinner s' hs')⟩, ?_, ?_⟩
    · exact List.mem_of_find?_eq_some hfound
    · simpa using List.find?_some hfound
  · rintro ⟨s, ⟨inner, outer, rfl, hinner⟩, hv, rfl⟩
    refine ⟨inner, s, outer, rfl, ?_, fun s' hs' => Scope.slot?_eq_none.2 (hinner s' hs')⟩
    have hnodup := h.slots s (List.mem_append_right _ List.mem_cons_self)
    cases hfound : s.slot? v.name with
    | none => exact absurd (List.mem_map_of_mem hv) (Scope.slot?_eq_none.1 hfound)
    | some w =>
      have hw := List.mem_of_find?_eq_some hfound
      have hname : w.name = v.name := by simpa using List.find?_some hfound
      rw [List.inj_on_of_nodup_map hnodup hw hv hname]

theorem type?_eq_some (h : WellFormed t) {fields : Fields} :
    t.type? name = some fields ↔
      ∃ s, Innermost Scope.typeNames name t s ∧ (name, fields) ∈ s.types := by
  rw [type?, List.findSome?_eq_some_iff]
  constructor
  · rintro ⟨inner, s, outer, rfl, hfound, hinner⟩
    exact ⟨s, ⟨inner, outer, rfl, fun s' hs' => Scope.type?_eq_none.1 (hinner s' hs')⟩,
      Table.mem_of_lookup hfound⟩
  · rintro ⟨s, ⟨inner, outer, rfl, hinner⟩, hmem⟩
    refine ⟨inner, s, outer, rfl, ?_, fun s' hs' => Scope.type?_eq_none.2 (hinner s' hs')⟩
    exact Table.lookup_of_mem (h.types s (List.mem_append_right _ List.mem_cons_self)) hmem

/-! ### Opening and closing -/

/-- Operations that close every scope that they open, and no other. -/
inductive Balanced : List Operation → Prop
  | nil : Balanced []
  | addVariable {ty name line ops} : Balanced ops → Balanced (.addVariable ty name line :: ops)
  | addType {name fields line ops} : Balanced ops → Balanced (.addType name fields line :: ops)
  | scope {inside ops} : Balanced inside → Balanced ops →
      Balanced (.push :: (inside ++ .pop :: ops))

theorem Operation.exists_run_cons (op : Operation) (hpush : op ≠ .push) (hpop : op ≠ .pop)
    (s : Scope) (outer : Scopes) : ∃ s', (op.run (s :: outer)).2 = s' :: outer := by
  rcases op.run_cases (s :: outer) with ⟨t', hop, hrun⟩ | ⟨-, e, hrun⟩
  · rw [hrun]
    cases hop with
    | push => exact absurd rfl hpush
    | pop => exact absurd rfl hpop
    | addVariable => exact ⟨_, rfl⟩
    | addType => exact ⟨_, rfl⟩
  · rw [hrun]
    exact ⟨s, rfl⟩

/-- **Balanced operations change the innermost scope only.** -/
theorem Balanced.runAll_cons {ops : List Operation} (h : Balanced ops) (s : Scope)
    (outer : Scopes) :
    ∃ s', runAll ops (s :: outer) = s' :: outer := by
  induction h generalizing s outer with
  | nil => exact ⟨s, rfl⟩
  | @addVariable ty name line ops _ ih =>
    obtain ⟨s₁, hs₁⟩ := Operation.exists_run_cons (.addVariable ty name line) nofun nofun s outer
    obtain ⟨s₂, hs₂⟩ := ih s₁ outer
    exact ⟨s₂, by rw [runAll, hs₁, hs₂]⟩
  | @addType name fields line ops _ ih =>
    obtain ⟨s₁, hs₁⟩ := Operation.exists_run_cons (.addType name fields line) nofun nofun s outer
    obtain ⟨s₂, hs₂⟩ := ih s₁ outer
    exact ⟨s₂, by rw [runAll, hs₁, hs₂]⟩
  | @scope inside ops _ _ ihinside ihops =>
    obtain ⟨s₁, hs₁⟩ := ihinside Scope.empty (s :: outer)
    obtain ⟨s₂, hs₂⟩ := ihops s outer
    refine ⟨s₂, ?_⟩
    have hpush : runAll (.push :: (inside ++ .pop :: ops)) (s :: outer) =
        runAll (inside ++ .pop :: ops) (Scope.empty :: s :: outer) := rfl
    rw [hpush, runAll_append, hs₁]
    exact hs₂

theorem Balanced.runAll_scope {inside : List Operation} (h : Balanced inside) (t : Scopes) :
    runAll (.push :: (inside ++ [.pop])) t = t := by
  obtain ⟨s, hs⟩ := h.runAll_cons Scope.empty t
  have hpush : runAll (.push :: (inside ++ [.pop])) t =
      runAll (inside ++ [.pop]) (Scope.empty :: t) := rfl
  rw [hpush, runAll_append, hs]
  rfl

/-- **The table after any sequence of operations.** Variables and types are kept apart; every
variable, at whatever place, is not bound and has the value that its type started with when it was
declared there; names are looked up from the inside out; an operation is performed or changes
nothing; and closing a scope gives back the table from before it was opened, and with it what every
name stood for. -/
theorem after_invariant (ops : List Operation) :
    WellFormed (after ops) ∧
      (∀ s ∈ after ops, ∀ v ∈ s.slots, ∃ level i, (after ops).slotAt level i = some v) ∧
      (∀ level i v, (after ops).slotAt level i = some v → v.bound = false ∧ AddedBy ops level i v) ∧
      (∀ name v, (after ops).slot? name = some v ↔
        ∃ s, Innermost Scope.slotNames name (after ops) s ∧ v ∈ s.slots ∧ v.name = name) ∧
      (∀ name fields, (after ops).type? name = some fields ↔
        ∃ s, Innermost Scope.typeNames name (after ops) s ∧ (name, fields) ∈ s.types) ∧
      (∀ op : Operation, (∃ t', op.Performs (after ops) t' ∧ op.run (after ops) = (.ok (), t')) ∨
        (¬∃ t', op.Performs (after ops) t') ∧ ∃ e, op.run (after ops) = (.error e, after ops)) ∧
      ∀ inside, Balanced inside → after (ops ++ .push :: (inside ++ [.pop])) = after ops := by
  have hformed := wellFormed_after ops
  refine ⟨hformed, fun s hs v => exists_slotAt hs, fun level i v => addedBy_of_slotAt ops,
    fun name v => slot?_eq_some hformed, fun name fields => type?_eq_some hformed,
    fun op => op.run_cases (after ops), ?_⟩
  intro inside hinside
  rw [after, runAll_append, hinside.runAll_scope]
  rfl

/-- A variable before any scope, a record type and a variable of it, both hidden in an inner scope,
and a variable with the name of the type. -/
def shadowing : List Operation :=
  [.addVariable .int "x" 1, .push, .addType "P" [("a", .int)] 2, .addVariable (.record "P") "p" 3,
    .push, .addType "P" [("b", .string)] 4, .addVariable .string "p" 5, .addVariable .int "P" 6]

theorem after_invariant_shadowing :
    (after shadowing).slotAt 0 0 = some ⟨"p", .record "P", .record [("a", .int 0)], false⟩ ∧
      AddedBy shadowing 0 0 ⟨"p", .record "P", .record [("a", .int 0)], false⟩ ∧
      (after shadowing).type? "P" = some [("b", .string)] ∧
      Balanced [.addVariable .bool "q" 7] ∧
      after (shadowing ++ .push :: ([.addVariable .bool "q" 7] ++ [.pop])) = after shadowing := by
  obtain ⟨-, -, hslots, -, -, -, hscope⟩ := after_invariant shadowing
  have hp : (after shadowing).slotAt 0 0 = some ⟨"p", .record "P", .record [("a", .int 0)],
    false⟩ := by
    rfl
  have hinside : Balanced [.addVariable .bool "q" 7] := .addVariable .nil
  exact ⟨hp, (hslots 0 0 _ hp).2, by rfl, hinside, hscope _ hinside⟩

end Scopes

end BindScript
