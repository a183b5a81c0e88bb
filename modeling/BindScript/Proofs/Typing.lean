/-
**Typed trees.**

The rules that every accepted tree obeys, stated against the scopes that are open where a part of
the tree stands.  Expressions and places only look at the scopes; a statement takes the scopes
before it to those after it, since a declaration adds a variable.  The declaration of a record type
leaves no statement behind, so between two statements the rules allow any number of them.

The rules have one parameter, `fresh`.  If it holds, a record type is declared only under a name
that no record type in sight has.

Main results:

* `Scopes.addVariable_eq_ok`, `Scopes.addType_eq_ok` — what a declaration does;
* `Expr.Typed.congr` — an expression looks at the scopes by name only;
* `TypedAll.split` — the scopes in the middle of a block;
* `Block.Typed.insert` — an empty scope may be put anywhere below the innermost one.
-/

import BindScript.Proofs.Table
import BindScript.Scope
import Mathlib.Data.List.Forall2
import Mathlib.Data.List.Nodup

namespace BindScript

/-! ### Declarations -/

variable {ty : Ty} {fields : Fields} {Δ above below : Scopes} {s : Scope} {ss : List Stmt}

namespace Scopes

variable {Γ Γ' : Scopes} {name : String} {line : Nat}

/-- A declared variable is the last of the innermost scope, at its zero value and not bound; its
name is new in that scope. -/
theorem addVariable_eq_ok (h : Γ.addVariable ty name line = (.ok (), Γ')) :
    ∃ s outer value, Γ = s :: outer ∧ s.slot? name = none ∧ Γ.type? name = none ∧
      Γ.zeroValue ty line = .ok value ∧
      Γ' = { s with slots := s.slots ++ [⟨name, ty, value, false⟩] } :: outer := by
  unfold addVariable at h
  split at h
  · cases h
  · rename_i htype
    split at h
    · cases h
    · rename_i hhere
      split at h
      · cases h
      · rename_i value hvalue
        cases Γ with
        | nil => cases h
        | cons s outer =>
          have hnew : s.slot? name = none := by simpa [declaredHere, top] using hhere
          have hty : Scopes.type? (s :: outer) name = none := by
            simp only [isTypeName, Bool.or_eq_true, not_or] at htype
            simpa using htype.2
          refine ⟨s, outer, value, rfl, hnew, hty, hvalue, ?_⟩
          simpa using h.symm

/-- A declared record type is the last of the innermost scope; its name is new among the types of
that scope, and no variable has it. -/
theorem addType_eq_ok (h : Γ.addType name fields line = (.ok (), Γ')) :
    ∃ s outer, Γ = s :: outer ∧ s.type? name = none ∧ Γ.slot? name = none ∧
      Γ' = { s with types := s.types ++ [(name, fields)] } :: outer := by
  unfold addType at h
  split at h
  · cases h
  · rename_i hname
    cases Γ with
    | nil => cases h
    | cons s outer =>
      simp only at h
      split at h
      · cases h
      · rename_i hnew
        simp only [Bool.or_eq_true, not_or] at hname
        refine ⟨s, outer, rfl, by simpa using hnew, by simpa using hname.2, ?_⟩
        simpa using h.symm

/-- The zero value of a type is that of the primitive type, or the zero record of the innermost
record type of the name. -/
theorem zeroValue_eq_ok {value : Value} (h : Γ.zeroValue ty line = .ok value) :
    (∃ record fields, ty = .record record ∧ Γ.type? record = some fields ∧
        value = Value.zeroRecord fields) ∨
      ((∀ record, ty ≠ .record record) ∧ value = Value.zero ty) := by
  cases ty with
  | record record =>
    simp only [zeroValue] at h
    split at h
    · rename_i fields hfields
      exact .inl ⟨record, fields, rfl, hfields, by simpa using h.symm⟩
    · cases h
  | _ => exact .inr ⟨by simp, by simpa [zeroValue] using h.symm⟩

end Scopes

/-! ### Expressions -/

/-- A name as a source text can spell it: there is something, and neither a point nor an equals
sign. -/
structure IsName (name : String) : Prop where
  nonempty : name ≠ ""
  noPoint : '.' ∉ name.toList
  noEquals : '=' ∉ name.toList

/-- A place is well typed: its variable is in sight, and a path leads to a leaf of the record type
that is in sight under the name of the variable's type. -/
def Place.Typed (Γ : Scopes) (p : Place) : Prop :=
  IsName p.name ∧ ∃ slot, Γ.slot? p.name = some slot ∧
    match p.path with
    | none => p.ty = slot.ty
    | some path => ∃ record fields, slot.ty = .record record ∧ Γ.type? record = some fields ∧
        fields.lookup path = some p.ty

/-- Whether a value can be written as a literal. -/
def Value.isLiteral : Value → Bool
  | .void | .record _ => false
  | .float x => !x.isNaN
  | _ => true

theorem Builtin.ofName?_name (f : Builtin) : Builtin.ofName? f.name = some f := by
  cases f <;> decide

/-- The arguments of a call fit the parameters of the function. All arguments are there, except that
`Concat` may go without the last ones; a function that updates its argument has a place there. -/
structure Builtin.Accepts (f : Builtin) (args : List Expr) : Prop where
  types : List.Forall₂ (fun arg p => arg.ty = p.ty) args (f.signature.params.take args.length)
  enough : f.signature.required ≤ args.length
  all : f ≠ .concat → args.length = f.signature.params.length
  reference : f.takesReference = true → ∃ p, args = [.load p]

theorem Builtin.Accepts.length_le {f : Builtin} {args : List Expr} (h : f.Accepts args) :
    args.length ≤ f.signature.params.length := by
  have htypes := h.types.length_eq
  rw [List.length_take] at htypes
  omega

/-- An expression is well typed in the given scopes. -/
inductive Expr.Typed (Γ : Scopes) : Expr → Prop
  | literal {line v} : v.isLiteral = true → Expr.Typed Γ (.literal line v)
  | load {p} : p.Typed Γ → Expr.Typed Γ (.load p)
  | host {line name} : Expr.Typed Γ (.host line name)
  | negate {line logical e} :
      Expr.Typed Γ e → (if logical then e.ty = .bool else e.ty.isNumeric = true) →
      Expr.Typed Γ (.negate line logical e)
  | binary {line op left right} :
      Expr.Typed Γ left → Expr.Typed Γ right → op.infer left.ty right.ty ≠ .void →
      Expr.Typed Γ (.binary line op (op.infer left.ty right.ty) left right)
  | select {line condition yes no} :
      Expr.Typed Γ condition → condition.ty = .bool → Expr.Typed Γ yes → Expr.Typed Γ no →
      no.ty = yes.ty → yes.ty ≠ .void →
      Expr.Typed Γ (.select line yes.ty condition yes no)
  | call {line f args} :
      (∀ arg ∈ args, Expr.Typed Γ arg) → f.Accepts args →
      Expr.Typed Γ (.call line f f.signature.ret args)

/-- A place looks at the scopes by name only. -/
theorem Place.Typed.congr {Γ : Scopes} (hslot : ∀ n, Γ.slot? n = Δ.slot? n)
    (htype : ∀ n, Γ.type? n = Δ.type? n) {p : Place} (h : p.Typed Γ) : p.Typed Δ := by
  obtain ⟨hname, slot, hs, hp⟩ := h
  refine ⟨hname, slot, by rw [← hslot]; exact hs, ?_⟩
  cases hpath : p.path with
  | none => simpa [hpath] using hp
  | some path =>
    simp only [hpath] at hp
    obtain ⟨record, fields, hty, hfields, hlookup⟩ := hp
    exact ⟨record, fields, hty, by rw [← htype]; exact hfields, hlookup⟩

/-- An expression looks at the scopes by name only. -/
theorem Expr.Typed.congr {Γ Δ : Scopes} (hslot : ∀ n, Γ.slot? n = Δ.slot? n)
    (htype : ∀ n, Γ.type? n = Δ.type? n) {e : Expr} (h : e.Typed Γ) : e.Typed Δ := by
  induction h with
  | literal hv => exact .literal hv
  | load hp => exact .load (hp.congr hslot htype)
  | host => exact .host
  | negate _ hty ih => exact .negate ih hty
  | binary _ _ hty ihl ihr => exact .binary ihl ihr hty
  | select _ hc _ _ heq hne ihc ihy ihn => exact .select ihc hc ihy ihn heq hne
  | call _ haccepts ih => exact .call ih haccepts

/-! ### Statements -/

/-- The types of the leaves of records: the primitive types that have values. -/
def Ty.isLeaf : Ty → Bool
  | .int | .float | .string | .bool => true
  | _ => false

theorem Ty.ne_record (h : ty.isLeaf = true) (record : String) : ty ≠ .record record := by
  rintro rfl
  simp [Ty.isLeaf] at h

/-- A layout is flat: its leaves are primitive, and no two have one path. -/
structure Fields.Flat (fields : Fields) : Prop where
  leaf : ∀ field ∈ fields, Ty.isLeaf field.2 = true
  distinct : (fields.map Prod.fst).Nodup

/-- All record types have flat layouts. -/
def Scopes.LeafTyped (Γ : Scopes) : Prop := ∀ s ∈ Γ, ∀ entry ∈ s.types, Fields.Flat entry.2

theorem Scopes.LeafTyped.flat {Γ : Scopes} (h : Γ.LeafTyped) {name : String}
    (hfields : Γ.type? name = some fields) : Fields.Flat fields := by
  obtain ⟨s, hs, hlookup⟩ := List.exists_of_findSome?_eq_some hfields
  exact h s hs (name, fields) (Table.mem_of_lookup hlookup)

theorem Scopes.LeafTyped.of_type? {Γ : Scopes} (h : Γ.LeafTyped) {name : String}
    (hfields : Γ.type? name = some fields) : ∀ field ∈ fields, Ty.isLeaf field.2 = true :=
  (h.flat hfields).leaf

mutual

/-- A statement is well typed in the first scopes, and the second ones are open after it. -/
inductive Stmt.Typed (fresh : Prop) : Scopes → Stmt → Scopes → Prop
  | branch {Γ line condition yes} :
      condition.Typed Γ → condition.ty = .bool → Block.Typed fresh Γ yes →
      Stmt.Typed fresh Γ (.branch line condition yes none) Γ
  | branchElse {Γ line condition yes no} :
      condition.Typed Γ → condition.ty = .bool → Block.Typed fresh Γ yes → Block.Typed fresh Γ no →
      Stmt.Typed fresh Γ (.branch line condition yes (some no)) Γ
  | loop {Γ line condition body} :
      condition.Typed Γ → condition.ty = .bool → Block.Typed fresh Γ body →
      Stmt.Typed fresh Γ (.loop line condition body) Γ
  | block {Γ line body} :
      Block.Typed fresh Γ body → Stmt.Typed fresh Γ (.block line body) Γ
  | declare {Γ Γ' line name ty nameLine} :
      Γ.addVariable ty name nameLine = (.ok (), Γ') →
      Stmt.Typed fresh Γ (.declare line name ty none) Γ'
  | declareInit {Γ Γ' line name ty nameLine init} :
      init.Typed Γ → init.ty = ty → ty.isLeaf = true →
      Γ.addVariable ty name nameLine = (.ok (), Γ') →
      Stmt.Typed fresh Γ (.declare line name ty (some init)) Γ'
  | assign {Γ line target value} :
      target.Typed Γ → value.Typed Γ → value.ty = target.ty → target.ty ≠ .void →
      Stmt.Typed fresh Γ (.assign line target value) Γ
  | perform {Γ line f ty args} :
      Expr.Typed Γ (.call line f ty args) → Stmt.Typed fresh Γ (.perform (.call line f ty args)) Γ

/-- A block is well typed in the scopes around it. -/
inductive Block.Typed (fresh : Prop) : Scopes → Block → Prop
  | mk {Γ slots types statements} :
      TypedAll fresh (Scope.empty :: Γ) statements (⟨slots, types⟩ :: Γ) →
      Block.Typed fresh Γ (.mk slots types statements)

/-- Statements are well typed one after the other, with declarations of record types before, between
and after them. -/
inductive TypedAll (fresh : Prop) : Scopes → List Stmt → Scopes → Prop
  | nil {Γ} : TypedAll fresh Γ [] Γ
  | cons {Γ Γ' Γ'' s ss} :
      Stmt.Typed fresh Γ s Γ' → TypedAll fresh Γ' ss Γ'' → TypedAll fresh Γ (s :: ss) Γ''
  | record {Γ Γ' Γ'' name fields line ss} :
      Fields.Flat fields → (fresh → Γ.type? name = none) →
      Γ.addType name fields line = (.ok (), Γ') → TypedAll fresh Γ' ss Γ'' → TypedAll fresh Γ ss Γ''

end

/-- Induction on the statements of a block, which does not look into the blocks inside them. -/
@[elab_as_elim]
theorem TypedAll.induct {fresh : Prop}
    {motive : ∀ (Γ : Scopes) (ss : List Stmt) (Γ' : Scopes), TypedAll fresh Γ ss Γ' → Prop}
    (nil : ∀ {Γ}, motive Γ [] Γ .nil)
    (cons : ∀ {Γ Γ' Γ'' s ss} (hs : Stmt.Typed fresh Γ s Γ') (hss : TypedAll fresh Γ' ss Γ''),
      motive Γ' ss Γ'' hss → motive Γ (s :: ss) Γ'' (.cons hs hss))
    (record : ∀ {Γ Γ' Γ'' name fields line ss}
      (hleaf : Fields.Flat fields) (hfresh : fresh → Scopes.type? Γ name = none)
      (hadd : Scopes.addType Γ name fields line = (.ok (), Γ')) (hss : TypedAll fresh Γ' ss Γ''),
      motive Γ' ss Γ'' hss → motive Γ ss Γ'' (.record hleaf hfresh hadd hss)) :
    ∀ {Γ ss Γ'} (h : TypedAll fresh Γ ss Γ'), motive Γ ss Γ' h
  | _, _, _, .nil => nil
  | _, _, _, .cons hs hss => cons hs hss (hss.induct nil cons record)
  | _, _, _, .record hleaf hfresh hadd hss =>
    record hleaf hfresh hadd hss (hss.induct nil cons record)

/-! ### The innermost scope grows -/

/-- The scopes with more variables and record types in the innermost one. -/
def Scopes.extend (Γ : Scopes) (slots : List Slot) (types : Table Fields) : Scopes :=
  match Γ with
  | [] => []
  | s :: outer => ⟨s.slots ++ slots, s.types ++ types⟩ :: outer

theorem Scopes.extend_nil (Γ : Scopes) : Γ.extend [] [] = Γ := by
  cases Γ <;> simp [Scopes.extend]

theorem Scopes.extend_extend (Γ : Scopes) (slots slots' : List Slot) (types types' : Table Fields) :
    (Γ.extend slots types).extend slots' types' = Γ.extend (slots ++ slots') (types ++ types') := by
  cases Γ <;> simp [Scopes.extend]

/-- A declaration extends the scopes by one variable, which is not bound. -/
theorem Scopes.addVariable_extend {Γ Γ' : Scopes} {name : String} {line : Nat}
    (h : Γ.addVariable ty name line = (.ok (), Γ')) :
    ∃ slot, Γ' = Γ.extend [slot] [] ∧ slot.bound = false ∧ slot.name = name := by
  obtain ⟨s, outer, value, rfl, -, -, -, rfl⟩ := Scopes.addVariable_eq_ok h
  exact ⟨⟨name, ty, value, false⟩, by simp [Scopes.extend], rfl, rfl⟩

/-- The names that a statement adds to the innermost scope. -/
def Stmt.declares : Stmt → List String
  | .declare _ name _ _ => [name]
  | _ => []

variable {fresh : Prop} {Γ Γ' : Scopes}

/-- A statement adds the variables that it declares, which are not bound. -/
theorem Stmt.Typed.extends {s : Stmt} (h : Stmt.Typed fresh Γ s Γ') :
    ∃ slots, Γ' = Γ.extend slots [] ∧ (∀ slot ∈ slots, slot.bound = false) ∧
      slots.map (·.name) = s.declares := by
  cases h with
  | declare hadd | declareInit _ _ _ hadd =>
    obtain ⟨slot, rfl, hb, rfl⟩ := Scopes.addVariable_extend hadd
    exact ⟨[slot], rfl, by simp [hb], rfl⟩
  | _ => exact ⟨[], by rw [Scopes.extend_nil], by simp, rfl⟩

/-- Statements add record types and the variables that they declare, which are not bound. -/
theorem TypedAll.extends {ss : List Stmt} (h : TypedAll fresh Γ ss Γ') :
    ∃ slots types, Γ' = Γ.extend slots types ∧ (∀ slot ∈ slots, slot.bound = false) ∧
      slots.map (·.name) = ss.flatMap Stmt.declares := by
  induction h using TypedAll.induct with
  | nil => exact ⟨[], [], by rw [Scopes.extend_nil], by simp, rfl⟩
  | cons hs _ ih =>
    obtain ⟨slots, rfl, hb, hnames⟩ := hs.extends
    obtain ⟨slots', types, rfl, hb', hnames'⟩ := ih
    refine ⟨slots ++ slots', types, by rw [Scopes.extend_extend, List.nil_append], ?_, ?_⟩
    · intro slot hslot
      rcases List.mem_append.1 hslot with hslot | hslot
      · exact hb slot hslot
      · exact hb' slot hslot
    · rw [List.map_append, List.flatMap_cons, hnames, hnames']
  | @record _ _ _ name fields _ _ _ _ hadd _ ih =>
    obtain ⟨s, outer, rfl, -, -, rfl⟩ := Scopes.addType_eq_ok hadd
    obtain ⟨slots, types, rfl, hb, hnames⟩ := ih
    exact ⟨slots, (name, fields) :: types, by simp [Scopes.extend], hb, hnames⟩

/-- The variables of a scope have different names. -/
def Scope.Distinct (s : Scope) : Prop := (s.slots.map (·.name)).Nodup

theorem Scope.not_mem_names {name : String} (h : s.slot? name = none) :
    name ∉ s.slots.map (·.name) := by
  intro hmem
  obtain ⟨slot, hslot, rfl⟩ := List.mem_map.1 hmem
  have := List.find?_eq_none.1 h slot hslot
  simp at this

/-- A declaration keeps the names of the innermost scope different. -/
theorem Scopes.addVariable_distinct {name : String} {line : Nat}
    (h : Γ.addVariable ty name line = (.ok (), Γ')) (hd : Γ.top.Distinct) : Γ'.top.Distinct := by
  obtain ⟨s, outer, value, rfl, hnew, -, -, rfl⟩ := Scopes.addVariable_eq_ok h
  have hname := Scope.not_mem_names hnew
  simp only [Scopes.top, Scope.Distinct, List.headD_cons, List.map_append, List.map_cons,
    List.map_nil] at hd ⊢
  exact List.Nodup.append hd (List.nodup_singleton _) (by simpa using hname)

/-- Statements keep the names of the innermost scope different. -/
theorem TypedAll.distinct (h : TypedAll fresh Γ ss Γ') (hd : Γ.top.Distinct) : Γ'.top.Distinct := by
  induction h using TypedAll.induct with
  | nil => exact hd
  | cons hs _ ih =>
    refine ih ?_
    cases hs with
    | declare h => exact Scopes.addVariable_distinct h hd
    | declareInit _ _ _ h => exact Scopes.addVariable_distinct h hd
    | _ => exact hd
  | record _ _ h _ ih =>
    refine ih ?_
    obtain ⟨s, outer, rfl, -, -, rfl⟩ := Scopes.addType_eq_ok h
    exact hd

theorem TypedAll.append {Γ'' : Scopes} {ss' : List Stmt} (h : TypedAll fresh Γ ss Γ')
    (h' : TypedAll fresh Γ' ss' Γ'') : TypedAll fresh Γ (ss ++ ss') Γ'' := by
  induction h using TypedAll.induct with
  | nil => exact h'
  | cons hs _ ih => exact .cons hs (ih h')
  | record hleaf hfresh hadd _ ih => exact .record hleaf hfresh hadd (ih h')

theorem TypedAll.split {ss' : List Stmt} (h : TypedAll fresh Γ (ss ++ ss') Γ') :
    ∃ Δ, TypedAll fresh Γ ss Δ ∧ TypedAll fresh Δ ss' Γ' := by
  generalize hall : ss ++ ss' = all at h
  induction h using TypedAll.induct generalizing ss with
  | nil =>
    obtain ⟨rfl, rfl⟩ := List.append_eq_nil_iff.1 hall
    exact ⟨_, .nil, .nil⟩
  | @cons _ _ _ s rest hs hss ih =>
    cases ss with
    | nil =>
      rw [List.nil_append] at hall
      subst hall
      exact ⟨_, .nil, .cons hs hss⟩
    | cons s' ss =>
      obtain ⟨rfl, htail⟩ : s' = s ∧ ss ++ ss' = rest := by simpa using hall
      obtain ⟨Δ, h₁, h₂⟩ := ih htail
      exact ⟨Δ, .cons hs h₁, h₂⟩
  | record hleaf hfresh hadd _ ih =>
    obtain ⟨Δ, h₁, h₂⟩ := ih hall
    exact ⟨Δ, .record hleaf hfresh hadd h₁, h₂⟩

/-! ### An empty scope -/

@[simp] theorem Scope.slot?_empty (name : String) : Scope.empty.slot? name = none := rfl

@[simp] theorem Scope.type?_empty (name : String) : Scope.empty.type? name = none := rfl

theorem Scopes.slot?_insert (above below : Scopes) (name : String) :
    Scopes.slot? (above ++ Scope.empty :: below) name = Scopes.slot? (above ++ below) name := by
  simp [Scopes.slot?, List.findSome?_append, List.findSome?_cons]

theorem Scopes.type?_insert (above below : Scopes) (name : String) :
    Scopes.type? (above ++ Scope.empty :: below) name = Scopes.type? (above ++ below) name := by
  simp [Scopes.type?, List.findSome?_append, List.findSome?_cons]

theorem Expr.Typed.insert {Γ : Scopes} {e : Expr} (h : e.Typed Γ) (hΓ : Γ = above ++ below) :
    e.Typed (above ++ Scope.empty :: below) := by
  subst hΓ
  exact h.congr (fun n => (Scopes.slot?_insert above below n).symm)
    (fun n => (Scopes.type?_insert above below n).symm)

theorem Place.Typed.insert {Γ : Scopes} {p : Place} (h : p.Typed Γ) (hΓ : Γ = above ++ below) :
    p.Typed (above ++ Scope.empty :: below) := by
  subst hΓ
  exact h.congr (fun n => (Scopes.slot?_insert above below n).symm)
    (fun n => (Scopes.type?_insert above below n).symm)

theorem Scopes.zeroValue_insert (above below : Scopes) (ty : Ty) (line : Nat) :
    Scopes.zeroValue (above ++ Scope.empty :: below) ty line =
      Scopes.zeroValue (above ++ below) ty line := by
  cases ty <;> simp [Scopes.zeroValue, Scopes.type?_insert]

/-- A declaration does not see an empty scope below the innermost one. -/
theorem Scopes.addVariable_insert {name : String} {line : Nat}
    (h : Scopes.addVariable (s :: (above ++ below)) ty name line = (.ok (), Δ)) :
    ∃ s', Δ = s' :: (above ++ below) ∧
      Scopes.addVariable (s :: (above ++ Scope.empty :: below)) ty name line =
        (.ok (), s' :: (above ++ Scope.empty :: below)) := by
  have htype : ∀ n, Scopes.isTypeName (s :: (above ++ Scope.empty :: below)) n =
      Scopes.isTypeName (s :: (above ++ below)) n := by
    intro n
    simp only [Scopes.isTypeName]
    rw [← List.cons_append, Scopes.type?_insert, List.cons_append]
  have hzero : Scopes.zeroValue (s :: (above ++ Scope.empty :: below)) ty line =
      Scopes.zeroValue (s :: (above ++ below)) ty line := by
    rw [← List.cons_append, Scopes.zeroValue_insert, List.cons_append]
  obtain ⟨s₀, outer, value, heq, hnew, hty, hvalue, rfl⟩ := Scopes.addVariable_eq_ok h
  cases heq
  refine ⟨_, rfl, ?_⟩
  have hname : ¬Scopes.isTypeName (s :: (above ++ below)) name = true := by
    intro htn
    simp [Scopes.addVariable, htn] at h
  simp [Scopes.addVariable, htype, hname, Scopes.declaredHere, Scopes.top, hnew, hzero, hvalue]

theorem Scopes.addType_insert {name : String} {line : Nat}
    (h : Scopes.addType (s :: (above ++ below)) name fields line = (.ok (), Δ)) :
    ∃ s', Δ = s' :: (above ++ below) ∧
      Scopes.addType (s :: (above ++ Scope.empty :: below)) name fields line =
        (.ok (), s' :: (above ++ Scope.empty :: below)) := by
  have hslot : Scopes.slot? (s :: (above ++ Scope.empty :: below)) name =
      Scopes.slot? (s :: (above ++ below)) name := by
    rw [← List.cons_append, Scopes.slot?_insert, List.cons_append]
  obtain ⟨s₀, outer, heq, hnew, hvar, rfl⟩ := Scopes.addType_eq_ok h
  cases heq
  refine ⟨_, rfl, ?_⟩
  have hname : Ty.ofKeyword? name = none := by
    by_contra hk
    have : (Ty.ofKeyword? name).isSome = true := Option.isSome_iff_ne_none.2 hk
    simp [Scopes.addType, this] at h
  simp [Scopes.addType, hname, hslot, hvar, hnew]

mutual

/-- A statement does not see an empty scope below the innermost one. -/
theorem Stmt.Typed.insert {Γ Δ : Scopes} {st : Stmt} (h : Stmt.Typed fresh Γ st Δ) :
    ∀ {s : Scope} {above below : Scopes}, Γ = s :: (above ++ below) →
      ∃ s', Δ = s' :: (above ++ below) ∧
        Stmt.Typed fresh (s :: (above ++ Scope.empty :: below)) st
          (s' :: (above ++ Scope.empty :: below)) := by
  intro s above below hΓ
  have hcons : Γ = (s :: above) ++ below := hΓ
  match h with
  | .branch hc hty hyes =>
    exact ⟨s, hΓ, .branch (hc.insert hcons) hty (hyes.insert hcons)⟩
  | .branchElse hc hty hyes hno =>
    exact ⟨s, hΓ, .branchElse (hc.insert hcons) hty (hyes.insert hcons) (hno.insert hcons)⟩
  | .loop hc hty hbody =>
    exact ⟨s, hΓ, .loop (hc.insert hcons) hty (hbody.insert hcons)⟩
  | .block hbody => exact ⟨s, hΓ, .block (hbody.insert hcons)⟩
  | .declare hadd =>
    rw [hΓ] at hadd
    obtain ⟨s', hΔ, hadd'⟩ := Scopes.addVariable_insert hadd
    exact ⟨s', hΔ, .declare hadd'⟩
  | .declareInit hinit hty hleaf hadd =>
    rw [hΓ] at hadd
    obtain ⟨s', hΔ, hadd'⟩ := Scopes.addVariable_insert hadd
    exact ⟨s', hΔ, .declareInit (hinit.insert hcons) hty hleaf hadd'⟩
  | .assign htarget hvalue hty hne =>
    exact ⟨s, hΓ, .assign (htarget.insert hcons) (hvalue.insert hcons) hty hne⟩
  | .perform hcall => exact ⟨s, hΓ, .perform (hcall.insert hcons)⟩

/-- A block does not see an empty scope around it. -/
theorem Block.Typed.insert {Γ : Scopes} {b : Block} (h : Block.Typed fresh Γ b) :
    ∀ {above below : Scopes}, Γ = above ++ below →
      Block.Typed fresh (above ++ Scope.empty :: below) b := by
  intro above below hΓ
  match h with
  | .mk hss =>
    obtain ⟨s', hΔ, hss'⟩ := hss.insert (congrArg (Scope.empty :: ·) hΓ)
    obtain rfl : _ = s' := (List.cons.inj hΔ).1
    exact .mk hss'

/-- Statements do not see an empty scope below the innermost one. -/
theorem TypedAll.insert {Γ Δ : Scopes} {ss : List Stmt} (h : TypedAll fresh Γ ss Δ) :
    ∀ {s : Scope} {above below : Scopes}, Γ = s :: (above ++ below) →
      ∃ s', Δ = s' :: (above ++ below) ∧
        TypedAll fresh (s :: (above ++ Scope.empty :: below)) ss
          (s' :: (above ++ Scope.empty :: below)) := by
  intro s above below hΓ
  match h with
  | .nil => exact ⟨s, hΓ, .nil⟩
  | .cons hs hss =>
    obtain ⟨s₁, hΔ, hs'⟩ := hs.insert hΓ
    obtain ⟨s₂, hΔ', hss'⟩ := hss.insert hΔ
    exact ⟨s₂, hΔ', .cons hs' hss'⟩
  | .record hleaf hfresh hadd hss =>
    rw [hΓ] at hadd
    obtain ⟨s₁, hΔ, hadd'⟩ := Scopes.addType_insert hadd
    obtain ⟨s₂, hΔ', hss'⟩ := hss.insert hΔ
    refine ⟨s₂, hΔ', .record hleaf ?_ hadd' hss'⟩
    intro hf
    have hn := hfresh hf
    rw [hΓ] at hn
    rw [← List.cons_append, Scopes.type?_insert]
    exact hn

end

theorem Stmt.Typed.insert_branch {line : Nat} {condition : Expr} {yes : Block} {no : Option Block}
    (h : Stmt.Typed fresh Γ (.branch line condition yes no) Δ) :
    Stmt.Typed fresh (Scope.empty :: Γ) (.branch line condition yes no) (Scope.empty :: Γ) := by
  have hΓ : Γ = [] ++ Γ := rfl
  cases h with
  | branch hc hty hyes => exact .branch (hc.insert hΓ) hty (hyes.insert hΓ)
  | branchElse hc hty hyes hno =>
    exact .branchElse (hc.insert hΓ) hty (hyes.insert hΓ) (hno.insert hΓ)

end BindScript
