/-
**Fields of records.**

A variable of a record type knows its type by name, and a use of one of its fields looks the name up
where the use stands.  The record type that is found there need not be the one that the variable was
declared with: an inner block may declare another one under the same name.  So a program can be
accepted although it uses a field that its variable does not have (`accepted_field_missing`).

If no record type is declared while another one of the same name is in sight, this cannot happen:
every field that is used is a leaf of the value that its variable starts as, with the type of that
leaf, and a record is only assigned to variables with the same leaves.

Main results:

* `fields_resolve` — **fields and records of accepted programs**.
-/

import BindScript.Proofs.Soundness.Scopes
import BindScript.Proofs.Soundness.Values

namespace BindScript

/-- The places from one of which an expression takes a record: nothing but variables and choices
between them can have a record as their value. -/
def Expr.sources : Expr → List Place
  | .load p => [p]
  | .select _ _ _ yes no => yes.sources ++ no.sources
  | _ => []

theorem Expr.eq_load {e : Expr} {p : Place} (h : e.place? = some p) : e = .load p := by
  cases e <;> simp_all [Expr.place?]

/-! ### Leaves -/

/-- A value has a leaf of a type at a path. -/
def Value.HasLeaf (v : Value) (path : String) (ty : Ty) : Prop :=
  ∃ leaf, v.leaf? (some path) = some leaf ∧ leaf.ty = ty

variable {fields : Fields} {record : String}

/-- A zero record has the leaves of its record type. -/
theorem Value.hasLeaf_zeroRecord (hleaves : ∀ field ∈ fields, Ty.isLeaf field.2 = true)
    (path : String) (ty : Ty) :
    (Value.zeroRecord fields).HasLeaf path ty ↔ fields.lookup path = some ty := by
  have hlookup : (Value.zeroRecord fields).leaf? (some path) =
      (fields.lookup path).map Value.zero :=
    Table.lookup_map Value.zero fields
  unfold Value.HasLeaf
  rw [hlookup]
  constructor
  · rintro ⟨leaf, hleaf, rfl⟩
    obtain ⟨ty, hty, rfl⟩ := Option.map_eq_some_iff.1 hleaf
    have := Ty.ne_record (hleaves _ (Table.mem_of_lookup hty))
    rw [hty, Value.ty_zero this]
  · intro hty
    have := Ty.ne_record (hleaves _ (Table.mem_of_lookup hty))
    exact ⟨Value.zero ty, by rw [hty, Option.map_some], Value.ty_zero this⟩

/-! ### Record types in scopes -/

/-- One of the scopes has the record type under the name. -/
def Scopes.Lists (Γ : Scopes) (record : String) (fields : Fields) : Prop :=
  ∃ s ∈ Γ, s.types.lookup record = some fields

theorem Scopes.LeafTyped.of_lists {Γ : Scopes} (h : Γ.LeafTyped) (hlists : Γ.Lists record fields) :
    ∀ field ∈ fields, Ty.isLeaf field.2 = true := by
  obtain ⟨s, hs, hlookup⟩ := hlists
  exact (h s hs (record, fields) (Table.mem_of_lookup hlookup)).leaf

/-- Scopes never lose a record type, whether it is in sight or not. -/
theorem Scopes.lasting_lists (fresh : Prop) : Scopes.Lasting fresh Scopes.Lists where
  found hfields := List.exists_of_findSome?_eq_some hfields
  push := by
    rintro Γ slots record fields ⟨s, hs, hlookup⟩
    exact ⟨s, List.mem_cons_of_mem _ hs, hlookup⟩
  extend := by
    rintro (_ | ⟨s₀, outer⟩) slots record fields ⟨s, hs, hlookup⟩
    · exact ⟨s, hs, hlookup⟩
    · rcases List.mem_cons.1 hs with rfl | hs
      · exact ⟨_, List.mem_cons_self, by simpa using hlookup⟩
      · exact ⟨s, List.mem_cons_of_mem _ hs, hlookup⟩
  addType := by
    rintro Γ Γ' name fields line record fields' - hadd ⟨s, hs, hlookup⟩
    obtain ⟨s₀, outer, rfl, -, -, rfl⟩ := Scopes.addType_eq_ok hadd
    rcases List.mem_cons.1 hs with rfl | hs
    · exact ⟨_, List.mem_cons_self, by simp [List.lookup_append, hlookup]⟩
    · exact ⟨s, List.mem_cons_of_mem _ hs, hlookup⟩

/-- One of the open blocks declares the record type under the name. -/
def Context.Lists (ctx : Context) (record : String) (fields : Fields) : Prop :=
  ∃ o ∈ ctx, o.block.types.lookup record = some fields

/-- The record types in the scopes of a place are declared by the open blocks. -/
theorem Stack.lists {fresh : Prop} {ctx : Context} {Γ : Scopes} (h : Stack fresh ctx Γ)
    (hlists : Γ.Lists record fields) : ctx.Lists record fields := by
  induction h with
  | nil =>
    obtain ⟨s, hs, -⟩ := hlists
    cases hs
  | @cons o ctx scope outer _ _ _ hafter ih =>
    obtain ⟨s, hs, hlookup⟩ := hlists
    rcases List.mem_cons.1 hs with rfl | hs
    · obtain ⟨slots, types, hgrown, -, -⟩ := hafter.extends
      obtain ⟨-, htypes⟩ : o.block.slots = s.slots ++ slots ∧ o.block.types = s.types ++ types := by
        simpa [Scopes.extend] using hgrown
      exact ⟨o, List.mem_cons_self, by simp [htypes, List.lookup_append, hlookup]⟩
    · obtain ⟨o', ho', hfound⟩ := ih ⟨s, hs, hlookup⟩
      exact ⟨o', List.mem_cons_of_mem _ ho', hfound⟩

/-! ### Records -/

variable {knows : Scopes → String → Fields → Prop} {Γ : Scopes}

/-- A variable of a record type starts as the zero record of a record type that is known. -/
theorem Scopes.Coherent.zeroRecord (hΓ : Γ.Coherent knows) {name record : String} {slot : Slot}
    (hslot : Γ.slot? name = some slot) (hty : slot.ty = .record record) :
    ∃ fields, knows Γ record fields ∧ slot.value = Value.zeroRecord fields := by
  rcases hΓ.known hslot with ⟨record', fields, hty', hfields, hvalue⟩ | ⟨hprimitive, -⟩
  · obtain rfl : record = record' := Ty.record.inj (hty.symm.trans hty')
    exact ⟨fields, hfields, hvalue⟩
  · exact absurd hty (hprimitive record)

theorem Place.Typed.path_eq_none (hΓ : Γ.LeafTyped) {p : Place} (h : p.Typed Γ)
    (hty : p.ty = .record record) :
    p.path = none ∧ ∃ slot, Γ.slot? p.name = some slot ∧ slot.ty = .record record := by
  obtain ⟨-, slot, hslot, hfield⟩ := h
  cases hpath : p.path with
  | none =>
    rw [hpath] at hfield
    exact ⟨rfl, slot, hslot, hfield.symm.trans hty⟩
  | some path =>
    rw [hpath] at hfield
    obtain ⟨name, fields, -, hfields, hlookup⟩ := hfield
    have hleaf : p.ty.isLeaf = true := hΓ.of_type? hfields _ (Table.mem_of_lookup hlookup)
    exact absurd hty (Ty.ne_record hleaf record)

/-- A record is taken from variables of its type. -/
theorem Expr.Typed.sources_typed (hΓ : Γ.LeafTyped) {e : Expr} (h : e.Typed Γ)
    (hty : e.ty = .record record) :
    e.sources ≠ [] ∧ ∀ p ∈ e.sources,
      p.path = none ∧ ∃ slot, Γ.slot? p.name = some slot ∧ slot.ty = .record record := by
  induction h with
  | @literal line v hv =>
    cases v with
    | record leaves => simp [Value.isLiteral] at hv
    | _ => simp [Expr.ty, Value.ty] at hty
  | @load p hp =>
    refine ⟨by simp [Expr.sources], ?_⟩
    intro p' hp'
    obtain rfl : p' = p := by simpa [Expr.sources] using hp'
    exact hp.path_eq_none hΓ hty
  | host => simp [Expr.ty] at hty
  | @negate line logical e _ hop _ =>
    have hty : e.ty = .record record := hty
    rw [hty] at hop
    cases logical with
    | true => simp at hop
    | false => simp [Ty.isNumeric] at hop
  | @binary line op left right _ _ hne _ _ =>
    exact absurd hty ((Operator.operands_ne_record hne).2.2 record)
  | @select line condition yes no _ _ _ _ hbranches _ _ ihy ihn =>
    have hyes : yes.ty = .record record := hty
    obtain ⟨hne, hsources⟩ := ihy hyes
    obtain ⟨-, hsources'⟩ := ihn (hbranches.trans hyes)
    refine ⟨by simp [Expr.sources, hne], ?_⟩
    intro p hp
    rcases List.mem_append.1 (show p ∈ yes.sources ++ no.sources from hp) with hp | hp
    · exact hsources p hp
    · exact hsources' p hp
  | @call line f args _ _ _ => exact absurd hty (f.ret_ne_record record)

/-! ### Programs -/

/-- A place is used: its value is read, or it is assigned to. -/
def Used (root : Block) (position : Nat) (ctx : Context) (place : Place) : Prop :=
  Site root position ctx (.expr (.load place)) ∨
    ∃ line value, Site root position ctx (.stmt (.assign line place value))

theorem Used.typed {fresh : Prop} {root : Block} {position : Nat} {ctx : Context} {place : Place}
    (hroot : root.Opens fresh []) (h : Used root position ctx place) :
    ∃ Γ, Stack fresh ctx Γ ∧ place.Typed Γ := by
  rcases h with h | ⟨line, value, h⟩
  · obtain ⟨Γ, hstack, he⟩ := h.typed hroot
    cases he with
    | load hplace => exact ⟨Γ, hstack, hplace⟩
  · obtain ⟨Γ, hstack, Γ', hs⟩ := h.typed hroot
    cases hs with
    | assign hplace _ _ _ => exact ⟨Γ, hstack, hplace⟩

/-- **Fields and records of accepted programs.** A variable with a field that is used starts as the
zero record of a record type of an open block, its own one.  The field is a leaf of a record type
that an open block declares under the same name, and a leaf of the variable exactly if its own
record type has it with the same type.  A value that is assigned has the type of its place; a record
is assigned to a whole variable, and taken from variables whose record types have the same name.

If no record type is declared while another one of its name is in sight, all fields are leaves of
their variables, and records are only assigned to variables that start as the same record. -/
theorem fields_resolve {source : String} {globals : Globals} {root : Block}
    (hparse : parseProgram source globals = .ok root) (hglobals : (globals.map Prod.fst).Nodup)
    (position : Nat) (ctx : Context) :
    (∀ place path, Used root position ctx place → place.path = some path →
      ∃ slot record own fields, ctx.slot? place.name = some slot ∧ slot.ty = .record record ∧
        ctx.Lists record own ∧ slot.value = Value.zeroRecord own ∧
        ctx.Lists record fields ∧ fields.lookup path = some place.ty ∧
        (slot.value.HasLeaf path place.ty ↔ own.lookup path = some place.ty) ∧
        (RecordNamesFresh source → slot.value.HasLeaf path place.ty)) ∧
    (∀ line target value, Site root position ctx (.stmt (.assign line target value)) →
      value.ty = target.ty ∧
      ∀ record, target.ty = .record record → target.path = none ∧
        ∃ slot own, ctx.slot? target.name = some slot ∧ slot.ty = .record record ∧
          ctx.Lists record own ∧ slot.value = Value.zeroRecord own ∧ value.sources ≠ [] ∧
          ∀ place ∈ value.sources, place.path = none ∧
            ∃ slot' own', ctx.slot? place.name = some slot' ∧ slot'.ty = .record record ∧
              ctx.Lists record own' ∧ slot'.value = Value.zeroRecord own' ∧
              (RecordNamesFresh source → slot'.value = slot.value)) := by
  have hroot := parseProgram_opens hparse hglobals
  refine ⟨?_, ?_⟩
  · intro place path hused hpath
    obtain ⟨Γ, hstack, -, slot, hslot, hfield⟩ := hused.typed hroot
    rw [hpath] at hfield
    obtain ⟨record, fields, hty, hfields, hlookup⟩ := hfield
    have hlasting := Scopes.lasting_lists (RecordNamesFresh source)
    obtain ⟨own, hown, hvalue⟩ := (hstack.coherent hlasting).zeroRecord hslot hty
    refine ⟨slot, record, own, fields, by rw [hstack.slot?_eq, hslot], hty, hstack.lists hown,
      hvalue, hstack.lists (hlasting.found hfields), hlookup, ?_, ?_⟩
    · rw [hvalue]
      exact Value.hasLeaf_zeroRecord (hstack.leafTyped.of_lists hown) path place.ty
    · intro hfresh
      -- the record type in sight is the one of the declaration
      obtain ⟨fields', hfields', hvalue'⟩ :=
        (hstack.coherent (Scopes.lasting_type? hfresh)).zeroRecord hslot hty
      obtain rfl : fields = fields' := Option.some.inj (hfields.symm.trans hfields')
      rw [hvalue']
      exact (Value.hasLeaf_zeroRecord (hstack.leafTyped.of_type? hfields) path place.ty).2 hlookup
  · intro line target value hsite
    obtain ⟨Γ, hstack, Γ', hs⟩ := hsite.typed hroot
    cases hs with
    | assign htarget hvalue hty _ =>
      refine ⟨hty, ?_⟩
      intro record hrecord
      obtain ⟨hpath, slot, hslot, hslotTy⟩ := htarget.path_eq_none hstack.leafTyped hrecord
      obtain ⟨hne, hsources⟩ := hvalue.sources_typed hstack.leafTyped (hty.trans hrecord)
      have hlists := hstack.coherent (Scopes.lasting_lists (RecordNamesFresh source))
      obtain ⟨own, hown, hstart⟩ := hlists.zeroRecord hslot hslotTy
      refine ⟨hpath, slot, own, by rw [hstack.slot?_eq, hslot], hslotTy, hstack.lists hown, hstart,
        hne, ?_⟩
      intro place hplace
      obtain ⟨hwhole, slot', hslot', hslotTy'⟩ := hsources place hplace
      obtain ⟨own', hown', hstart'⟩ := hlists.zeroRecord hslot' hslotTy'
      refine ⟨hwhole, slot', own', by rw [hstack.slot?_eq, hslot'], hslotTy', hstack.lists hown',
        hstart', ?_⟩
      intro hfresh
      have hsight := hstack.coherent (Scopes.lasting_type? hfresh)
      obtain ⟨fields, hfields, hv⟩ := hsight.zeroRecord hslot hslotTy
      obtain ⟨fields', hfields', hv'⟩ := hsight.zeroRecord hslot' hslotTy'
      obtain rfl : fields = fields' := Option.some.inj (hfields.symm.trans hfields')
      rw [hv, hv']

/-- A record is assigned, and then one of its fields. -/
theorem fields_resolve_copy :
    ∃ root, parseProgram "record P { int x; } P p; P q; p = q; p.x = 1;" [] = .ok root ∧
      (∃ position ctx place slot, Used root position ctx place ∧ place.path = some "x" ∧
        ctx.slot? place.name = some slot ∧ slot.value.HasLeaf "x" place.ty) ∧
      ∃ position ctx line target place slot slot',
        Site root position ctx (.stmt (.assign line target (.load place))) ∧
        ctx.slot? target.name = some slot ∧ ctx.slot? place.name = some slot' ∧
        slot'.value = slot.value := by
  obtain ⟨root, hparse, hthird, hfourth⟩ :
      ∃ root, parseProgram "record P { int x; } P p; P q; p = q; p.x = 1;" [] = .ok root ∧
        ((root.statements[2]?.bind Stmt.assignment?).any fun a =>
          decide (a.1.ty = .record "P") && a.2.place?.isSome) = true ∧
        ((root.statements[3]?.bind Stmt.assignment?).any fun a => decide (a.1.path = some "x")) =
          true := by
    decide +kernel
  have hfresh : RecordNamesFresh "record P { int x; } P p; P q; p = q; p.x = 1;" := by
    decide +kernel
  obtain ⟨q, s, ⟨target, value⟩, hcopy, hs, htest⟩ := Site.openAt .root hthird
  obtain ⟨q', s', ⟨field, value'⟩, hset, hs', hfield⟩ := Site.openAt .root hfourth
  obtain ⟨line, rfl⟩ := Stmt.eq_assign hs
  obtain ⟨line', rfl⟩ := Stmt.eq_assign hs'
  obtain ⟨htarget, hvalue⟩ : target.ty = .record "P" ∧ value.place?.isSome = true := by
    simpa using htest
  have hfield : field.path = some "x" := by simpa using hfield
  obtain ⟨place, hplace⟩ := Option.isSome_iff_exists.1 hvalue
  obtain rfl := Expr.eq_load hplace
  refine ⟨root, hparse, ?_, ?_⟩
  · obtain ⟨slot, _, _, _, hslot, -, -, -, -, -, -, hleaf⟩ :=
      (fields_resolve hparse (by decide) _ _).1 field "x" (.inr ⟨line', value', hset⟩) hfield
    exact ⟨_, _, field, slot, .inr ⟨line', value', hset⟩, hfield, hslot, hleaf hfresh⟩
  · obtain ⟨-, hrecord⟩ := (fields_resolve hparse (by decide) _ _).2 line target (.load place) hcopy
    obtain ⟨-, slot, _, hslot, -, -, -, -, hsources⟩ := hrecord "P" htarget
    obtain ⟨-, slot', _, hslot', -, -, -, hsame⟩ := hsources place (by simp [Expr.sources])
    exact ⟨_, _, line, target, place, slot, slot', hcopy, hslot, hslot', hsame hfresh⟩

/-- A block that declares a record type under a name in sight gives the variables outside a field
that they do not have. -/
theorem accepted_field_missing :
    ∃ root, parseProgram "record P { int x; } P p; { record P { int y; } p.y = 1; }" [] = .ok root ∧
      ∃ position ctx place slot, Used root position ctx place ∧ place.path = some "y" ∧
        ctx.slot? place.name = some slot ∧ ¬slot.value.HasLeaf "y" place.ty := by
  obtain ⟨root, hparse, hroot⟩ :
      ∃ root, parseProgram "record P { int x; } P p; { record P { int y; } p.y = 1; }" [] =
        .ok root ∧
        ((root.statements[1]?.bind Stmt.nested?).any fun body =>
          (body.statements[0]?.bind Stmt.assignment?).any fun a =>
            decide (a.1.path = some "y") &&
            (Context.slot? [body.openAt 0, root.openAt 1] a.1.name).any fun slot =>
              (slot.value.leaf? (some "y")).isNone) = true := by
    decide +kernel
  obtain ⟨q, s, body, hsite, hs, hbody⟩ := Site.openAt .root hroot
  obtain ⟨line, rfl⟩ := Stmt.eq_block hs
  obtain ⟨q', s', ⟨place, value⟩, hset, hs', htest⟩ := Site.openAt (.nested hsite) hbody
  obtain ⟨line', rfl⟩ := Stmt.eq_assign hs'
  obtain ⟨hpath, hslot⟩ := Bool.and_eq_true_iff.1 htest
  obtain ⟨slot, hfound, hnone⟩ := (Option.any_eq_true _ _).1 hslot
  refine ⟨root, hparse, _, _, place, slot, .inr ⟨line', value, hset⟩, by simpa using hpath,
    hfound, ?_⟩
  rintro ⟨leaf, hleaf, -⟩
  rw [hleaf] at hnone
  cases hnone

end BindScript
