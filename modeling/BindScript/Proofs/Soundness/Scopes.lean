/-
**The scopes at a place.**

At every place of an accepted program there are scopes in which the part at the place is well typed;
their variables are those in sight there.  These scopes are *coherent*: every variable in sight
starts as the zero value of its type.  What is known of a record type is a parameter of this, and
has to last while the scopes grow.  As long as no record type is declared under a name in sight,
what is found under a name lasts: then the record type in sight at the place is the one that the
variable was declared with.

Main results:

* `Site.typed` — **every part of an accepted program is well typed in its place**.
-/

import BindScript.Proofs.Parser.Statement
import BindScript.Proofs.Site

namespace BindScript

/-! ### Blocks -/

/-- The variables of a block that are bound from the start. -/
def Block.initial (b : Block) : List Slot := b.slots.filter (·.bound)

/-- A block is well typed in the scopes around it, from the variables on that are bound in it. These
have values of primitive types and different names. -/
structure Block.Opens (fresh : Prop) (Γ : Scopes) (b : Block) : Prop where
  typed : TypedAll fresh (⟨b.initial, []⟩ :: Γ) b.statements (⟨b.slots, b.types⟩ :: Γ)
  leaves : ∀ slot ∈ b.initial, slot.ty = slot.value.ty ∧ slot.ty.isLeaf = true
  distinct : (b.initial.map (·.name)).Nodup

/-- The bound variables of a block are those that it begins with. -/
theorem Block.initial_eq {fresh : Prop} {Γ : Scopes} {b : Block} {slots : List Slot}
    (h : TypedAll fresh (⟨slots, []⟩ :: Γ) b.statements (⟨b.slots, b.types⟩ :: Γ))
    (hbound : ∀ slot ∈ slots, slot.bound = true) : b.initial = slots := by
  obtain ⟨more, types, hgrown, hmore, -⟩ := h.extends
  obtain ⟨hslots, -⟩ : b.slots = slots ++ more ∧ b.types = types := by
    simpa [Scopes.extend] using hgrown
  rw [Block.initial, hslots, List.filter_append, List.filter_eq_self.2 hbound,
    List.filter_eq_nil_iff.2 (by simpa using hmore), List.append_nil]

theorem Block.Typed.opens {fresh : Prop} {Γ : Scopes} {b : Block} (h : Block.Typed fresh Γ b) :
    b.Opens fresh Γ := by
  cases h with
  | @mk _ slots types statements hss =>
    have hinitial : Block.initial (.mk slots types statements) = [] :=
      Block.initial_eq (b := .mk slots types statements) hss (by simp)
    refine ⟨?_, ?_, ?_⟩
    · rw [hinitial]
      exact hss
    · simp [hinitial]
    · simp [hinitial]

/-- The outermost block of an accepted program begins with the globals. -/
theorem parseProgram_opens {source : String} {globals : Globals} {root : Block}
    (hparse : parseProgram source globals = .ok root) (hglobals : (globals.map Prod.fst).Nodup) :
    root.Opens (RecordNamesFresh source) [] := by
  obtain ⟨slots, hslots, hroot⟩ := parseProgram_typed hparse
  obtain ⟨hnames, hleaves⟩ := globalSlots_eq_ok hslots
  have hinitial := Block.initial_eq hroot fun slot hslot => (hleaves slot hslot).1
  refine ⟨?_, ?_, ?_⟩
  · rw [hinitial]
    exact hroot
  · rw [hinitial]
    exact fun slot hslot => (hleaves slot hslot).2
  · rw [hinitial, hnames]
    exact hglobals

/-! ### Scopes for open blocks -/

variable {fresh : Prop}

/-- The scopes fit the open blocks: each one is what the statements before the place make of the
bound variables, and the statements from the place on make the whole block of it. -/
inductive Stack (fresh : Prop) : Context → Scopes → Prop
  | nil : Stack fresh [] []
  | cons {o ctx scope outer} : Stack fresh ctx outer → o.block.Opens fresh outer →
      TypedAll fresh (⟨o.block.initial, []⟩ :: outer) o.before (scope :: outer) →
      TypedAll fresh (scope :: outer) o.after (⟨o.block.slots, o.block.types⟩ :: outer) →
      Stack fresh (o :: ctx) (scope :: outer)

/-- A part is well typed. -/
def Part.Typed (fresh : Prop) (Γ : Scopes) : Part → Prop
  | .stmt s => ∃ Γ', Stmt.Typed fresh Γ s Γ'
  | .block b => b.Opens fresh Γ
  | .expr e => e.Typed Γ
  | .goto _ => True

variable {ss : List Stmt} {ctx : Context} {name record : String} {fields : Fields}

/-- The first of some statements, after the record types that are declared before it. -/
theorem TypedAll.head {Γ Γ' : Scopes} {s : Stmt} (h : TypedAll fresh Γ (s :: ss) Γ') :
    ∃ Δ Δ', TypedAll fresh Γ [] Δ ∧ Stmt.Typed fresh Δ s Δ' ∧ TypedAll fresh Δ' ss Γ' := by
  generalize hall : s :: ss = all at h
  induction h using TypedAll.induct with
  | nil => simp at hall
  | cons hs hss _ =>
    cases hall
    exact ⟨_, _, .nil, hs, hss⟩
  | record hleaf hfresh hadd _ ih =>
    obtain ⟨Δ, Δ', h₁, h₂, h₃⟩ := ih hall
    exact ⟨Δ, Δ', .record hleaf hfresh hadd h₁, h₂, h₃⟩

theorem TypedAll.exists_scope {scope : Scope} {outer Γ' : Scopes}
    (h : TypedAll fresh (scope :: outer) ss Γ') :
    ∃ scope', Γ' = scope' :: outer := by
  obtain ⟨slots, types, rfl, -, -⟩ := h.extends
  exact ⟨_, rfl⟩

/-- **Every part of an accepted program is well typed in its place.** -/
theorem Site.typed {root : Block} (hroot : root.Opens fresh []) {p : Nat} {ctx : Context}
    {part : Part} (h : Site root p ctx part) :
    ∃ Γ, Stack fresh ctx Γ ∧ part.Typed fresh Γ := by
  induction h with
  | root => exact ⟨[], .nil, hroot⟩
  | @statement p ctx b before s rest split _ ih =>
    obtain ⟨Γ, hstack, hopens⟩ := ih
    have htyped := hopens.typed
    rw [split] at htyped
    obtain ⟨Δ, hbefore, hafter⟩ := htyped.split
    obtain ⟨Δ₁, Δ₂, hrecords, hs, hrest⟩ := hafter.head
    have hbefore := hbefore.append hrecords
    rw [List.append_nil] at hbefore
    obtain ⟨scope, rfl⟩ := hbefore.exists_scope
    exact ⟨scope :: Γ, .cons hstack hopens hbefore (.cons hs hrest), Δ₂, hs⟩
  | condition _ ih =>
    obtain ⟨Γ, hstack, Γ', hs⟩ := ih
    cases hs with
    | branch hc _ _ => exact ⟨Γ, hstack, hc⟩
    | branchElse hc _ _ _ => exact ⟨Γ, hstack, hc⟩
  | yes _ ih =>
    obtain ⟨Γ, hstack, Γ', hs⟩ := ih
    cases hs with
    | branch _ _ hyes => exact ⟨Γ, hstack, hyes.opens⟩
    | branchElse _ _ hyes _ => exact ⟨Γ, hstack, hyes.opens⟩
  | skip _ _ _ ih =>
    obtain ⟨Γ, hstack, -⟩ := ih
    exact ⟨Γ, hstack, True.intro⟩
  | no _ _ _ ih =>
    obtain ⟨Γ, hstack, Γ', hs⟩ := ih
    cases hs with
    | branchElse _ _ _ hno => exact ⟨Γ, hstack, hno.opens⟩
  | test _ ih =>
    obtain ⟨Γ, hstack, Γ', hs⟩ := ih
    cases hs with
    | loop hc _ _ => exact ⟨Γ, hstack, hc⟩
  | body _ ih =>
    obtain ⟨Γ, hstack, Γ', hs⟩ := ih
    cases hs with
    | loop _ _ hbody => exact ⟨Γ, hstack, hbody.opens⟩
  | again _ _ ih =>
    obtain ⟨Γ, hstack, -⟩ := ih
    exact ⟨Γ, hstack, True.intro⟩
  | nested _ ih =>
    obtain ⟨Γ, hstack, Γ', hs⟩ := ih
    cases hs with
    | block hbody => exact ⟨Γ, hstack, hbody.opens⟩
  | init _ ih =>
    obtain ⟨Γ, hstack, Γ', hs⟩ := ih
    cases hs with
    | declareInit he _ _ _ => exact ⟨Γ, hstack, he⟩
  | value _ ih =>
    obtain ⟨Γ, hstack, Γ', hs⟩ := ih
    cases hs with
    | assign _ he _ _ => exact ⟨Γ, hstack, he⟩
  | performed _ ih =>
    obtain ⟨Γ, hstack, Γ', hs⟩ := ih
    cases hs with
    | perform he => exact ⟨Γ, hstack, he⟩
  | operand _ ih =>
    obtain ⟨Γ, hstack, he⟩ := ih
    cases he with
    | negate he _ => exact ⟨Γ, hstack, he⟩
  | left _ ih =>
    obtain ⟨Γ, hstack, he⟩ := ih
    cases he with
    | binary hl _ _ => exact ⟨Γ, hstack, hl⟩
  | right _ ih =>
    obtain ⟨Γ, hstack, he⟩ := ih
    cases he with
    | binary _ hr _ => exact ⟨Γ, hstack, hr⟩
  | selector _ ih =>
    obtain ⟨Γ, hstack, he⟩ := ih
    cases he with
    | select hc _ _ _ _ _ => exact ⟨Γ, hstack, hc⟩
  | first _ ih =>
    obtain ⟨Γ, hstack, he⟩ := ih
    cases he with
    | select _ _ hy _ _ _ => exact ⟨Γ, hstack, hy⟩
  | second _ _ ih =>
    obtain ⟨Γ, hstack, he⟩ := ih
    cases he with
    | select _ _ _ hn _ _ => exact ⟨Γ, hstack, hn⟩
  | argument _ ih =>
    obtain ⟨Γ, hstack, he⟩ := ih
    cases he with
    | call hargs _ => exact ⟨Γ, hstack, hargs _ (by simp)⟩

/-! ### Looking up -/

/-- The variables of a block in sight are those of its scope. -/
theorem Open.slots_eq {o : Open} {scope : Scope} {outer : Scopes}
    (hopens : o.block.Opens fresh outer)
    (hbefore : TypedAll fresh (⟨o.block.initial, []⟩ :: outer) o.before (scope :: outer))
    (hafter : TypedAll fresh (scope :: outer) o.after (⟨o.block.slots, o.block.types⟩ :: outer)) :
    o.slots = scope.slots := by
  have hdistinct : (o.block.slots.map (·.name)).Nodup :=
    hafter.distinct (hbefore.distinct hopens.distinct)
  obtain ⟨more, types, hgrown, -, hnames⟩ := hbefore.extends
  obtain ⟨later, types', hgrown', hlater, -⟩ := hafter.extends
  have hscope : scope.slots = o.block.initial ++ more := by
    obtain ⟨hscope, -⟩ := List.cons.inj hgrown
    rw [hscope]
  obtain ⟨hslots, -⟩ : o.block.slots = scope.slots ++ later ∧
      o.block.types = scope.types ++ types' := by
    simpa [Scopes.extend] using hgrown'
  have hseen : ∀ s ∈ scope.slots,
      (s.bound || (o.before.flatMap Stmt.declares).contains s.name) = true := by
    intro s hs
    rw [hscope] at hs
    rcases List.mem_append.1 hs with hs | hs
    · have hbound : s.bound = true := (List.mem_filter.1 hs).2
      rw [hbound, Bool.true_or]
    · have hname : s.name ∈ o.before.flatMap Stmt.declares := by
        rw [← hnames]
        exact List.mem_map_of_mem hs
      rw [List.contains_iff_mem.2 hname, Bool.or_true]
  have hhidden : ∀ s ∈ later,
      ¬(s.bound || (o.before.flatMap Stmt.declares).contains s.name) = true := by
    intro s hs
    rw [hlater s hs, Bool.false_or, List.contains_iff_mem, ← hnames]
    intro hname
    -- the name would stand twice in the block
    obtain ⟨s', hs', hsame⟩ := List.mem_map.1 hname
    rw [hslots, List.map_append] at hdistinct
    have hdisjoint := (List.nodup_append.1 hdistinct).2.2
    refine hdisjoint s'.name (List.mem_map_of_mem ?_) s.name (List.mem_map_of_mem hs) hsame
    rw [hscope]
    exact List.mem_append_right _ hs'
  rw [Open.slots, hslots, List.filter_append, List.filter_eq_self.2 hseen,
    List.filter_eq_nil_iff.2 hhidden, List.append_nil]

/-- The variables in sight at a place are those of its scopes. -/
theorem Stack.slots_eq {ctx : Context} {Γ : Scopes} (h : Stack fresh ctx Γ) :
    Γ.map (·.slots) = ctx.map Open.slots := by
  induction h with
  | nil => rfl
  | cons _ hopens hbefore hafter ih =>
    rw [List.map_cons, List.map_cons, Open.slots_eq hopens hbefore hafter, ih]

theorem Stack.slot?_eq {Γ : Scopes} (h : Stack fresh ctx Γ) (name : String) :
    ctx.slot? name = Γ.slot? name := by
  have hctx : ctx.slot? name =
      (ctx.map Open.slots).findSome? fun slots => slots.find? fun s => s.name == name := by
    rw [List.findSome?_map]
    rfl
  rw [hctx, ← h.slots_eq, List.findSome?_map]
  rfl

theorem Scopes.type?_extend (Γ : Scopes) (slots : List Slot) (name : String) :
    (Γ.extend slots []).type? name = Γ.type? name := by
  cases Γ with
  | nil => rfl
  | cons s outer => simp [Scopes.type?, Scopes.extend, Scope.type?, List.findSome?_cons]

theorem Scopes.type?_addType {Γ Γ' : Scopes} {fields' : Fields} {line : Nat}
    (hnew : Γ.type? name = none) (hadd : Γ.addType name fields line = (.ok (), Γ'))
    (h : Γ.type? record = some fields') :
    Γ'.type? record = some fields' := by
  obtain ⟨s, outer, rfl, -, -, rfl⟩ := Scopes.addType_eq_ok hadd
  have hne : (record == name) = false := by
    refine beq_eq_false_iff_ne.2 ?_
    rintro rfl
    rw [hnew] at h
    cases h
  simp only [Scopes.type?, Scope.type?, List.findSome?_cons, List.lookup_append] at h ⊢
  cases hs : s.types.lookup record with
  | some f => simpa [hs] using h
  | none => simpa [hs, List.lookup_cons, hne] using h

/-- What scopes know about record types lasts: it has all that is in sight, and stays while the
scopes grow. -/
structure Scopes.Lasting (fresh : Prop) (knows : Scopes → String → Fields → Prop) : Prop where
  found {Γ : Scopes} {record fields} : Γ.type? record = some fields → knows Γ record fields
  push {Γ : Scopes} {slots record fields} : knows Γ record fields →
    knows (⟨slots, []⟩ :: Γ) record fields
  extend {Γ : Scopes} {slots record fields} :
    knows Γ record fields → knows (Γ.extend slots []) record fields
  addType {Γ Γ' : Scopes} {name fields line record fields'} : (fresh → Γ.type? name = none) →
    Γ.addType name fields line = (.ok (), Γ') → knows Γ record fields' → knows Γ' record fields'

theorem Scopes.Lasting.statements {knows : Scopes → String → Fields → Prop}
    (hlasting : Scopes.Lasting fresh knows) {Γ Γ' : Scopes} (h : TypedAll fresh Γ ss Γ')
    (hknown : knows Γ record fields) : knows Γ' record fields := by
  induction h using TypedAll.induct with
  | nil => exact hknown
  | cons hs _ ih =>
    obtain ⟨slots, rfl, -, -⟩ := hs.extends
    exact ih (hlasting.extend hknown)
  | record _ hnew hadd _ ih => exact ih (hlasting.addType hnew hadd hknown)

/-- If record names are fresh, the record type that is in sight under a name stays in sight. -/
theorem Scopes.lasting_type? (hfresh : fresh) :
    Scopes.Lasting fresh fun Γ record fields => Γ.type? record = some fields where
  found hfields := hfields
  push hfields := hfields
  extend hfields := by rw [Scopes.type?_extend]; exact hfields
  addType hnew hadd hfields := Scopes.type?_addType (hnew hfresh) hadd hfields

/-- While record names are fresh, a record type in the scopes is the one that the open blocks
declare. -/
theorem Stack.type?_eq_some {Γ : Scopes} (hfresh : fresh) (h : Stack fresh ctx Γ)
    (hfields : Γ.type? record = some fields) : ctx.type? record = some fields := by
  induction h with
  | nil => exact hfields
  | @cons o ctx scope outer _ _ _ hafter ih =>
    have hfull := (Scopes.lasting_type? hfresh).statements hafter hfields
    simp only [Scopes.type?, Scope.type?, List.findSome?_cons] at hfull
    simp only [Context.type?, List.findSome?_cons]
    cases hlookup : o.block.types.lookup record with
    | some f => simpa [hlookup] using hfull
    | none =>
      rw [hlookup] at hfull
      exact ih hfull

/-! ### Coherence -/

/-- What a variable starts as is of its type: a value of the primitive type, or the zero record of a
record type that is known under the name. -/
def Slot.Known (knows : String → Fields → Prop) (slot : Slot) : Prop :=
  (∃ record fields, slot.ty = .record record ∧ knows record fields ∧
      slot.value = Value.zeroRecord fields) ∨
    ((∀ record, slot.ty ≠ .record record) ∧ slot.value.ty = slot.ty)

/-- All variables in sight start as values of their types. -/
def Scopes.Coherent (knows : Scopes → String → Fields → Prop) (Γ : Scopes) : Prop :=
  ∀ s ∈ Γ, ∀ slot ∈ s.slots, slot.Known (knows Γ)

theorem Slot.Known.mono {knows knows' : String → Fields → Prop} {slot : Slot} (h : slot.Known knows)
    (hmono : ∀ {record fields}, knows record fields → knows' record fields) :
    slot.Known knows' := by
  rcases h with ⟨record, fields, hty, hfields, hvalue⟩ | hprimitive
  · exact .inl ⟨record, fields, hty, hmono hfields, hvalue⟩
  · exact .inr hprimitive

theorem Value.ty_zero {ty : Ty} (h : ∀ record, ty ≠ .record record) : (Value.zero ty).ty = ty := by
  cases ty with
  | record record => exact absurd rfl (h record)
  | _ => rfl

namespace Scopes.Coherent

variable {knows : Scopes → String → Fields → Prop} {Γ Γ' : Scopes}

theorem push (hlasting : Scopes.Lasting fresh knows) (h : Γ.Coherent knows) {slots : List Slot}
    (hslots : ∀ slot ∈ slots, slot.ty = slot.value.ty ∧ slot.ty.isLeaf = true) :
    Scopes.Coherent knows (⟨slots, []⟩ :: Γ) := by
  intro s hs slot hslot
  rcases List.mem_cons.1 hs with rfl | hs
  · obtain ⟨hty, hleaf⟩ := hslots slot hslot
    exact .inr ⟨Ty.ne_record hleaf, hty.symm⟩
  · exact (h s hs slot hslot).mono hlasting.push

theorem addVariable (hlasting : Scopes.Lasting fresh knows) (h : Γ.Coherent knows) {ty : Ty}
    {line : Nat} (hadd : Γ.addVariable ty name line = (.ok (), Γ')) : Γ'.Coherent knows := by
  obtain ⟨s, outer, value, rfl, -, -, hzero, rfl⟩ := Scopes.addVariable_eq_ok hadd
  have hextend : { s with slots := s.slots ++ [⟨name, ty, value, false⟩] } :: outer =
      Scopes.extend (s :: outer) [⟨name, ty, value, false⟩] [] := by
    simp [Scopes.extend]
  rw [hextend]
  intro s' hs' slot hslot
  rcases List.mem_cons.1 hs' with rfl | hs'
  · rcases List.mem_append.1 hslot with hslot | hslot
    · exact (h s (by simp) slot hslot).mono hlasting.extend
    · obtain rfl : slot = ⟨name, ty, value, false⟩ := by simpa using hslot
      rcases Scopes.zeroValue_eq_ok hzero with ⟨record, fields, hty, hfields, hvalue⟩ |
        ⟨hprimitive, rfl⟩
      · exact .inl ⟨record, fields, hty, hlasting.extend (hlasting.found hfields), hvalue⟩
      · exact .inr ⟨hprimitive, Value.ty_zero hprimitive⟩
  · exact (h s' (List.mem_cons_of_mem _ hs') slot hslot).mono hlasting.extend

theorem statement (hlasting : Scopes.Lasting fresh knows) (h : Γ.Coherent knows) {s : Stmt}
    (hs : Stmt.Typed fresh Γ s Γ') : Γ'.Coherent knows := by
  cases hs with
  | declare hadd => exact h.addVariable hlasting hadd
  | declareInit _ _ _ hadd => exact h.addVariable hlasting hadd
  | _ => exact h

theorem statements (hlasting : Scopes.Lasting fresh knows) (h : Γ.Coherent knows)
    (hss : TypedAll fresh Γ ss Γ') :
    Γ'.Coherent knows := by
  induction hss using TypedAll.induct with
  | nil => exact h
  | cons hs _ ih => exact ih (h.statement hlasting hs)
  | @record Γ Γ₁ _ _ _ _ _ _ hnew hadd _ ih =>
    refine ih ?_
    have hlast : ∀ {record fields}, knows Γ record fields → knows Γ₁ record fields :=
      hlasting.addType hnew hadd
    obtain ⟨s, outer, rfl, -, -, rfl⟩ := Scopes.addType_eq_ok hadd
    intro s' hs' slot hslot
    rcases List.mem_cons.1 hs' with rfl | hs'
    · exact (h s (by simp) slot hslot).mono hlast
    · exact (h s' (List.mem_cons_of_mem _ hs') slot hslot).mono hlast

theorem known (h : Γ.Coherent knows) {slot : Slot} (hslot : Γ.slot? name = some slot) :
    slot.Known (knows Γ) := by
  obtain ⟨s, hs, hfind⟩ := List.exists_of_findSome?_eq_some hslot
  exact h s hs slot (List.mem_of_find?_eq_some hfind)

end Scopes.Coherent

theorem Stack.coherent {knows : Scopes → String → Fields → Prop}
    (hlasting : Scopes.Lasting fresh knows) {Γ : Scopes} (h : Stack fresh ctx Γ) :
    Γ.Coherent knows := by
  induction h with
  | nil => exact fun s hs => absurd hs (by simp)
  | cons _ hopens hbefore _ ih =>
    exact (ih.push hlasting hopens.leaves).statements hlasting hbefore

/-! ### Leaves -/

theorem TypedAll.leafTyped {Γ Γ' : Scopes} (hss : TypedAll fresh Γ ss Γ') (h : Γ.LeafTyped) :
    Γ'.LeafTyped := by
  induction hss using TypedAll.induct with
  | nil => exact h
  | @cons Γ Γ' _ s _ hs _ ih =>
    obtain ⟨slots, rfl, -, -⟩ := hs.extends
    refine ih ?_
    cases Γ with
    | nil => exact h
    | cons scope outer =>
      intro scope' hscope' entry hentry
      rcases List.mem_cons.1 hscope' with rfl | hscope'
      · exact h scope (by simp) entry (by simpa using hentry)
      · exact h scope' (List.mem_cons_of_mem _ hscope') entry hentry
  | record hleaf _ hadd _ ih =>
    obtain ⟨scope, outer, rfl, -, -, rfl⟩ := Scopes.addType_eq_ok hadd
    refine ih ?_
    intro scope' hscope' entry hentry
    rcases List.mem_cons.1 hscope' with rfl | hscope'
    · rcases List.mem_append.1 hentry with hentry | hentry
      · exact h scope (by simp) entry hentry
      · obtain rfl := List.mem_singleton.1 hentry
        exact hleaf
    · exact h scope' (List.mem_cons_of_mem _ hscope') entry hentry

theorem Stack.leafTyped {ctx : Context} {Γ : Scopes} (h : Stack fresh ctx Γ) : Γ.LeafTyped := by
  induction h with
  | nil => exact fun s hs => absurd hs (by simp)
  | cons _ _ hbefore _ ih =>
    refine hbefore.leafTyped ?_
    intro s hs
    rcases List.mem_cons.1 hs with rfl | hs
    · simp
    · exact ih s hs

end BindScript
