/-
**Variables keep to their types.**

A record value does not know the name of its type, so its type is told by its *layout*: the paths of
its leaves with their types.  While a program runs, every variable in sight has the layout of the
value that it starts as.  This is kept by assignments whatever record types are declared meanwhile;
and where the scopes are coherent, it says that every variable has a value of its declared type.

Main results:

* `Frames.Fits.holds` — **frames that fit have values of the declared types**.
-/

import BindScript.Proofs.Machine.Frames
import BindScript.Proofs.Soundness.Scopes

namespace BindScript

/-! ### Layouts -/

namespace Value

/-- The paths of the leaves of a record with their types. -/
def fields : Value → Fields
  | .record leaves => leaves.map fun e => (e.1, e.2.ty)
  | _ => []

/-- What a value shows of its type. -/
def layout (v : Value) : Ty × Fields := (v.ty, v.fields)

/-- A value is of a type: of a record type if it has just the leaves that are known of it. -/
def HasType (records : String → Option Fields) (v : Value) : Ty → Prop
  | .record name => ∃ leaves, v = .record leaves ∧
      records name = some (leaves.map fun e => (e.1, e.2.ty))
  | ty => v.ty = ty

variable {records records' : String → Option Fields} {v w : Value}

theorem HasType.mono (hmono : ∀ {record fields}, records record = some fields →
    records' record = some fields) {ty : Ty} (h : v.HasType records ty) :
    v.HasType records' ty := by
  cases ty with
  | record record =>
    obtain ⟨leaves, hv, hfields⟩ := h
    exact ⟨leaves, hv, hmono hfields⟩
  | _ => exact h

/-- For all but record types, the type of a value is the one that it shows. -/
theorem hasType_iff_ty {ty : Ty} (hty : ∀ record, ty ≠ .record record) :
    v.HasType records ty ↔ v.ty = ty := by
  cases ty with
  | record record => exact absurd rfl (hty record)
  | _ => exact Iff.rfl

theorem fields_eq_nil (h : ∀ record, v.ty ≠ .record record) : v.fields = [] := by
  cases v with
  | record leaves => exact absurd rfl (h "")
  | _ => rfl

theorem layout_zeroRecord {fields : Fields} (hleaves : ∀ field ∈ fields, Ty.isLeaf field.2 = true) :
    (zeroRecord fields).layout = (.record "", fields) := by
  have hmap : (fields.map fun e => (e.1, zero e.2)).map (fun e => (e.1, e.2.ty)) = fields := by
    rw [List.map_map]
    refine (List.map_congr_left ?_).trans (List.map_id fields)
    intro field hfield
    have hty := ty_zero (Ty.ne_record (hleaves field hfield))
    simp only [Function.comp_apply, hty, id]
  exact Prod.ext rfl hmap

theorem layout_eq_record {fields : Fields} :
    v.layout = (.record "", fields) ↔ ∃ leaves, v = .record leaves ∧
      (leaves.map fun e => (e.1, e.2.ty)) = fields := by
  cases v with
  | record leaves => simp [layout, ty, Value.fields]
  | _ => simp [layout, ty]

end Value

/-- A variable that starts as a value of its type has values of its type exactly if they have the
layout of the first one. -/
theorem Slot.Known.hasType_iff {records : String → Option Fields} {slot : Slot}
    (h : slot.Known fun record fields => records record = some fields)
    (hleaves : ∀ {record fields}, records record = some fields →
      ∀ field ∈ fields, Ty.isLeaf field.2 = true) (v : Value) :
    v.HasType records slot.ty ↔ v.layout = slot.value.layout := by
  rcases h with ⟨record, fields, hty, hfields, hvalue⟩ | ⟨hprimitive, hvalue⟩
  · rw [hty, hvalue, Value.layout_zeroRecord (hleaves hfields), Value.layout_eq_record]
    simp only [Value.HasType, hfields, Option.some.injEq, eq_comm]
  · rw [Value.hasType_iff_ty hprimitive]
    have hslot : slot.value.fields = [] := Value.fields_eq_nil (by rw [hvalue]; exact hprimitive)
    constructor
    · intro hty
      have hv : v.fields = [] := Value.fields_eq_nil (by rw [hty]; exact hprimitive)
      rw [Value.layout, Value.layout, hty, hvalue, hv, hslot]
    · intro hlayout
      exact (Prod.mk.inj hlayout).1.trans hvalue

/-! ### Variables in sight -/

/-- The variables of a scope with values of their layouts. -/
def Scope.Fits (slots : List Slot) (values : Table Value) : Prop :=
  List.Forall₂ (fun slot entry => entry.1 = slot.name ∧ entry.2.layout = slot.value.layout)
    slots values

/-- The variables in sight have the layouts of the scopes. -/
def Env.Fits (Γ : Scopes) (env : Env) : Prop :=
  List.Forall₂ (fun scope values => Scope.Fits scope.slots values) Γ env

namespace Scope.Fits

variable {slots : List Slot} {values : Table Value}

theorem lookup (h : Scope.Fits slots values) (name : String) :
    (slots.find? (fun s => s.name == name) = none ∧ values.lookup name = none) ∨
      ∃ slot v, slots.find? (fun s => s.name == name) = some slot ∧ values.lookup name = some v ∧
        v.layout = slot.value.layout := by
  induction h with
  | nil => exact .inl ⟨rfl, rfl⟩
  | @cons slot entry slots values hentry _ ih =>
    obtain ⟨n, v⟩ := entry
    obtain ⟨rfl, hlayout⟩ := hentry
    by_cases hname : name = slot.name
    · subst hname
      exact .inr ⟨slot, v, by simp, by simp, hlayout⟩
    · have hne : (slot.name == name) = false := beq_eq_false_iff_ne.2 fun heq => hname heq.symm
      have hne' : (name == slot.name) = false := beq_eq_false_iff_ne.2 hname
      rw [List.find?_cons, List.lookup_cons, hne, hne']
      exact ih

theorem replace (h : Scope.Fits slots values) {name : String} {v w : Value}
    (hlookup : values.lookup name = some v) (hlayout : w.layout = v.layout) :
    Scope.Fits slots (Table.replace name (fun _ => w) values) := by
  induction h with
  | nil => exact .nil
  | @cons slot entry slots values hentry hrest ih =>
    obtain ⟨n, old⟩ := entry
    by_cases hname : n = name
    · subst hname
      obtain rfl : old = v := by simpa using hlookup
      rw [Table.replace, if_pos rfl]
      exact .cons ⟨hentry.1, hlayout.trans hentry.2⟩ hrest
    · have hne : (name == n) = false := beq_eq_false_iff_ne.2 fun heq => hname heq.symm
      rw [List.lookup_cons, hne] at hlookup
      rw [Table.replace, if_neg hname]
      exact .cons hentry (ih hlookup)

end Scope.Fits

namespace Env.Fits

variable {Γ : Scopes} {env : Env} {name : String} {slot : Slot}

theorem lookup? (h : Env.Fits Γ env) (hslot : Γ.slot? name = some slot) :
    ∃ v, env.lookup? name = some v ∧ v.layout = slot.value.layout := by
  induction h with
  | nil => simp [Scopes.slot?] at hslot
  | @cons scope values Γ env hscope _ ih =>
    simp only [Scopes.slot?, Scope.slot?, Env.lookup?, List.findSome?_cons] at hslot ih ⊢
    rcases hscope.lookup name with ⟨hnone, hnone'⟩ | ⟨slot', v, hfound, hfound', hlayout⟩
    · rw [hnone] at hslot
      rw [hnone']
      exact ih hslot
    · rw [hfound] at hslot
      obtain rfl : slot' = slot := by simpa using hslot
      exact ⟨v, by rw [hfound'], hlayout⟩

/-- A change that keeps the layout of a variable can be made, and keeps all layouts. -/
theorem update? (h : Env.Fits Γ env) (hslot : Γ.slot? name = some slot)
    {change : Value → Option Value} (hchange : ∀ v, v.layout = slot.value.layout →
      ∃ w, change v = some w ∧ w.layout = v.layout) :
    ∃ env', Env.update? name change env = some env' ∧ Env.Fits Γ env' := by
  induction h with
  | nil => simp [Scopes.slot?] at hslot
  | @cons scope values Γ env hscope hrest ih =>
    simp only [Scopes.slot?, Scope.slot?, List.findSome?_cons] at hslot ih
    rcases hscope.lookup name with ⟨hnone, hnone'⟩ | ⟨slot', v, hfound, hfound', hlayout⟩
    · rw [hnone] at hslot
      obtain ⟨env', hupdate, hfits⟩ := ih hslot
      refine ⟨values :: env', ?_, .cons hscope hfits⟩
      rw [Env.update?, hnone', hupdate]
      rfl
    · rw [hfound] at hslot
      obtain rfl : slot' = slot := by simpa using hslot
      obtain ⟨w, hw, hsame⟩ := hchange v hlayout
      refine ⟨Table.replace name (fun _ => w) values :: env, ?_,
        .cons (hscope.replace hfound' hsame) hrest⟩
      simp only [Env.update?, hfound', hw, Option.map_some]

end Env.Fits

/-! ### Places -/

/-- The record types of all variables are in sight, and their leaves are primitive. -/
structure Scopes.Settled (Γ : Scopes) : Prop where
  coherent : Γ.Coherent fun Γ record fields => Γ.type? record = some fields
  leaves : Γ.LeafTyped

/-- If record names are fresh, the scopes at every place are settled. -/
theorem Stack.settled {fresh : Prop} {ctx : Context} {Γ : Scopes} (hfresh : fresh)
    (h : Stack fresh ctx Γ) : Γ.Settled :=
  ⟨h.coherent (Scopes.lasting_type? hfresh), h.leafTyped⟩

section Places

variable {Γ : Scopes} {env : Env} {p : Place} {v : Value}

/-- The variable of a place has values of its type exactly if they have the layout of the first
one. -/
theorem Scopes.Settled.hasType_iff (hΓ : Γ.Settled) {name : String} {slot : Slot}
    (hslot : Γ.slot? name = some slot) (v : Value) :
    v.HasType Γ.type? slot.ty ↔ v.layout = slot.value.layout :=
  (hΓ.coherent.known hslot).hasType_iff (fun hfields => hΓ.leaves.of_type? hfields) v

/-- A value of the type of a new variable has the layout of what the variable starts as. -/
theorem Scopes.Settled.layout_eq (hΓ : Γ.Settled) {ty : Ty} {line : Nat} {start : Value}
    (hzero : Γ.zeroValue ty line = .ok start) (hv : v.HasType Γ.type? ty) :
    v.layout = start.layout := by
  have hknown : Slot.Known (fun record fields => Γ.type? record = some fields) ⟨"", ty, start,
    false⟩ := by
    rcases Scopes.zeroValue_eq_ok hzero with
      ⟨record, fields, hty, hfields, hstart⟩ | ⟨hprimitive, rfl⟩
    · exact .inl ⟨record, fields, hty, hfields, hstart⟩
    · exact .inr ⟨hprimitive, Value.ty_zero hprimitive⟩
  exact (hknown.hasType_iff (fun hfields => hΓ.leaves.of_type? hfields) v).1 hv

theorem Value.HasType.leaf {records : String → Option Fields} {record path : String}
    {fields : Fields} {ty : Ty} (h : v.HasType records (.record record))
    (hfields : records record = some fields) (hpath : fields.lookup path = some ty) :
    ∃ leaves w, v = .record leaves ∧ leaves.lookup path = some w ∧ w.ty = ty := by
  obtain ⟨leaves, rfl, hleaves⟩ := h
  obtain rfl : fields = leaves.map fun e => (e.1, e.2.ty) :=
    Option.some.inj (hfields.symm.trans hleaves)
  rw [Table.lookup_map] at hpath
  obtain ⟨w, hw, hty⟩ := Option.map_eq_some_iff.1 hpath
  exact ⟨leaves, w, rfl, hw, hty⟩

theorem Env.Fits.read (h : Env.Fits Γ env) (hΓ : Γ.Settled) (hp : p.Typed Γ) :
    ∃ v, env.read p = .ok v ∧ v.HasType Γ.type? p.ty := by
  obtain ⟨-, slot, hslot, hfield⟩ := hp
  obtain ⟨v, hlookup, hlayout⟩ := h.lookup? hslot
  have hv := (hΓ.hasType_iff hslot v).2 hlayout
  unfold Env.read
  rw [hlookup]
  cases hpath : p.path with
  | none =>
    rw [hpath] at hfield
    exact ⟨v, rfl, by rw [hfield]; exact hv⟩
  | some path =>
    rw [hpath] at hfield
    obtain ⟨record, fields, hty, hfields, hleaf⟩ := hfield
    rw [hty] at hv
    obtain ⟨leaves, w, rfl, hw, hwty⟩ := hv.leaf hfields hleaf
    have hprimitive := Ty.ne_record (hΓ.leaves.of_type? hfields _ (Table.mem_of_lookup hleaf))
    exact ⟨w, by simp [Value.leaf?, hw], (Value.hasType_iff_ty hprimitive).2 hwty⟩

/-- A value of its type can be written to a place. -/
theorem Env.Fits.write (h : Env.Fits Γ env) (hΓ : Γ.Settled) (hp : p.Typed Γ)
    (hv : v.HasType Γ.type? p.ty) : ∃ env', env.write p v = .ok env' ∧ Env.Fits Γ env' := by
  obtain ⟨-, slot, hslot, hfield⟩ := hp
  -- what is written has the layout of what was there
  have hchange : ∀ old, old.layout = slot.value.layout →
      ∃ w, Value.withLeaf? p.path v old = some w ∧ w.layout = old.layout := by
    intro old hold
    cases hpath : p.path with
    | none =>
      rw [hpath] at hfield
      have hslotTy : v.HasType Γ.type? slot.ty := by
        rw [← hfield]
        exact hv
      exact ⟨v, rfl, ((hΓ.hasType_iff hslot v).1 hslotTy).trans hold.symm⟩
    | some path =>
      rw [hpath] at hfield
      obtain ⟨record, fields, hty, hfields, hleaf⟩ := hfield
      have hrecord := (hΓ.hasType_iff hslot old).2 hold
      rw [hty] at hrecord
      obtain ⟨leaves, w, rfl, hw, hwty⟩ := hrecord.leaf hfields hleaf
      have hprimitive := Ty.ne_record (hΓ.leaves.of_type? hfields _ (Table.mem_of_lookup hleaf))
      have hsame : v.ty = w.ty := ((Value.hasType_iff_ty hprimitive).1 hv).trans hwty.symm
      refine ⟨.record (Table.replace path (fun _ => v) leaves), by simp [Value.withLeaf?, hw], ?_⟩
      exact Prod.ext rfl (Table.map_replace hw Value.ty hsame)
  obtain ⟨env', hupdate, hfits⟩ := h.update? hslot hchange
  exact ⟨env', by rw [Env.write, hupdate], hfits⟩

end Places

/-! ### Frames -/

/-- The slots of the open blocks that are still to be declared. -/
def Context.laters (ctx : Context) (Γ : Scopes) : List (List Slot) :=
  List.zipWith (fun o scope => o.block.slots.drop scope.slots.length) ctx Γ

/-- The frames of the open blocks have the layouts of the scopes, and list the slots that are still
to be declared. -/
def Frames.Fits (ctx : Context) (Γ : Scopes) (frames : Frames) : Prop :=
  ∃ env, Env.Fits Γ env ∧ frames = Frames.holding env (ctx.laters Γ)

namespace Frames.Fits

variable {fresh : Prop} {ctx : Context} {Γ : Scopes} {frames : Frames} {o : Open} {scope : Scope}

theorem read (h : Frames.Fits ctx Γ frames) (hΓ : Γ.Settled) {p : Place} (hp : p.Typed Γ) :
    ∃ v, frames.read p.fullName = .ok v ∧ v.HasType Γ.type? p.ty := by
  obtain ⟨env, henv, rfl⟩ := h
  rw [Frames.read_holding hp.1.noPoint]
  exact henv.read hΓ hp

theorem write (h : Frames.Fits ctx Γ frames) (hΓ : Γ.Settled) {p : Place} (hp : p.Typed Γ)
    {v : Value} (hv : v.HasType Γ.type? p.ty) :
    ∃ frames', frames.write p.fullName v = .ok frames' ∧ Frames.Fits ctx Γ frames' := by
  obtain ⟨env, henv, rfl⟩ := h
  obtain ⟨env', hwrite, hfits⟩ := henv.write hΓ hp hv
  refine ⟨Frames.holding env' (ctx.laters Γ), ?_, env', hfits, rfl⟩
  rw [Frames.write_holding hp.1.noPoint, hwrite]
  rfl

/-- Record types do not matter to frames, nor how far the statements of a block have come. -/
theorem congr (h : Frames.Fits (o :: ctx) (scope :: Γ) frames) {o' : Open} {scope' : Scope}
    (hblock : o'.block = o.block) (hslots : scope'.slots = scope.slots) :
    Frames.Fits (o' :: ctx) (scope' :: Γ) frames := by
  obtain ⟨env, henv, rfl⟩ := h
  refine ⟨env, ?_, by simp only [Context.laters, List.zipWith_cons_cons, hblock, hslots]⟩
  cases henv with
  | cons hscope hrest =>
    refine .cons ?_ hrest
    rw [hslots]
    exact hscope

theorem of_slots (h : Frames.Fits ctx Γ frames) {Γ' : Scopes}
    (hslots : Γ'.map (·.slots) = Γ.map (·.slots)) : Frames.Fits ctx Γ' frames := by
  obtain ⟨env, henv, rfl⟩ := h
  have hfits : ∀ Δ : Scopes, Env.Fits Δ env ↔ List.Forall₂ Scope.Fits (Δ.map (·.slots)) env :=
    fun Δ => List.forall₂_map_left_iff.symm
  have hlaters : ∀ Δ : Scopes, ctx.laters Δ =
      List.zipWith (fun o slots => o.block.slots.drop (List.length slots)) ctx (Δ.map (·.slots)) :=
    fun Δ => by rw [Context.laters, List.zipWith_map_right]
  refine ⟨env, ?_, by rw [hlaters, hlaters, hslots]⟩
  rw [hfits, hslots]
  exact (hfits Γ).1 henv

/-- A declaration brings the next slot into sight, with a value of its type. -/
theorem declare (h : Frames.Fits (o :: ctx) (scope :: Γ) frames) {slot : Slot} {later : List Slot}
    (hblock : o.block.slots = scope.slots ++ slot :: later) (hnew : scope.slot? slot.name = none)
    {value : Option Value} (hvalue : ∀ v, value = some v → v.layout = slot.value.layout)
    {o' : Open} {scope' : Scope} (hsame : o'.block = o.block)
    (hslots : scope'.slots = scope.slots ++ [slot]) :
    ∃ frames', frames.declare slot.name value = .ok frames' ∧
      Frames.Fits (o' :: ctx) (scope' :: Γ) frames' := by
  obtain ⟨env, henv, rfl⟩ := h
  cases henv with
  | @cons _ values _ env hscope hrest =>
    have hlookup : values.lookup slot.name = none := by
      rcases hscope.lookup slot.name with ⟨-, hnone⟩ | ⟨slot', v, hfound, -, -⟩
      · exact hnone
      · exact absurd (hnew.symm.trans hfound) (by simp)
    have hlaters : Context.laters (o :: ctx) (scope :: Γ) = (slot :: later) :: ctx.laters Γ := by
      simp [Context.laters, hblock]
    have hlaters' : Context.laters (o' :: ctx) (scope' :: Γ) = later :: ctx.laters Γ := by
      simp [Context.laters, hsame, hblock, hslots]
    rw [hlaters, Frames.declare_holding hlookup]
    refine ⟨_, rfl, _, ?_, by rw [hlaters']⟩
    refine .cons ?_ hrest
    rw [hslots]
    refine List.rel_append hscope (.cons ⟨rfl, ?_⟩ .nil)
    cases value with
    | none => rfl
    | some v => exact hvalue v rfl

theorem enter (h : Frames.Fits ctx Γ frames) {b : Block} (hb : b.Opens fresh Γ) (ho : o.block = b)
    (hscope : scope.slots = b.initial) :
    Frames.Fits (o :: ctx) (scope :: Γ) (Frame.ofSlots b.slots :: frames) := by
  obtain ⟨env, henv, rfl⟩ := h
  obtain ⟨later, types, hgrown, hlater, -⟩ := hb.typed.extends
  obtain ⟨hslots, -⟩ : b.slots = b.initial ++ later ∧ b.types = types := by
    simpa [Scopes.extend] using hgrown
  have hbound : ∀ s ∈ b.initial, s.bound = true := fun s hs => (List.mem_filter.1 hs).2
  have hdistinct : (b.slots.map (·.name)).Nodup := hb.typed.distinct hb.distinct
  have hlaters : Context.laters (o :: ctx) (scope :: Γ) = later :: ctx.laters Γ := by
    have hdrop : b.slots.drop b.initial.length = later := by
      rw [hslots]
      exact List.drop_left
    simp only [Context.laters, List.zipWith_cons_cons, ho, hscope, hdrop]
  refine ⟨boundValues b.slots :: env, .cons ?_ henv, ?_⟩
  · rw [hscope, boundValues_eq hslots hbound hlater]
    refine List.forall₂_map_right_iff.2 (List.forall₂_same.2 ?_)
    exact fun slot _ => ⟨rfl, rfl⟩
  · rw [hlaters, Frames.holding_cons, Frame.ofSlots_eq hslots hdistinct hbound hlater]

theorem leave (h : Frames.Fits (o :: ctx) (scope :: Γ) frames) : Frames.Fits ctx Γ frames.tail := by
  obtain ⟨env, henv, rfl⟩ := h
  cases henv with
  | cons _ hrest => exact ⟨_, hrest, rfl⟩

end Frames.Fits

/-! ### Types -/

/-- The variables of a frame that can be seen, with their values. -/
def Frame.seen (f : Frame) : Table Value := (f.filter (·.2.live)).map fun e => (e.1, e.2.value)

theorem Frame.seen_holding (values : Table Value) (later : List Slot) :
    (Frame.holding values later).seen = values := by
  have hlater : (later.map fun s => (s.name, Frame.Cell.hidden s.value)).filter (·.2.live) =
      [] := by
    simp [Frame.Cell.hidden, List.filter_map, Function.comp_def]
  rw [Frame.seen, Frame.holding, List.filter_append, hlater, List.append_nil]
  simp [Frame.Cell.seen, List.filter_map, Function.comp_def]

/-- The frames are those of the open blocks: what can be seen in them are the variables in sight,
each with a value of its declared type. -/
inductive Context.Holds : Context → Frames → Prop
  | nil : Context.Holds [] []
  | cons {o : Open} {ctx : Context} {f : Frame} {frames : Frames} :
      List.Forall₂ (fun slot entry =>
        entry.1 = slot.name ∧ entry.2.HasType (Context.type? (o :: ctx)) slot.ty) o.slots f.seen →
      Context.Holds ctx frames → Context.Holds (o :: ctx) (f :: frames)

/-- If record names are fresh, frames with the layouts of the scopes have values of the declared
types. -/
theorem Frames.Fits.holds {fresh : Prop} {ctx : Context} {Γ : Scopes} {frames : Frames}
    (hfresh : fresh) (hstack : Stack fresh ctx Γ) (h : Frames.Fits ctx Γ frames) :
    ctx.Holds frames := by
  induction hstack generalizing frames with
  | nil =>
    obtain ⟨env, henv, rfl⟩ := h
    cases henv with
    | nil => exact .nil
  | @cons o ctx scope outer hstack hopens hbefore hafter ih =>
    have hfull : Stack fresh (o :: ctx) (scope :: outer) := .cons hstack hopens hbefore hafter
    have hΓ := hfull.settled hfresh
    have houter := ih h.leave
    obtain ⟨env, henv, rfl⟩ := h
    cases henv with
    | cons hscope hrest =>
      refine .cons ?_ houter
      rw [Frame.seen_holding, Open.slots_eq hopens hbefore hafter]
      have hknown := hΓ.coherent scope List.mem_cons_self
      refine ((List.forall₂_and_left _ _).2 ⟨hknown, hscope⟩).imp ?_
      rintro slot entry ⟨hslot, hname, hlayout⟩
      have htype := (hslot.hasType_iff
        (fun hfields => hΓ.leaves.of_type? hfields) entry.2).2 hlayout
      exact ⟨hname, htype.mono fun hfields => hfull.type?_eq_some hfresh hfields⟩

end BindScript
