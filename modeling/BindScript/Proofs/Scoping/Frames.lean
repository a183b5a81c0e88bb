/-
**Frames and the blocks that are open.**

Where a variable is found depends on names only: on the names that the slots of each frame have, and
on whether they can be seen.  This much of a frame is its header.  Assignments keep the headers of
all frames, a declaration marks one name of the innermost one, and entering and leaving a block adds
and takes away a header.  Open blocks have headers as well: of the names of a block those can be
seen that are bound or whose declaration has been passed.  When the two agree, names are found in
the frames at the levels at which they are found in the scopes.  What the values are does not matter
for this.

Main results:

* `Frames.Follow.liveNames_eq` — **the names in sight are those of the scopes**, level by level;
* `Frames.Follow.resolves` — **a variable in sight is found where it was declared**.
-/

import BindScript.Proofs.Machine.Frames
import BindScript.Proofs.Soundness.Scopes

namespace BindScript

/-! ### Headers -/

/-- The names of a frame, each with whether it can be seen. -/
def Frame.header (f : Frame) : Table Bool := f.map fun e => (e.1, e.2.live)

/-- The names of a frame that can be seen. -/
def Frame.liveNames (f : Frame) : List String := (f.filter (·.2.live)).map Prod.fst

/-- The names of an open block, each with whether it is bound or its declaration has been passed. -/
def Open.header (o : Open) : Table Bool :=
  o.block.slots.map fun s => (s.name, s.bound || (o.before.flatMap Stmt.declares).contains s.name)

/-- The names of a header that are marked. -/
def marked (header : Table Bool) : List String := (header.filter (·.2)).map Prod.fst

theorem Frame.marked_header (f : Frame) : marked f.header = f.liveNames := by
  rw [marked, Frame.header, List.filter_map, List.map_map]
  rfl

theorem Open.marked_header (o : Open) : marked o.header = o.slots.map (·.name) := by
  rw [marked, Open.header, List.filter_map, List.map_map]
  rfl

theorem Frame.names_header (f : Frame) : f.header.map Prod.fst = f.map Prod.fst := by
  rw [Frame.header, List.map_map]
  rfl

theorem Open.names_header (o : Open) : o.header.map Prod.fst = o.block.slots.map (·.name) := by
  rw [Open.header, List.map_map]
  rfl

/-- If all names of a frame are different, those that can be seen are found. -/
theorem Frame.isSome_live? {f : Frame} (h : (f.map Prod.fst).Nodup) (name : String) :
    (f.live? name).isSome = decide (name ∈ f.liveNames) := by
  rw [Bool.eq_iff_iff, decide_eq_true_iff, Option.isSome_iff_exists]
  constructor
  · rintro ⟨c, hc⟩
    obtain ⟨hlookup, hlive⟩ := Option.filter_eq_some_iff.1 hc
    exact List.mem_map.2 ⟨(name, c), List.mem_filter.2 ⟨Table.mem_of_lookup hlookup, hlive⟩, rfl⟩
  · intro hname
    obtain ⟨⟨n, c⟩, hmem, rfl⟩ := List.mem_map.1 hname
    obtain ⟨hentry, hlive⟩ := List.mem_filter.1 hmem
    exact ⟨c, Option.filter_eq_some_iff.2 ⟨Table.lookup_of_mem h hentry, hlive⟩⟩

theorem Scope.isSome_slot? (s : Scope) (name : String) :
    (s.slot? name).isSome = decide (name ∈ s.slots.map (·.name)) := by
  rw [Bool.eq_iff_iff, decide_eq_true_iff, Scope.slot?, List.find?_isSome, List.mem_map]
  simp

/-! ### What becomes of headers -/

variable {b : Block} {before rest : List Stmt} {s : Stmt} {change : Value → Option Value}
    {v : Value} {o : Open}

/-- A statement that declares nothing leaves the header of its block. -/
theorem Open.header_next (split : b.statements = before ++ s :: rest)
    (split' : b.statements = (before ++ [s]) ++ rest) (hs : s.declares = []) :
    Open.header ⟨b, before ++ [s], rest, split'⟩ = Open.header ⟨b, before, s :: rest, split⟩ := by
  simp [Open.header, List.flatMap_append, hs]

/-- A declaration marks its name in the header of its block. -/
theorem Open.header_declare {name : String} (split : b.statements = before ++ s :: rest)
    (split' : b.statements = (before ++ [s]) ++ rest) (hs : s.declares = [name])
    (hnames : (b.slots.map (·.name)).Nodup) :
    Open.header ⟨b, before ++ [s], rest, split'⟩ =
      Table.replace name (fun _ => true) (Open.header ⟨b, before, s :: rest, split⟩) := by
  rw [Table.replace_eq_map (by rw [Open.names_header]; exact hnames), Open.header, Open.header,
    List.map_map]
  refine List.map_congr_left fun slot _ => ?_
  by_cases hname : slot.name = name
  · simp [hname, List.flatMap_append, hs]
  · simp [hname, List.flatMap_append, hs]

namespace Frames

variable {frames frames' : Frames} {name : String}

theorem headers_update? (h : update? name change frames = some frames') :
    frames'.map Frame.header = frames.map Frame.header := by
  induction frames generalizing frames' with
  | nil => simp [update?] at h
  | cons f outer ih =>
    rw [update?] at h
    split at h
    · obtain ⟨v, -, rfl⟩ := Option.map_eq_some_iff.1 h
      have hheader : Frame.header (Table.replace name (fun c => { c with value := v }) f) =
        f.header := by
        refine Table.map_replace_of_forall Frame.Cell.live ?_ f
        exact fun _ => rfl
      rw [List.map_cons, List.map_cons, hheader]
    · obtain ⟨outer', houter, rfl⟩ := Option.map_eq_some_iff.1 h
      rw [List.map_cons, List.map_cons, ih houter]

theorem write_eq_ok (h : frames.write name v = .ok frames') :
    update? (splitName name).1 (Value.withLeaf? (splitName name).2 v) frames = some frames' := by
  simp only [write] at h
  split at h
  · rename_i hupdate
    rw [hupdate, Except.ok.inj h]
  · cases h

theorem headers_write (h : frames.write name v = .ok frames') :
    frames'.map Frame.header = frames.map Frame.header :=
  headers_update? (write_eq_ok h)

/-! ### Levels -/

/-- The level at which a name is found in the frames, counted from the innermost one. -/
def home? (frames : Frames) (name : String) : Option Nat :=
  frames.findIdx? fun f => (Frame.live? f name).isSome

end Frames

/-- The level at which a name is found in the scopes, counted from the innermost one. -/
def Scopes.home? (Γ : Scopes) (name : String) : Option Nat :=
  Γ.findIdx? fun s => (s.slot? name).isSome

theorem exists_findIdx?_of_findSome? {α β : Type} {l : List α} {f : α → Option β} {b : β}
    (h : l.findSome? f = some b) :
    ∃ i a, l.findIdx? (fun x => (f x).isSome) = some i ∧ l[i]? = some a ∧ f a = some b := by
  induction l with
  | nil => simp at h
  | cons x l ih =>
    rw [List.findSome?_cons] at h
    cases hx : f x with
    | some c =>
      obtain rfl : c = b := by simpa [hx] using h
      exact ⟨0, x, by simp [List.findIdx?_cons, hx], rfl, hx⟩
    | none =>
      rw [hx] at h
      obtain ⟨i, a, hi, ha, hb⟩ := ih h
      exact ⟨i + 1, a, by simp [List.findIdx?_cons, hx, hi], by simpa using ha, hb⟩

namespace Frames

variable {frames frames' : Frames} {name : String}

/-- A change goes to the frame in which the name is found, and nowhere else. -/
theorem update?_at_home (h : update? name change frames = some frames') :
    ∃ i f c v, frames.home? name = some i ∧ frames[i]? = some f ∧ Frame.live? f name = some c ∧
      change c.value = some v ∧
      frames' = frames.set i (Table.replace name (fun c => { c with value := v }) f) := by
  induction frames generalizing frames' with
  | nil => simp [update?] at h
  | cons f outer ih =>
    rw [update?] at h
    split at h
    · rename_i c hlive
      obtain ⟨v, hv, rfl⟩ := Option.map_eq_some_iff.1 h
      exact ⟨0, f, c, v, by simp [home?, List.findIdx?_cons, hlive], rfl, hlive, hv, rfl⟩
    · rename_i hlive
      obtain ⟨outer', houter, rfl⟩ := Option.map_eq_some_iff.1 h
      obtain ⟨i, g, c, v, hhome, hg, hc, hv, rfl⟩ := ih houter
      refine ⟨i + 1, g, c, v, ?_, by simpa using hg, hc, hv, rfl⟩
      rw [home?] at hhome ⊢
      simp [List.findIdx?_cons, hlive, hhome]

/-- A change that is always possible is made if the name is found. -/
theorem exists_update? (hchange : ∀ v, (change v).isSome = true) {c : Frame.Cell}
    (h : frames.find? name = some c) : ∃ frames', update? name change frames = some frames' := by
  induction frames with
  | nil => simp [find?] at h
  | cons f outer ih =>
    rw [update?]
    cases hlive : Frame.live? f name with
    | some c =>
      obtain ⟨v, hv⟩ := Option.isSome_iff_exists.1 (hchange c.value)
      exact ⟨_, by simp only [hv]; rfl⟩
    | none =>
      rw [find?, List.findSome?_cons, hlive] at h
      obtain ⟨outer', houter⟩ := ih h
      exact ⟨_, by simp only [houter]; rfl⟩

/-! ### Frames of open blocks -/

/-- The frames follow the open blocks: their headers are the same. -/
def Follow (ctx : Context) (frames : Frames) : Prop := frames.map Frame.header = ctx.map Open.header

/-- The scopes and the frames find a name at one level: the scopes the declaration of a variable,
the frames its cell. -/
def Resolves (Γ : Scopes) (frames : Frames) (name : String) : Prop :=
  ∃ i scope slot f c, Γ.home? name = some i ∧ Γ[i]? = some scope ∧ scope.slot? name = some slot ∧
    Γ.slot? name = some slot ∧ frames.home? name = some i ∧ frames[i]? = some f ∧
    Frame.live? f name = some c ∧ frames.find? name = some c

end Frames

variable {fresh : Prop} {ctx : Context} {Γ Δ : Scopes}

/-- The scopes show the open blocks: they have the variables that are in sight, level by level. The
names of each block are different. -/
structure Scopes.Show (ctx : Context) (Γ : Scopes) : Prop where
  slots : Γ.map (·.slots) = ctx.map Open.slots
  distinct : ∀ o ∈ ctx, (o.block.slots.map (·.name)).Nodup

theorem Stack.shows (h : Stack fresh ctx Γ) : Γ.Show ctx := by
  refine ⟨h.slots_eq, ?_⟩
  induction h with
  | nil => simp
  | cons _ hopens hbefore hafter ih =>
    intro o ho
    rcases List.mem_cons.1 ho with rfl | ho
    · exact hafter.distinct (hbefore.distinct hopens.distinct)
    · exact ih o ho

/-- Scopes that show the same blocks find the same variables. -/
theorem Scopes.Show.slot?_eq (h : Γ.Show ctx) (h' : Δ.Show ctx) (name : String) :
    Γ.slot? name = Δ.slot? name := by
  have hslots : ∀ Γ : Scopes, Γ.slot? name =
      (Γ.map (·.slots)).findSome? fun slots => slots.find? fun s => s.name == name := by
    intro Γ
    rw [List.findSome?_map]
    rfl
  rw [hslots, hslots, h.slots, h'.slots]

/-- A variable that is about to be declared is one of its block, and not in sight. -/
theorem Stack.waits (h : Stack fresh (o :: ctx) Γ) {name : String} (hafter : o.after = s :: rest)
    (hs : s.declares = [name]) : (name, false) ∈ o.header := by
  cases h with
  | @cons _ _ scope outer hstack hopens hbefore hrest =>
    have hslots : o.slots = scope.slots := Open.slots_eq hopens hbefore hrest
    have hdistinct : (o.block.slots.map (·.name)).Nodup :=
      hrest.distinct (hbefore.distinct hopens.distinct)
    obtain ⟨more, types, hgrown, hunbound, hnames⟩ := hrest.extends
    obtain ⟨hall, -⟩ : o.block.slots = scope.slots ++ more ∧
        o.block.types = scope.types ++ types := by
      simpa [Scopes.extend] using hgrown
    have hname : name ∈ more.map (·.name) := by
      rw [hnames, hafter, List.flatMap_cons, hs]
      simp
    obtain ⟨slot, hslot, rfl⟩ := List.mem_map.1 hname
    have hmem : slot ∈ o.block.slots := by
      rw [hall]
      exact List.mem_append_right _ hslot
    -- were it in sight, its name would stand twice in the block
    have hhidden : (slot.bound || (o.before.flatMap Stmt.declares).contains slot.name) = false := by
      refine Bool.eq_false_iff.2 fun hseen => ?_
      have hsight : slot ∈ scope.slots := by
        rw [← hslots]
        exact List.mem_filter.2 ⟨hmem, hseen⟩
      rw [hall, List.map_append] at hdistinct
      exact (List.nodup_append.1 hdistinct).2.2 _ (List.mem_map_of_mem hsight) _
        (List.mem_map_of_mem hslot) rfl
    exact List.mem_map.2 ⟨slot, hmem, by rw [hhidden]⟩

namespace Frames.Follow

variable {frames frames' : Frames} {name : String}

theorem nil : Follow [] [] := rfl

theorem exists_cons (h : Follow (o :: ctx) frames) :
    ∃ f outer, frames = f :: outer ∧ f.header = o.header ∧ Follow ctx outer := by
  cases frames with
  | nil => simp [Follow] at h
  | cons f outer =>
    obtain ⟨hf, houter⟩ := List.cons.inj h
    exact ⟨f, outer, rfl, hf, houter⟩

theorem cons {f : Frame} (hf : f.header = o.header) (h : Follow ctx frames) :
    Follow (o :: ctx) (f :: frames) := by
  rw [Follow, List.map_cons, List.map_cons, hf, h]

theorem leave (h : Follow (o :: ctx) frames) : Follow ctx frames.tail := by
  obtain ⟨f, outer, rfl, -, houter⟩ := h.exists_cons
  exact houter

theorem enter (h : Follow ctx frames) (hnames : (b.slots.map (·.name)).Nodup) :
    Follow (⟨b, [], b.statements, rfl⟩ :: ctx) (Frame.ofSlots b.slots :: frames) := by
  refine h.cons ?_
  rw [Frame.ofSlots, Table.ofList_eq (by simpa [List.map_map, Function.comp_def] using hnames),
    Frame.header, Open.header, List.map_map]
  refine List.map_congr_left fun slot _ => ?_
  simp

theorem write (h : Follow ctx frames) (hwrite : frames.write name v = .ok frames') :
    Follow ctx frames' := (headers_write hwrite).trans h

theorem next {split : b.statements = before ++ s :: rest}
    (h : Follow (⟨b, before, s :: rest, split⟩ :: ctx) frames)
    (split' : b.statements = (before ++ [s]) ++ rest) (hs : s.declares = []) :
      Follow (⟨b, before ++ [s], rest, split'⟩ :: ctx) frames := by
  rw [Follow, List.map_cons, Open.header_next split split' hs]
  exact h

/-- The slot of a variable that is about to be declared waits in the innermost frame. -/
theorem waits {o : Open} (hstack : Stack fresh (o :: ctx) Γ) (h : Follow (o :: ctx) frames)
    {s : Stmt} {rest : List Stmt} (hafter : o.after = s :: rest) (hs : s.declares = [name]) :
    ∃ f outer c, frames = f :: outer ∧ f.lookup name = some c ∧ c.live = false := by
  obtain ⟨f, outer, rfl, hheader, -⟩ := h.exists_cons
  have hmem := hstack.waits hafter hs
  have hnames : (f.header.map Prod.fst).Nodup := by
    rw [hheader, Open.names_header]
    exact hstack.shows.distinct o (by simp)
  rw [← hheader] at hmem
  have hlookup := Table.lookup_of_mem hnames hmem
  rw [Frame.header, Table.lookup_map] at hlookup
  obtain ⟨c, hc, hlive⟩ := Option.map_eq_some_iff.1 hlookup
  exact ⟨f, outer, c, rfl, hc, hlive⟩

theorem declare {b : Block} {before rest : List Stmt} {s : Stmt}
    {split : b.statements = before ++ s :: rest}
    (hstack : Stack fresh (⟨b, before, s :: rest, split⟩ :: ctx) Γ)
    (h : Follow (⟨b, before, s :: rest, split⟩ :: ctx) frames)
    (split' : b.statements = (before ++ [s]) ++ rest) (hs : s.declares = [name]) {v : Option Value}
    (hdeclare : frames.declare name v = .ok frames') :
    Follow (⟨b, before ++ [s], rest, split'⟩ :: ctx) frames' := by
  obtain ⟨f, outer, c, rfl, hc, -⟩ := h.waits hstack rfl hs
  obtain ⟨hheader, houter⟩ := List.cons.inj h
  rw [Frames.declare, hc] at hdeclare
  cases hdeclare
  refine cons ?_ houter
  rw [Open.header_declare split split' hs (hstack.shows.distinct _ List.mem_cons_self), ← hheader]
  exact (Table.replace_map (·.live) (fun _ => true)
    (fun _ => ⟨v.getD c.value, true⟩) (fun _ => rfl) f).symm

/-! ### Names in sight -/

/-- **The names in sight are those of the scopes**, level by level. -/
theorem liveNames_eq (hΓ : Γ.Show ctx) (h : Follow ctx frames) :
    frames.map Frame.liveNames = Γ.map fun s => s.slots.map (·.name) := by
  calc frames.map Frame.liveNames
      = (frames.map Frame.header).map marked := by
        rw [List.map_map]
        exact List.map_congr_left fun f _ => f.marked_header.symm
    _ = (ctx.map Open.slots).map fun slots => slots.map (·.name) := by
        rw [h, List.map_map, List.map_map]
        exact List.map_congr_left fun o _ => o.marked_header
    _ = Γ.map fun s => s.slots.map (·.name) := by
        rw [← hΓ.slots, List.map_map]
        rfl

theorem distinct (hΓ : Γ.Show ctx) (h : Follow ctx frames) :
    ∀ f ∈ frames, (f.map Prod.fst).Nodup := by
  intro f hf
  have hheader : f.header ∈ ctx.map Open.header := by
    rw [← h]
    exact List.mem_map_of_mem hf
  obtain ⟨o, ho, heq⟩ := List.mem_map.1 hheader
  rw [← Frame.names_header, ← heq, Open.names_header]
  exact hΓ.distinct o ho

/-- Whether a name is found at a level is the same for frames and scopes. -/
theorem sight_eq (hΓ : Γ.Show ctx) (h : Follow ctx frames) (name : String) :
    frames.map (fun f => (Frame.live? f name).isSome) = Γ.map fun s => (s.slot? name).isSome := by
  calc frames.map (fun f => (Frame.live? f name).isSome)
      = (frames.map Frame.liveNames).map fun names => decide (name ∈ names) := by
        rw [List.map_map]
        exact List.map_congr_left fun f hf => Frame.isSome_live? (h.distinct hΓ f hf) name
    _ = Γ.map fun s => (s.slot? name).isSome := by
        rw [h.liveNames_eq hΓ, List.map_map]
        exact List.map_congr_left fun s _ => (s.isSome_slot? name).symm

theorem home?_eq (hΓ : Γ.Show ctx) (h : Follow ctx frames) (name : String) :
    frames.home? name = Γ.home? name := by
  have hframes : frames.home? name =
      (frames.map fun f => (Frame.live? f name).isSome).findIdx? id := by
    rw [List.findIdx?_map]
    rfl
  have hscopes : Γ.home? name = (Γ.map fun s => (s.slot? name).isSome).findIdx? id := by
    rw [List.findIdx?_map]
    rfl
  rw [hframes, hscopes, h.sight_eq hΓ]

/-- **A variable in sight is found where it was declared.** -/
theorem resolves (hΓ : Γ.Show ctx) (h : Follow ctx frames) {slot : Slot}
    (hslot : Γ.slot? name = some slot) : Resolves Γ frames name := by
  obtain ⟨i, scope, hi, hscope, hfound⟩ := exists_findIdx?_of_findSome? hslot
  have hhome : frames.home? name = some i := (h.home?_eq hΓ name).trans hi
  have hsome : (frames.find? name).isSome = true := by
    rw [Frames.find?, List.findSome?_isSome_iff]
    obtain ⟨hlt, hlive, -⟩ := List.findIdx?_eq_some_iff_getElem.1 hhome
    exact ⟨_, List.getElem_mem hlt, hlive⟩
  obtain ⟨c, hc⟩ := Option.isSome_iff_exists.1 hsome
  obtain ⟨j, f, hj, hf, hlive⟩ := exists_findIdx?_of_findSome? hc
  obtain rfl : i = j := Option.some.inj (hhome.symm.trans hj)
  exact ⟨i, scope, slot, f, c, hi, hscope, hfound, hslot, hhome, hf, hlive, hc⟩

end Frames.Follow

end BindScript
