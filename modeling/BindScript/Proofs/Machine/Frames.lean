/-
**Frames and variables.**

A frame holds the variables of its block in the order of their declarations: those that have been
declared come first and can be seen, those whose declaration is still to come follow.  So the frames
of the machine are given by the variables in sight and, for every open block, by the slots that come
later; and what the machine does with names is what the variables in sight do.

Main results:

* `Frames.read_holding`, `Frames.write_holding` — reading and writing places;
* `Frames.declare_holding` — the next declaration;
* `Frame.ofSlots_eq` — the frame of a block that is entered.
-/

import BindScript.Proofs.Semantics
import BindScript.Proofs.Table
import BindScript.Proofs.Text.Search

namespace BindScript

/-! ### Names -/

variable {p : Place}

/-- The full name of a place is cut into its variable and its path. -/
theorem splitName_fullName (h : '.' ∉ p.name.toList) : splitName p.fullName = (p.name, p.path) := by
  unfold splitName Place.fullName
  cases p.path with
  | none => simp [Text.cutAt?_eq_none h]
  | some path =>
    have hcut : Text.cutAt? '.' (p.name ++ "." ++ path).toList =
        some (p.name.toList, path.toList) := by
      have := Text.cutAt?_append h path.toList
      simpa using this
    rw [hcut]
    simp

/-! ### Frames -/

/-- The variables that a block begins with, if its bound slots come first. -/
theorem boundValues_eq {slots bound later : List Slot} (hslots : slots = bound ++ later)
    (hbound : ∀ s ∈ bound, s.bound = true) (hlater : ∀ s ∈ later, s.bound = false) :
    boundValues slots = bound.map fun s => (s.name, s.value) := by
  rw [boundValues, hslots, List.filter_append, List.filter_eq_self.2 hbound,
    List.filter_eq_nil_iff.2 (by simpa using hlater), List.append_nil]

namespace Frame

/-- A variable in sight. -/
def Cell.seen (v : Value) : Cell := ⟨v, true⟩

/-- A variable whose declaration is still to come. -/
def Cell.hidden (v : Value) : Cell := ⟨v, false⟩

/-- The frame that holds values for the variables in sight, and the slots that come later. -/
def holding (values : Table Value) (later : List Slot) : Frame :=
  values.map (fun e => (e.1, Cell.seen e.2)) ++ later.map fun s => (s.name, Cell.hidden s.value)

theorem lookup_later (later : List Slot) (name : String) :
    (List.lookup name (later.map fun s => (s.name, Cell.hidden s.value))).filter (·.live) =
      none := by
  cases h : List.lookup name (later.map fun s => (s.name, Cell.hidden s.value)) with
  | none => rfl
  | some c =>
    obtain ⟨s, -, heq⟩ := List.mem_map.1 (Table.mem_of_lookup h)
    obtain rfl : _ = c := (Prod.mk.inj heq).2
    rfl

theorem live?_holding (values : Table Value) (later : List Slot) (name : String) :
    (holding values later).live? name = (values.lookup name).map Cell.seen := by
  unfold live? holding
  rw [List.lookup_append, Table.lookup_map]
  cases values.lookup name with
  | none => simpa using lookup_later later name
  | some v => simp [Cell.seen]

theorem replace_holding {values : Table Value} {name : String} {old : Value}
    (h : values.lookup name = some old) (later : List Slot) (new : Value) :
    Table.replace name (fun c => { c with value := new }) (holding values later) =
      holding (Table.replace name (fun _ => new) values) later := by
  unfold holding
  rw [Table.replace_append_left (a := Cell.seen old) (by rw [Table.lookup_map, h]; rfl),
    Table.replace_map Cell.seen _ (fun _ => new) fun _ => rfl]

/-- The frame of a block that is entered: its bound slots can be seen, the others come later. -/
theorem ofSlots_eq {slots bound later : List Slot} (hslots : slots = bound ++ later)
    (hnames : (slots.map (·.name)).Nodup) (hbound : ∀ s ∈ bound, s.bound = true)
    (hlater : ∀ s ∈ later, s.bound = false) :
    Frame.ofSlots slots = holding (boundValues slots) later := by
  have hlist : ∀ ss : List Slot, (∀ s ∈ ss, s.bound = true) →
      ss.map (fun s => (s.name, (⟨s.value, s.bound⟩ : Cell))) =
        (ss.map fun s => (s.name, s.value)).map fun e => (e.1, Cell.seen e.2) := by
    intro ss hss
    rw [List.map_map]
    refine List.map_congr_left fun s hs => ?_
    simp [hss s hs, Cell.seen]
  have hrest : later.map (fun s => (s.name, (⟨s.value, s.bound⟩ : Cell))) =
      later.map fun s => (s.name, Cell.hidden s.value) :=
    List.map_congr_left fun s hs => by rw [hlater s hs, Cell.hidden]
  rw [Frame.ofSlots, Table.ofList_eq]
  · rw [boundValues_eq hslots hbound hlater, holding, hslots, List.map_append, hlist bound hbound,
      hrest]
  · simpa [List.map_map, Function.comp_def] using hnames

end Frame

namespace Frames

/-- The frames that hold values for the variables in sight, and for each of them the slots that come
later. -/
def holding : Env → List (List Slot) → Frames
  | [], _ => []
  | values :: env, laters => Frame.holding values (laters.headD []) :: holding env laters.tail

theorem holding_cons (values : Table Value) (env : Env) (later : List Slot)
    (laters : List (List Slot)) :
    holding (values :: env) (later :: laters) = Frame.holding values later :: holding env laters :=
  rfl

theorem find?_holding (env : Env) (laters : List (List Slot)) (name : String) :
    find? (holding env laters) name = (env.lookup? name).map Frame.Cell.seen := by
  induction env generalizing laters with
  | nil => rfl
  | cons values env ih =>
    have ih := ih laters.tail
    unfold find? Env.lookup? at ih ⊢
    rw [holding, List.findSome?_cons, List.findSome?_cons, Frame.live?_holding, ih]
    cases values.lookup name <;> rfl

theorem update?_holding (name : String) (change : Value → Option Value) (env : Env)
    (laters : List (List Slot)) :
    update? name change (holding env laters) =
      (Env.update? name change env).map fun env => holding env laters := by
  induction env generalizing laters with
  | nil => rfl
  | cons values env ih =>
    rw [holding, update?, Env.update?, Frame.live?_holding]
    cases hlookup : values.lookup name with
    | none =>
      simp only [Option.map_none, ih]
      cases Env.update? name change env <;> rfl
    | some old =>
      simp only [Option.map_some, Frame.Cell.seen]
      cases change old with
      | none => rfl
      | some new => simp [Frame.replace_holding hlookup, holding]

theorem read_holding (h : '.' ∉ p.name.toList) (env : Env) (laters : List (List Slot)) :
    read (holding env laters) p.fullName = env.read p := by
  unfold read Env.read
  rw [splitName_fullName h]
  simp only [find?_holding]
  cases env.lookup? p.name <;> rfl

theorem write_holding (h : '.' ∉ p.name.toList) (env : Env) (laters : List (List Slot))
    (v : Value) :
    write (holding env laters) p.fullName v = (env.write p v).map
      fun env => holding env laters := by
  unfold write Env.write
  rw [splitName_fullName h]
  simp only [update?_holding]
  cases Env.update? p.name (Value.withLeaf? p.path v) env <;> rfl

/-- A declaration brings the next of the later slots into sight. -/
theorem declare_holding {values : Table Value} {slot : Slot} (h : values.lookup slot.name = none)
    (env : Env) (later : List Slot) (laters : List (List Slot)) (v : Option Value) :
    declare (holding (values :: env) ((slot :: later) :: laters)) slot.name v =
      .ok (holding ((values ++ [(slot.name, v.getD slot.value)]) :: env) (later :: laters)) := by
  have hsight : List.lookup slot.name (values.map fun e => (e.1, Frame.Cell.seen e.2)) =
      none := by
    rw [Table.lookup_map, h]
    rfl
  have hlookup : List.lookup slot.name (Frame.holding values (slot :: later)) =
      some (Frame.Cell.hidden slot.value) := by
    rw [Frame.holding, List.lookup_append, hsight]
    simp
  rw [holding_cons, declare, hlookup]
  simp only [holding_cons]
  rw [Frame.holding, Table.replace_append_right hsight, Frame.holding]
  simp [Table.replace, Frame.Cell.seen, Frame.Cell.hidden]

end Frames

end BindScript
