/-
**The tagged form of values and slots is read back.**

A record in the tagged form is an object in an object, so every level of records takes two levels of
JSON.  A reader that stops at some depth of JSON reads a value exactly if its records are nested at
most half as deep.

Main results:

* `readSlots?_compact`, `readSlots?_compact_eq_none` — **the slots of a block are read
  back exactly if no record in them is nested deeper than 62 levels**.
-/

import BindScript.Code.Text
import BindScript.Proofs.Json.Reading
import BindScript.Proofs.Table

namespace BindScript

open Json (Draft)

namespace Value

mutual

/-- How deep the records of a value are nested. -/
def nesting : Value → Nat
  | .record leaves => leavesNesting leaves + 1
  | _ => 0

def leavesNesting : List (String × Value) → Nat
  | [] => 0
  | (_, v) :: rest => max v.nesting (leavesNesting rest)

end

mutual

/-- The doubles in a value. -/
def floats : Value → List Float
  | .float x => [x]
  | .record leaves => leavesFloats leaves
  | _ => []

def leavesFloats : List (String × Value) → List Float
  | [] => []
  | (_, v) :: rest => v.floats ++ leavesFloats rest

end

mutual

/-- No record in a value has two leaves under one path. -/
def DistinctPaths : Value → Prop
  | .record leaves => (leaves.map Prod.fst).Nodup ∧ LeavesDistinct leaves
  | _ => True

/-- No record in leaves has two leaves under one path. -/
def LeavesDistinct : List (String × Value) → Prop
  | [] => True
  | (_, v) :: rest => v.DistinctPaths ∧ LeavesDistinct rest

end

/-! ### Writing -/

mutual

theorem toTagged_readsBack (v : Value) (hv : ∀ x ∈ v.floats, (Json.Number.float x).ReadsBack) :
    v.toTagged.ReadsBack := by
  cases v with
  | void | null => exact ⟨trivial, trivial⟩
  | string | bool => exact ⟨trivial, trivial, trivial⟩
  | int n =>
    have hn : (Json.Number.int n.toInt).ReadsBack :=
      Json.Number.readsBack_int n.le_toInt (Int.lt_trans n.toInt_lt (by decide))
    exact ⟨trivial, hn, trivial⟩
  | float x => exact ⟨trivial, hv x (by simp [floats]), trivial⟩
  | record leaves => exact ⟨trivial, leavesToTagged_readBack leaves hv, trivial⟩

theorem leavesToTagged_readBack (leaves : List (String × Value))
    (h : ∀ x ∈ leavesFloats leaves, (Json.Number.float x).ReadsBack) :
    Json.MembersReadBack (leavesToTagged leaves) := by
  match leaves with
  | [] => trivial
  | (path, v) :: rest =>
    rw [leavesFloats] at h
    exact ⟨toTagged_readsBack v fun x hx => h x (List.mem_append_left _ hx),
      leavesToTagged_readBack rest fun x hx => h x (List.mem_append_right _ hx)⟩

end

/-! ### Reading -/

theorem ofTaggedPart?_tagged (kept : Bool) (kind : String) (d : Draft) :
    ofTaggedPart? kept (.object [("kind", .string kind), ("value", d)]) =
      ofContent? kept kind d := by
  simp [ofTaggedPart?, kindOf?, Draft.caseName?, ofMembers?]

theorem draft_tagged (depth : Nat) (kind : Kind) (content : Json) :
    (tagged kind content).draft (depth + 1) =
      .object [("kind", .string kind.name), ("value", content.draft depth)] := rfl

mutual

/-- A tagged form gives its value if there are two levels for every level of records, and one for
the scalars in the innermost ones. -/
theorem ofTaggedPart?_draft (kept : Bool) (v : Value) (hv : v.DistinctPaths) (depth : Nat)
    (hdepth : 2 * v.nesting < depth) : ofTaggedPart? kept (v.toTagged.draft depth) = some v := by
  obtain ⟨depth, rfl⟩ : ∃ d, depth = d + 1 := ⟨depth - 1, by omega⟩
  cases v with
  | void | null =>
    simp [toTagged, Json.draft, Json.objectDraft, Json.draftMembers, ofTaggedPart?, kindOf?,
      Draft.caseName?, ofMembers?, ofKind?]
  | int n =>
    rw [toTagged, draft_tagged, ofTaggedPart?_tagged]
    simp [Json.draft, ofContent?, Kind.name, ofScalar?, Decimal.toInt64?_toInt]
  | float x | string s | bool b => rw [toTagged, draft_tagged, ofTaggedPart?_tagged]; rfl
  | record leaves =>
    rw [nesting] at hdepth
    obtain ⟨depth, rfl⟩ : ∃ d, depth = d + 1 := ⟨depth - 1, by omega⟩
    have hleaves := ofLeaves?_draft kept leaves hv.2 depth (by omega)
    rw [toTagged, draft_tagged, ofTaggedPart?_tagged, Json.draft, Json.objectDraft,
      Nat.add_sub_cancel, ofContent?, if_pos (by decide), hleaves, Option.map_some,
      Table.ofList_eq hv.1]

theorem ofLeaves?_draft (kept : Bool) (leaves : List (String × Value)) (h : LeavesDistinct leaves)
    (depth : Nat) (hdepth : 2 * leavesNesting leaves < depth) :
    ofLeaves? kept (Json.draftMembers depth (leavesToTagged leaves)) = some leaves := by
  match leaves with
  | [] => rfl
  | (path, v) :: rest =>
    rw [leavesNesting] at hdepth
    have hv := ofTaggedPart?_draft kept v h.1 depth (by omega)
    have hrest := ofLeaves?_draft kept rest h.2 depth (by omega)
    simp [leavesToTagged, Json.draftMembers, ofLeaves?, hv, hrest]

end

mutual

/-- A tagged form gives nothing if there are not two levels for every level of records. -/
theorem ofTaggedPart?_draft_eq_none (kept : Bool) (v : Value) (depth : Nat)
    (hdepth : depth < 2 * v.nesting) : ofTaggedPart? kept (v.toTagged.draft depth) = none := by
  cases v with
  | void | null | int | float | string | bool => exact absurd hdepth (Nat.not_lt_zero _)
  | record leaves =>
    rw [nesting] at hdepth
    match depth with
    | 0 => rfl
    | 1 => rw [toTagged, draft_tagged, ofTaggedPart?_tagged]; rfl
    | depth + 2 =>
      have hleaves := ofLeaves?_draft_eq_none kept leaves depth (by omega)
      rw [toTagged, draft_tagged, ofTaggedPart?_tagged, Json.draft, Json.objectDraft,
        Nat.add_sub_cancel, ofContent?, if_pos (by decide), hleaves, Option.map_none]

theorem ofLeaves?_draft_eq_none (kept : Bool) (leaves : List (String × Value)) (depth : Nat)
    (hdepth : depth < 2 * leavesNesting leaves) :
    ofLeaves? kept (Json.draftMembers depth (leavesToTagged leaves)) = none := by
  match leaves with
  | [] => exact absurd hdepth (Nat.not_lt_zero _)
  | (path, v) :: rest =>
    rw [leavesNesting] at hdepth
    rw [leavesToTagged, Json.draftMembers, ofLeaves?]
    by_cases hv : depth < 2 * v.nesting
    · rw [ofTaggedPart?_draft_eq_none kept v depth hv]
    · rw [ofLeaves?_draft_eq_none kept rest depth (by omega)]
      split
      · rename_i heq
        cases heq
      · rfl

end

end Value

/-! ### Slots -/

theorem Ty.ofDraft?_draft (ty : Ty) (depth : Nat) :
    Ty.ofDraft? (ty.toJson.draft (depth + 1)) = some ty := by
  cases ty with
  | void | int | float | string | bool => rfl
  | record name => rfl

theorem Slot.ofDraft?_draft (s : Slot) (depth : Nat) :
    Slot.ofDraft? (s.toJson.draft (depth + 2)) =
      (Value.ofTagged? (s.value.toTagged.draft (depth + 1))).map fun v =>
        { s with value := v } := by
  have hty := s.ty.ofDraft?_draft depth
  have hmembers : s.toJson.draft (depth + 2) = .object [("name", .string s.name),
      ("type", s.ty.toJson.draft (depth + 1)), ("value", s.value.toTagged.draft (depth + 1)),
      ("bound", .bool s.bound)] := rfl
  rw [hmembers, Slot.ofDraft?, if_pos (by simp [Draft.knownOnce])]
  simp only [Draft.field, List.lookup_cons, String.reduceBEq, Slot.ofParts?, Draft.string?, hty,
    Option.bind_eq_bind, Option.bind_some]
  cases Value.ofTagged? (s.value.toTagged.draft (depth + 1)) <;> rfl

/-- A slot whose doubles are read from their own texts in JSON, and whose records have no two leaves
under one path. -/
structure Slot.Plain (s : Slot) : Prop where
  /-- Doubles are read from their own texts. -/
  floats : ∀ x ∈ s.value.floats, (Json.Number.float x).ReadsBack
  /-- Paths differ. -/
  paths : s.value.DistinctPaths

theorem Slot.toJson_readsBack {s : Slot} (hs : s.Plain) : s.toJson.ReadsBack := by
  have hty : s.ty.toJson.ReadsBack := by
    cases s.ty with
    | void | int | float | string | bool => trivial
    | record name => exact ⟨trivial, trivial⟩
  exact ⟨trivial, hty, s.value.toTagged_readsBack hs.floats, trivial, trivial⟩

/-- A level of records takes two levels of JSON; the array and the slot take one each, and the
scalars in the innermost record one more. -/
theorem Slot.ofDraft?_draft_maxDepth {s : Slot} (hs : s.Plain) :
    Slot.ofDraft? (s.toJson.draft (Json.maxDepth - 1)) =
      if s.value.nesting ≤ 62 then some s else none := by
  rw [show Json.maxDepth - 1 = 124 + 2 from rfl, ofDraft?_draft]
  split
  · rw [Value.ofTagged?, Value.ofTaggedPart?_draft false s.value hs.paths _ (by omega)]
    rfl
  · rw [Value.ofTagged?, Value.ofTaggedPart?_draft_eq_none false s.value _ (by omega)]
    rfl

variable {slots : List Slot}

theorem readSlots?_compact_eq_mapM (h : ∀ s ∈ slots, s.Plain) :
    readSlots? (Json.array (slots.map Slot.toJson)).compact =
      slots.mapM fun s => if s.value.nesting ≤ 62 then some s else none := by
  have hreads : (Json.array (slots.map Slot.toJson)).ReadsBack := by
    change Json.ItemsReadBack (slots.map Slot.toJson)
    induction slots with
    | nil => trivial
    | cons s slots ih =>
      exact ⟨Slot.toJson_readsBack (h s List.mem_cons_self),
        ih fun t ht => h t (List.mem_cons_of_mem s ht)⟩
  rw [readSlots?, Json.readChars?_compact hreads]
  change (Json.draftItems (Json.maxDepth - 1) (slots.map Slot.toJson)).mapM Slot.ofDraft? = _
  clear hreads
  induction slots with
  | nil => rfl
  | cons s slots ih =>
    rw [List.map_cons, Json.draftItems, List.mapM_cons, List.mapM_cons,
      Slot.ofDraft?_draft_maxDepth (h s List.mem_cons_self),
      ih fun t ht => h t (List.mem_cons_of_mem s ht)]

/-- **Slots are read back if their records are not nested too deep.** -/
theorem readSlots?_compact (h : ∀ s ∈ slots, s.Plain)
    (hnesting : ∀ s ∈ slots, s.value.nesting ≤ 62) :
    readSlots? (Json.array (slots.map Slot.toJson)).compact = some slots := by
  rw [readSlots?_compact_eq_mapM h]
  clear h
  induction slots with
  | nil => rfl
  | cons s slots ih =>
    have hrest := ih fun t ht => hnesting t (List.mem_cons_of_mem s ht)
    simp [hnesting s List.mem_cons_self, hrest]

/-- One record that is nested too deep is enough for slots not to be read. -/
theorem readSlots?_compact_eq_none (h : ∀ s ∈ slots, s.Plain)
    (hnesting : ∃ s ∈ slots, 62 < s.value.nesting) :
    readSlots? (Json.array (slots.map Slot.toJson)).compact = none := by
  rw [readSlots?_compact_eq_mapM h]
  obtain ⟨deep, hmem, hdeep⟩ := hnesting
  clear h
  induction slots with
  | nil => cases hmem
  | cons s slots ih =>
    rcases List.mem_cons.1 hmem with rfl | hmem
    · simp [Nat.not_le.2 hdeep]
    · by_cases hs : s.value.nesting ≤ 62
      · simp [hs, ih hmem]
      · simp [hs]

end BindScript
