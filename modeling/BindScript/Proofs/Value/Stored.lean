/-
**What is read from tagged forms can be written again.**

The reader of JSON gives finite numbers and bounded nesting, and records are built with different
paths. So the slots of a block that was read, from whatever text, are of the kind that is read back
from its own text, if the doubles in them are.

Main results:

* `readSlots?_stored` — **so do slots**.
-/

import BindScript.Proofs.Decimal.Nearest
import BindScript.Proofs.Json.Depth
import BindScript.Proofs.Value.Tagged

namespace BindScript

open Json (Draft)

variable {leaves : List (String × Value)} {depth : Nat}

namespace Value

/-- A value whose records take so many levels of JSON, with finite doubles and different paths. -/
structure Stored (depth : Nat) (v : Value) : Prop where
  /-- Every level of records takes two levels. -/
  nesting : 2 * v.nesting ≤ depth
  /-- Doubles are finite. -/
  floats : ∀ x ∈ v.floats, x.isFinite = true
  /-- Paths differ. -/
  paths : v.DistinctPaths

/-! ### Records -/

theorem leavesNesting_le {n : Nat} (h : ∀ e ∈ leaves, e.2.nesting ≤ n) :
    leavesNesting leaves ≤ n := by
  induction leaves with
  | nil => exact Nat.zero_le n
  | cons e leaves ih =>
    exact Nat.max_le.2 ⟨h e List.mem_cons_self, ih fun e' he' => h e' (List.mem_cons_of_mem e he')⟩

theorem mem_leavesFloats {x : Float} (h : x ∈ leavesFloats leaves) :
    ∃ e ∈ leaves, x ∈ e.2.floats := by
  induction leaves with
  | nil => simp [leavesFloats] at h
  | cons e leaves ih =>
    rcases List.mem_append.1 h with hx | hx
    · exact ⟨e, List.mem_cons_self, hx⟩
    · obtain ⟨e', he', hx'⟩ := ih hx
      exact ⟨e', List.mem_cons_of_mem e he', hx'⟩

theorem leavesDistinct (h : ∀ e ∈ leaves, e.2.DistinctPaths) : LeavesDistinct leaves := by
  induction leaves with
  | nil => trivial
  | cons e leaves ih =>
    exact ⟨h e List.mem_cons_self, ih fun e' he' => h e' (List.mem_cons_of_mem e he')⟩

theorem stored_record (h : ∀ e ∈ leaves, e.2.Stored depth) :
    (record (Table.ofList leaves)).Stored (depth + 2) := by
  have hmem : ∀ e ∈ Table.ofList leaves, e.2.Stored depth :=
    fun e he => h e (Table.mem_of_mem_ofList he)
  have hnesting : leavesNesting (Table.ofList leaves) ≤ depth / 2 := by
    refine leavesNesting_le fun e he => ?_
    have := (hmem e he).nesting
    omega
  refine ⟨?_, fun x hx => ?_, Table.nodup_ofList leaves,
    leavesDistinct fun e he => (hmem e he).paths⟩
  · rw [Value.nesting]
    omega
  · obtain ⟨e, he, hx⟩ := mem_leavesFloats hx
    exact (hmem e he).floats x hx

/-! ### Tagged forms -/

theorem ofScalar?_stored {kind : String} {d : Draft} {v : Value} (h : ofScalar? kind d = some v)
    (hd : d.Within depth) (depth' : Nat) : v.Stored depth' := by
  unfold ofScalar? at h
  split at h
  case h_3 =>
    obtain ⟨n, -, rfl⟩ := Option.map_eq_some_iff.1 h
    exact ⟨Nat.zero_le _, by simp [Value.floats], trivial⟩
  case h_4 =>
    cases h
    refine ⟨Nat.zero_le _, fun x hx => ?_, trivial⟩
    obtain rfl := List.mem_singleton.1 hx
    exact Decimal.floatOfInt_isFinite _
  case h_5 =>
    cases h
    refine ⟨Nat.zero_le _, fun x hx => ?_, trivial⟩
    obtain rfl := List.mem_singleton.1 hx
    exact hd
  case h_8 => cases h
  all_goals
    cases h
    exact ⟨Nat.zero_le _, by simp [Value.floats], trivial⟩

theorem ofKind?_stored {kind : String} {v : Value} (h : ofKind? kind = some v) (depth : Nat) :
    v.Stored depth := by
  unfold ofKind? at h
  split at h
  case h_3 => cases h
  all_goals
    cases h
    exact ⟨Nat.zero_le _, by simp [Value.floats], trivial⟩

mutual

theorem ofTaggedPart?_stored {kept : Bool} {d : Draft} {v : Value}
    (h : ofTaggedPart? kept d = some v) {depth : Nat} (hd : d.Within depth) : v.Stored depth := by
  match d with
  | .object members =>
    rw [ofTaggedPart?] at h
    split at h
    · cases h
    · have hstored := ofMembers?_stored h hd.2
      rwa [Nat.sub_add_cancel hd.1] at hstored
  | .array [kind, content] =>
    rw [ofTaggedPart?] at h
    split at h
    · cases h
    · have hstored := ofContent?_stored h hd.2.2.1
      rwa [Nat.sub_add_cancel hd.1] at hstored
  | .array [] | .array [_] | .array (_ :: _ :: _ :: _) =>
    simp [ofTaggedPart?] at h
  | .unusable | .null | .bool _ | .number _ | .string _ =>
    simp [ofTaggedPart?] at h

theorem ofMembers?_stored {kept first : Bool} {kind : String} {members : List (String × Draft)}
    {v : Value} (h : ofMembers? kept first kind members = some v) {depth : Nat}
    (hmembers : Draft.MembersWithin depth members) : v.Stored (depth + 1) := by
  match members with
  | [] => exact ofKind?_stored h _
  | (name, d) :: rest =>
    rw [ofMembers?] at h
    split at h
    · split at h
      · cases h
      · exact ofContent?_stored h hmembers.1
    · exact ofMembers?_stored h hmembers.2

theorem ofContent?_stored {kept : Bool} {kind : String} {d : Draft} {v : Value}
    (h : ofContent? kept kind d = some v) {depth : Nat} (hd : d.Within depth) :
    v.Stored (depth + 1) := by
  match d with
  | .object members =>
    rw [ofContent?] at h
    split at h
    · obtain ⟨leaves, hleaves, rfl⟩ := Option.map_eq_some_iff.1 h
      have hstored := stored_record (ofLeaves?_stored hleaves hd.2)
      rwa [show depth - 1 + 2 = depth + 1 by have := hd.1; omega] at hstored
    · cases h
  | .unusable | .null | .bool _ | .number _ | .string _ | .array _ =>
    exact ofScalar?_stored (by simpa [ofContent?] using h) hd _

theorem ofLeaves?_stored {kept : Bool} {members : List (String × Draft)}
    {leaves : List (String × Value)} (h : ofLeaves? kept members = some leaves) {depth : Nat}
    (hmembers : Draft.MembersWithin depth members) : ∀ e ∈ leaves, e.2.Stored depth := by
  match members with
  | [] =>
    cases h
    simp
  | (path, d) :: rest =>
    rw [ofLeaves?] at h
    split at h
    · rename_i v leaves' hv hrest
      cases h
      intro e he
      rcases List.mem_cons.1 he with rfl | he
      · exact ofTaggedPart?_stored hv hmembers.1
      · exact ofLeaves?_stored hrest hmembers.2 e he
    · cases h

end

end Value

/-! ### Slots -/

theorem Slot.ofParts?_stored {name ty value : Draft} {bound : Option Draft} {s : Slot}
    (h : Slot.ofParts? name ty value bound = some s) (hd : value.Within depth) :
    s.value.Stored depth := by
  unfold Slot.ofParts? at h
  simp only [Option.bind_eq_bind, Option.bind_eq_some_iff] at h
  obtain ⟨_, -, _, -, value, hvalue, hbound⟩ := h
  have hstored := Value.ofTaggedPart?_stored hvalue hd
  split at hbound
  · cases hbound
    exact hstored
  · cases hbound
    exact hstored
  · cases hbound

theorem Slot.ofDraft?_stored {d : Draft} {s : Slot} (h : Slot.ofDraft? d = some s)
    (hd : d.Within depth) : s.value.Stored (depth - 1) := by
  unfold Slot.ofDraft? at h
  split at h
  · split at h
    · simp only [Option.bind_eq_bind, Option.bind_eq_some_iff] at h
      obtain ⟨_, -, _, -, content, hcontent, hparts⟩ := h
      refine ofParts?_stored hparts ?_
      exact Draft.within_of_mem_members hd.2 (Table.mem_of_lookup hcontent)
    · cases h
  · exact ofParts?_stored h hd.2.2.2.1
  · exact ofParts?_stored h hd.2.2.2.1
  · cases h

theorem mem_of_mapM_some {α β : Type} {f : α → Option β} {as : List α} {bs : List β}
    (h : as.mapM f = some bs) {b : β} (hb : b ∈ bs) : ∃ a ∈ as, f a = some b := by
  induction as generalizing bs with
  | nil =>
    obtain rfl : [] = bs := by simpa using h
    cases hb
  | cons a as ih =>
    rw [List.mapM_cons] at h
    simp only [Option.bind_eq_bind, Option.bind_eq_some_iff] at h
    obtain ⟨b', hb', bs', hbs', heq⟩ := h
    obtain rfl : b' :: bs' = bs := by simpa using heq
    rcases List.mem_cons.1 hb with rfl | hmem
    · exact ⟨a, List.mem_cons_self, hb'⟩
    · obtain ⟨a', ha', hfa'⟩ := ih hbs' hmem
      exact ⟨a', List.mem_cons_of_mem a ha', hfa'⟩

/-- **Slots that were read have finite doubles, different paths and records that are not nested too
deep.** -/
theorem readSlots?_stored {text : List Char} {slots : List Slot}
    (h : readSlots? text = some slots) :
    ∀ s ∈ slots, s.value.Stored 125 := by
  unfold readSlots? at h
  split at h
  · rename_i items hread
    intro s hs
    obtain ⟨d, hmem, hd⟩ := mem_of_mapM_some h hs
    have hwithin := Json.readChars?_within hread
    exact Slot.ofDraft?_stored hd (Draft.within_of_mem_items hwithin.2 hmem)
  · cases h

end BindScript
