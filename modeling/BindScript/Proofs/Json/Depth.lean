/-
**What the reader keeps.**

Whatever text the reader accepts, the draft that it gives holds finite numbers only, and arrays and
objects are nested no deeper than it was told.

Main results:

* `Json.readChars?_within` — **a whole text**.
-/

import BindScript.Json.Reader

namespace BindScript.Json

variable {depth : Nat}

namespace Draft

mutual

/-- Numbers are finite, and arrays and objects are nested at most so deep. -/
def Within (depth : Nat) : Draft → Prop
  | .unusable | .null | .bool _ | .string _ => True
  | .number n => n.isFinite = true
  | .array items => 0 < depth ∧ ItemsWithin (depth - 1) items
  | .object members => 0 < depth ∧ MembersWithin (depth - 1) members

def ItemsWithin (depth : Nat) : List Draft → Prop
  | [] => True
  | item :: items => item.Within depth ∧ ItemsWithin depth items

def MembersWithin (depth : Nat) : List (String × Draft) → Prop
  | [] => True
  | (_, value) :: members => value.Within depth ∧ MembersWithin depth members

end

theorem within_of_mem_items {items : List Draft} (h : ItemsWithin depth items) {d : Draft}
    (hd : d ∈ items) :
    d.Within depth := by
  induction items with
  | nil => cases hd
  | cons item items ih =>
    rcases List.mem_cons.1 hd with rfl | hmem
    · exact h.1
    · exact ih h.2 hmem

theorem within_of_mem_members {members : List (String × Draft)} (h : MembersWithin depth members)
    {m : String × Draft} (hm : m ∈ members) : m.2.Within depth := by
  induction members with
  | nil => cases hm
  | cons member members ih =>
    rcases List.mem_cons.1 hm with rfl | hmem
    · exact h.1
    · exact ih h.2 hmem

end Draft

open Draft

theorem numberDraft_within (depth : Nat) (n : Number) : (numberDraft n).Within depth := by
  unfold numberDraft
  split
  · assumption
  · trivial

theorem stringDraft_within (depth : Nat) (units : List Nat) : (stringDraft units).Within depth := by
  unfold stringDraft
  split <;> trivial

theorem arrayDraft_within {items : List Draft} (h : ItemsWithin (depth - 1) items) :
    (arrayDraft depth items).Within depth := by
  cases depth with
  | zero => trivial
  | succ depth => exact ⟨Nat.succ_pos depth, h⟩

/-- The members that were read, if their names denote texts. -/
def MembersRead (depth : Nat) (members : Option (List (String × Draft))) : Prop :=
  ∀ ms, members = some ms → MembersWithin depth ms

theorem objectDraft_within {members : Option (List (String × Draft))}
    (h : MembersRead (depth - 1) members) :
    (objectDraft depth members).Within depth := by
  cases depth with
  | zero => cases members <;> trivial
  | succ depth =>
    cases members with
    | none => trivial
    | some ms => exact ⟨Nat.succ_pos depth, h ms rfl⟩

theorem consMember_read {name : List Nat} {value : Draft} {members : Option (List (String × Draft))}
    (hvalue : value.Within depth) (hmembers : MembersRead depth members) :
    MembersRead depth (consMember name value members) := by
  intro ms hms
  unfold consMember at hms
  split at hms
  · rename_i rest _
    cases hms
    exact ⟨hvalue, hmembers rest rfl⟩
  · cases hms

mutual

/-- A value is within the depth that was left for it. -/
theorem readValue?_within {fuel depth : Nat} {cs rest : List Char} {d : Draft}
    (h : readValue? fuel depth cs = some (d, rest)) : d.Within depth := by
  cases fuel with
  | zero => simp [readValue?] at h
  | succ fuel =>
    rw [readValue?] at h
    split at h
    case h_1 => cases h
    case h_2 =>
      obtain ⟨r, -, heq⟩ := Option.map_eq_some_iff.1 h
      obtain ⟨rfl, -⟩ := Prod.mk.inj heq
      exact stringDraft_within depth r.1
    case h_3 =>
      split at h
      · obtain ⟨rfl, -⟩ := Prod.mk.inj (Option.some.inj h)
        exact arrayDraft_within trivial
      · obtain ⟨r, hr, heq⟩ := Option.map_eq_some_iff.1 h
        obtain ⟨rfl, -⟩ := Prod.mk.inj heq
        exact arrayDraft_within (readItems?_within hr)
    case h_4 =>
      split at h
      · obtain ⟨rfl, -⟩ := Prod.mk.inj (Option.some.inj h)
        refine objectDraft_within fun ms hms => ?_
        cases hms
        trivial
      · obtain ⟨r, hr, heq⟩ := Option.map_eq_some_iff.1 h
        obtain ⟨rfl, -⟩ := Prod.mk.inj heq
        exact objectDraft_within (readMembers?_within hr)
    case h_8 =>
      split at h
      · obtain ⟨r, -, heq⟩ := Option.map_eq_some_iff.1 h
        obtain ⟨rfl, -⟩ := Prod.mk.inj heq
        exact numberDraft_within depth r.1
      · cases h
    all_goals
      obtain ⟨rfl, -⟩ := Prod.mk.inj (Option.some.inj h)
      trivial

theorem readItems?_within {fuel depth : Nat} {cs rest : List Char} {items : List Draft}
    (h : readItems? fuel depth cs = some (items, rest)) : ItemsWithin depth items := by
  cases fuel with
  | zero => simp [readItems?] at h
  | succ fuel =>
    rw [readItems?] at h
    split at h
    · cases h
    · rename_i item after hvalue
      have hitem := readValue?_within hvalue
      split at h
      · obtain ⟨rfl, -⟩ := Prod.mk.inj (Option.some.inj h)
        exact ⟨hitem, trivial⟩
      · obtain ⟨r, hr, heq⟩ := Option.map_eq_some_iff.1 h
        obtain ⟨rfl, -⟩ := Prod.mk.inj heq
        exact ⟨hitem, readItems?_within hr⟩
      · cases h

theorem readMembers?_within {fuel depth : Nat} {cs rest : List Char}
    {members : Option (List (String × Draft))}
    (h : readMembers? fuel depth cs = some (members, rest)) : MembersRead depth members := by
  cases fuel with
  | zero => simp [readMembers?] at h
  | succ fuel =>
    rw [readMembers?] at h
    split at h
    · split at h
      · cases h
      · split at h
        · split at h
          · cases h
          · rename_i value after hvalue
            have hfirst := readValue?_within hvalue
            split at h
            · obtain ⟨rfl, -⟩ := Prod.mk.inj (Option.some.inj h)
              refine consMember_read hfirst fun ms hms => ?_
              cases hms
              trivial
            · obtain ⟨r, hr, heq⟩ := Option.map_eq_some_iff.1 h
              obtain ⟨rfl, -⟩ := Prod.mk.inj heq
              exact consMember_read hfirst (readMembers?_within hr)
            · cases h
        · cases h
    · cases h

end

/-- **Whatever is read is finite and not nested too deep.** -/
theorem readChars?_within {cs : List Char} {d : Draft} (h : readChars? cs = some d) :
    d.Within maxDepth := by
  unfold readChars? at h
  split at h
  · rename_i heq
    split at h
    · cases h
      exact readValue?_within heq
    · cases h
  · cases h

end BindScript.Json
