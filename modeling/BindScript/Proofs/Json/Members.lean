/-
**Members in the order of their names.**

Members are put one by one into those that are already sorted.  If their names are different nothing
is lost: the sorted members are the given ones in another order.  Sorting does not look at the
values, so it does not matter whether they are changed before or after it.

Main results:

* `Json.inOrder_sortMembers` — sorted members are in order;
* `Json.sortMembers_perm` — members with different names are all kept;
* `Json.sortMembers_of_inOrder` — members that are in order stay as they are;
* `Json.sortMembers_map`, `Json.sortMembers_forall₂` — sorting does not look at values.
-/

import BindScript.Json.Basic
import Mathlib.Data.List.Forall2
import Mathlib.Data.List.Nodup
import Mathlib.Data.String.Basic

namespace BindScript.Json

variable {α β : Type}

/-- The names of members grow strictly. -/
def InOrder (members : List (String × α)) : Prop := members.Pairwise fun a b => a.1 < b.1

variable {name : String} {value : α} {members : List (String × α)}

theorem mem_insertMember {e : String × α} (h : e ∈ insertMember name value members) :
    e = (name, value) ∨ e ∈ members := by
  induction members with
  | nil => exact .inl (List.mem_singleton.1 h)
  | cons member members ih =>
    obtain ⟨n, v⟩ := member
    rw [insertMember] at h
    split at h
    · rcases List.mem_cons.1 h with rfl | h
      · exact .inl rfl
      · exact .inr (List.mem_cons_of_mem _ h)
    · split at h
      · exact List.mem_cons.1 h
      · rcases List.mem_cons.1 h with rfl | h
        · exact .inr List.mem_cons_self
        · exact (ih h).imp id (List.mem_cons_of_mem _)

theorem inOrder_insertMember (h : InOrder members) : InOrder (insertMember name value members) := by
  induction members with
  | nil => exact List.pairwise_singleton _ _
  | cons member members ih =>
    obtain ⟨n, v⟩ := member
    obtain ⟨hfirst, hrest⟩ := List.pairwise_cons.1 h
    rw [insertMember]
    split
    · rename_i hname
      subst hname
      exact List.pairwise_cons.2 ⟨hfirst, hrest⟩
    · rename_i hne
      split
      · rename_i hlt
        refine List.pairwise_cons.2 ⟨fun e he => ?_, h⟩
        rcases List.mem_cons.1 he with rfl | he
        · exact hlt
        · exact lt_trans hlt (hfirst e he)
      · rename_i hge
        refine List.pairwise_cons.2 ⟨fun e he => ?_, ih hrest⟩
        rcases mem_insertMember he with rfl | he
        · exact lt_of_le_of_ne (not_lt.1 hge) fun heq => hne heq.symm
        · exact hfirst e he

theorem insertMember_perm (h : name ∉ members.map Prod.fst) :
    (insertMember name value members).Perm ((name, value) :: members) := by
  induction members with
  | nil => exact .refl _
  | cons member members ih =>
    obtain ⟨n, v⟩ := member
    obtain ⟨hne, hrest⟩ : ¬name = n ∧ name ∉ members.map Prod.fst := by simpa using h
    rw [insertMember, if_neg hne]
    split
    · exact .refl _
    · exact ((ih hrest).cons (n, v)).trans (.swap _ _ _)

theorem inOrder_sortMembers (members : List (String × α)) : InOrder (sortMembers members) := by
  have hrun : ∀ (rest sorted : List (String × α)), InOrder sorted →
      InOrder (rest.foldl (fun sorted (e : String × α) => insertMember e.1 e.2 sorted) sorted) := by
    intro rest
    induction rest with
    | nil => exact fun sorted h => h
    | cons e rest ih => exact fun sorted h => ih _ (inOrder_insertMember h)
  exact hrun members [] List.Pairwise.nil

theorem sortMembers_perm (h : (members.map Prod.fst).Nodup) :
    (sortMembers members).Perm members := by
  have hrun : ∀ (rest sorted : List (String × α)), ((sorted ++ rest).map Prod.fst).Nodup →
      (rest.foldl (fun sorted (e : String × α) => insertMember e.1 e.2 sorted) sorted).Perm
        (sorted ++ rest) := by
    intro rest
    induction rest with
    | nil => exact fun sorted _ => by rw [List.append_nil, List.foldl_nil]
    | cons e rest ih =>
      intro sorted hnodup
      have hnew : e.1 ∉ sorted.map Prod.fst := by
        rw [List.map_append, List.map_cons] at hnodup
        exact fun hmem => (List.nodup_append.1 hnodup).2.2 _ hmem _ (by simp) rfl
      have hmoved : (insertMember e.1 e.2 sorted ++ rest).Perm (sorted ++ e :: rest) :=
        ((insertMember_perm hnew).append_right rest).trans List.perm_middle.symm
      exact (ih _ ((hmoved.map Prod.fst).nodup_iff.2 hnodup)).trans hmoved
  exact hrun members [] h

theorem InOrder.nodup (h : InOrder members) : (members.map Prod.fst).Nodup := by
  rw [List.Nodup, List.pairwise_map]
  exact h.imp fun hlt => ne_of_lt hlt

theorem sortMembers_of_inOrder (h : InOrder members) : sortMembers members = members :=
  (sortMembers_perm h.nodup).eq_of_pairwise
    (fun _ _ _ _ hab hba => absurd hba (lt_asymm hab)) (inOrder_sortMembers members) h

theorem sortMembers_forall₂ (R : α → β → Prop) {members' : List (String × β)}
    (h : List.Forall₂ (fun a b => a.1 = b.1 ∧ R a.2 b.2) members members') :
    List.Forall₂ (fun a b => a.1 = b.1 ∧ R a.2 b.2) (sortMembers members)
      (sortMembers members') := by
  have hinsert : ∀ {name : String} {a : α} {b : β} {sorted : List (String × α)}
      {sorted' : List (String × β)}, R a b →
      List.Forall₂ (fun a b => a.1 = b.1 ∧ R a.2 b.2) sorted sorted' →
      List.Forall₂ (fun a b => a.1 = b.1 ∧ R a.2 b.2) (insertMember name a sorted)
        (insertMember name b sorted') := by
    intro name a b sorted sorted' hab hsorted
    induction hsorted with
    | nil => exact .cons ⟨rfl, hab⟩ .nil
    | @cons e e' rest rest' he hrest ih =>
      obtain ⟨n, v⟩ := e
      obtain ⟨n', v'⟩ := e'
      obtain ⟨rfl, hv⟩ : n = n' ∧ R v v' := he
      rw [insertMember, insertMember]
      split
      · exact .cons ⟨rfl, hab⟩ hrest
      · split
        · exact .cons ⟨rfl, hab⟩ (.cons ⟨rfl, hv⟩ hrest)
        · exact .cons ⟨rfl, hv⟩ ih
  refine List.rel_foldl (fun _ _ hsorted e e' he => ?_) .nil h
  obtain ⟨n, v⟩ := e
  obtain ⟨n', v'⟩ := e'
  obtain ⟨rfl, hv⟩ : n = n' ∧ R v v' := he
  exact hinsert hv hsorted

theorem sortMembers_map (f : α → β) (members : List (String × α)) :
    sortMembers (members.map fun e => (e.1, f e.2)) = (sortMembers members).map
      fun e => (e.1, f e.2) := by
  have halike : List.Forall₂ (fun a b => a.1 = b.1 ∧ f a.2 = b.2) members
      (members.map fun e => (e.1, f e.2)) :=
    List.forall₂_map_right_iff.2 (List.forall₂_same.2 fun _ _ => ⟨rfl, rfl⟩)
  have hsorted := sortMembers_forall₂ (fun a b => f a = b) halike
  have heq : List.Forall₂ (· = ·) ((sortMembers members).map fun e => (e.1, f e.2))
      (sortMembers (members.map fun e => (e.1, f e.2))) :=
    List.forall₂_map_left_iff.2 (hsorted.imp fun a b h => Prod.ext h.1 h.2)
  rw [List.forall₂_eq_eq_eq] at heq
  exact heq.symm

end BindScript.Json
