/-
**Laws of tables.**

Main results:

* `Table.lookup_map` — looking up in a table whose values are changed;
* `Table.replace_append_left`, `Table.replace_append_right` — replacing in a table
  of two parts;
* `Table.map_replace`, `Table.map_replace_of_forall` — what replacing leaves as it is;
* `Table.lookup_of_mem`, `Table.replace_eq_map` — tables with different names;
* `Table.lookup_put`, `Table.lookup_filter` — looking up after a change;
* `Table.ofList_eq` — entries with different names build the table that they are;
* `Table.nodup_ofList`, `Table.mem_of_mem_ofList` — a table that is built from entries
  has different names, and no other entries.
-/

import BindScript.Table
import Mathlib.Data.List.Nodup

namespace BindScript.Table

variable {α β : Type} {name : String}

variable {t : Table α} {a : α}

theorem mem_of_lookup (h : t.lookup name = some a) : (name, a) ∈ t := by
  obtain ⟨before, rest, rfl, -⟩ := List.lookup_eq_some_iff.1 h
  simp

theorem lookup_of_mem (h : (t.map Prod.fst).Nodup) (hmem : (name, a) ∈ t) :
    t.lookup name = some a := by
  induction t with
  | nil => simp at hmem
  | cons e t ih =>
    obtain ⟨n, b⟩ := e
    obtain ⟨hnew, ht⟩ := List.nodup_cons.1 h
    rcases List.mem_cons.1 hmem with heq | hmem'
    · cases heq
      simp
    · have hne : (name == n) = false :=
        beq_eq_false_iff_ne.2 fun heq => hnew (List.mem_map.2 ⟨(name, a), hmem', heq⟩)
      rw [List.lookup_cons, hne]
      exact ih ht hmem'

theorem lookup_eq_none (h : name ∉ t.map Prod.fst) : t.lookup name = none := by
  refine List.lookup_eq_none_iff.2 ?_
  intro entry hentry
  have hne : name ≠ entry.1 := by
    rintro rfl
    exact h (List.mem_map_of_mem hentry)
  simpa using hne

/-- A change of all values is seen by every look-up. -/
theorem lookup_map (f : α → β) (t : Table α) :
    List.lookup name (t.map fun e => (e.1, f e.2)) = (t.lookup name).map f := by
  induction t with
  | nil => rfl
  | cons e t ih =>
    obtain ⟨n, a⟩ := e
    rw [List.map_cons, List.lookup_cons, List.lookup_cons, ih]
    cases name == n <;> rfl

/-! ### Replacing -/

/-- Replacing in the first part of a table, if the name is there. -/
theorem replace_append_left (h : t.lookup name = some a) (change : α → α) (t' : Table α) :
    replace name change (t ++ t') = replace name change t ++ t' := by
  induction t with
  | nil => simp at h
  | cons e t ih =>
    obtain ⟨n, b⟩ := e
    by_cases hn : n = name
    · simp [replace, hn]
    · have hne : (name == n) = false := by simpa using fun heq => hn heq.symm
      rw [List.lookup_cons, hne] at h
      simp [replace, hn, ih h]

/-- Replacing in the second part of a table, if the name is not in the first one. -/
theorem replace_append_right (h : t.lookup name = none) (change : α → α) (t' : Table α) :
    replace name change (t ++ t') = t ++ replace name change t' := by
  induction t with
  | nil => rfl
  | cons e t ih =>
    obtain ⟨n, b⟩ := e
    by_cases hn : n = name
    · simp [hn] at h
    · have hne : (name == n) = false := by simpa using fun heq => hn heq.symm
      rw [List.lookup_cons, hne] at h
      simp [replace, hn, ih h]

theorem replace_map (f : α → β) (change : β → β) (change' : α → α)
    (h : ∀ a, change (f a) = f (change' a)) (t : Table α) :
    replace name change (t.map fun e => (e.1, f e.2)) =
      (replace name change' t).map fun e => (e.1, f e.2) := by
  induction t with
  | nil => rfl
  | cons e t ih =>
    obtain ⟨n, a⟩ := e
    by_cases hn : n = name
    · simp [replace, hn, h]
    · simp [replace, hn, ih]

/-- What does not tell the new value from the old one does not see the change. -/
theorem map_replace {b : α} (h : t.lookup name = some a) (f : α → β) (hf : f b = f a) :
    (replace name (fun _ => b) t).map (fun e => (e.1, f e.2)) = t.map fun e => (e.1, f e.2) := by
  induction t with
  | nil => rfl
  | cons e t ih =>
    obtain ⟨n, c⟩ := e
    by_cases hn : n = name
    · subst hn
      obtain rfl : c = a := by simpa using h
      simp [replace, hf]
    · have hne : (name == n) = false := by simpa using fun heq => hn heq.symm
      rw [List.lookup_cons, hne] at h
      rw [replace, if_neg hn, List.map_cons, List.map_cons, ih h]

/-- A change that cannot be seen in any value cannot be seen in a table. -/
theorem map_replace_of_forall (f : α → β) {change : α → α} (h : ∀ a, f (change a) = f a)
    (t : Table α) :
    (replace name change t).map (fun e => (e.1, f e.2)) = t.map fun e => (e.1, f e.2) := by
  induction t with
  | nil => rfl
  | cons e t ih =>
    obtain ⟨n, a⟩ := e
    by_cases hn : n = name
    · simp [replace, hn, h]
    · simp [replace, hn, ih]

/-- If all names are different, replacing changes the entry of the name and no other one. -/
theorem replace_eq_map (h : (t.map Prod.fst).Nodup) (change : α → α) :
    replace name change t = t.map fun e => if e.1 = name then (e.1, change e.2) else e := by
  induction t with
  | nil => rfl
  | cons e t ih =>
    obtain ⟨n, a⟩ := e
    obtain ⟨hnew, ht⟩ := List.nodup_cons.1 h
    by_cases hn : n = name
    · subst hn
      have hrest : t.map (fun e => if e.1 = n then (e.1, change e.2) else e) = t := by
        refine (List.map_congr_left fun e he => if_neg ?_).trans (List.map_id t)
        exact fun heq => hnew (List.mem_map.2 ⟨e, he, heq⟩)
      simp [replace, hrest]
    · simp [replace, hn, ih ht]

/-! ### Building -/

theorem put_eq_append (h : name ∉ t.map Prod.fst) (a : α) : put name a t = t ++ [(name, a)] := by
  induction t with
  | nil => rfl
  | cons e t ih =>
    obtain ⟨n, b⟩ := e
    obtain ⟨hn, ht⟩ : ¬name = n ∧ name ∉ t.map Prod.fst := by simpa using h
    have hne : ¬n = name := fun heq => hn heq.symm
    simp [put, hne, ih ht]

/-- Entries with different names build the table that they are. -/
theorem ofList_eq (h : (t.map Prod.fst).Nodup) : ofList t = t := by
  have hfold : ∀ (rest before : Table α), ((before ++ rest).map Prod.fst).Nodup →
      rest.foldl (fun table (e : String × α) => put e.1 e.2 table) before = before ++ rest := by
    intro rest
    induction rest with
    | nil => simp
    | cons e rest ih =>
      intro before hnodup
      have hnew : e.1 ∉ before.map Prod.fst := by
        rw [List.map_append, List.map_cons] at hnodup
        exact fun hmem => (List.nodup_append.1 hnodup).2.2 _ hmem _ (by simp) rfl
      rw [List.foldl_cons, put_eq_append hnew, ih]
      · simp
      · simpa using hnodup
  exact hfold t [] (by simpa using h)

theorem mem_of_mem_put {e : String × α} (h : e ∈ put name a t) : e = (name, a) ∨ e ∈ t := by
  induction t with
  | nil => exact .inl (by simpa [put] using h)
  | cons e' t ih =>
    obtain ⟨n, b⟩ := e'
    rw [put] at h
    split at h
    · rename_i hn
      rcases List.mem_cons.1 h with rfl | hmem
      · exact .inl (by rw [hn])
      · exact .inr (List.mem_cons_of_mem _ hmem)
    · rcases List.mem_cons.1 h with rfl | hmem
      · exact .inr List.mem_cons_self
      · exact (ih hmem).imp id (List.mem_cons_of_mem _)

theorem nodup_put (h : (t.map Prod.fst).Nodup) (a : α) : ((put name a t).map Prod.fst).Nodup := by
  induction t with
  | nil => simp [put]
  | cons e t ih =>
    obtain ⟨n, b⟩ := e
    rw [List.map_cons, List.nodup_cons] at h
    rw [put]
    split
    · exact List.nodup_cons.2 h
    · rename_i hn
      refine List.nodup_cons.2 ⟨fun hmem => ?_, ih h.2⟩
      obtain ⟨e, he, heq⟩ := List.mem_map.1 hmem
      rcases mem_of_mem_put he with rfl | hold
      · exact hn heq.symm
      · exact h.1 (heq ▸ List.mem_map_of_mem hold)

/-- What is put under a name is found there, and nothing else changes. -/
theorem lookup_put {key : String} (t : Table α) (a : α) :
    List.lookup key (put name a t) = if key = name then some a else List.lookup key t := by
  have hcons : ∀ (n : String) (b : α) (t : Table α),
      List.lookup key ((n, b) :: t) = if key = n then some b else List.lookup key t := by
    intro n b t
    by_cases hkey : key = n
    · simp [hkey]
    · rw [List.lookup_cons, beq_eq_false_iff_ne.2 hkey, if_neg hkey]
  induction t with
  | nil => rw [put, hcons]
  | cons e t ih =>
    obtain ⟨n, b⟩ := e
    rw [put]
    split
    · rename_i hn
      rw [hcons, hcons, hn]
      split <;> rfl
    · rename_i hn
      rw [hcons, hcons, ih]
      by_cases hkey : key = n
      · rw [if_pos hkey, if_neg fun h => hn (hkey.symm.trans h), if_pos hkey]
      · rw [if_neg hkey, if_neg hkey]

theorem lookup_filter {key : String} (t : Table α) (test : String → Bool) :
    List.lookup key (t.filter fun e => test e.1) = if test key then List.lookup key t
      else none := by
  induction t with
  | nil => simp
  | cons e t ih =>
    obtain ⟨n, b⟩ := e
    by_cases hkey : key = n
    · subst hkey
      by_cases htest : test key = true
      · simp [htest]
      · simp [htest, ih]
    · have hne : (key == n) = false := by simpa using hkey
      rw [List.lookup_cons, hne, ← ih, List.filter_cons]
      split
      · rw [List.lookup_cons, hne]
      · rfl

/-- In a table that is built from entries names are different. -/
theorem nodup_ofList (entries : List (String × α)) : ((ofList entries).map Prod.fst).Nodup := by
  have hfold : ∀ (rest : List (String × α)) (t : Table α), (t.map Prod.fst).Nodup →
      ((rest.foldl (fun table (e : String × α) => put e.1 e.2 table) t).map Prod.fst).Nodup := by
    intro rest
    induction rest with
    | nil => exact fun t h => h
    | cons e rest ih => exact fun t h => ih _ (nodup_put h e.2)
  exact hfold entries [] List.nodup_nil

/-- A table that is built from entries has no others. -/
theorem mem_of_mem_ofList {entries : List (String × α)} {e : String × α} (h : e ∈ ofList entries) :
    e ∈ entries := by
  have hfold : ∀ (rest : List (String × α)) (t : Table α),
      e ∈ rest.foldl (fun table (e : String × α) => put e.1 e.2 table) t → e ∈ t ∨ e ∈ rest := by
    intro rest
    induction rest with
    | nil => exact fun t h => .inl h
    | cons e' rest ih =>
      intro t h
      rcases ih _ h with hput | hrest
      · rcases mem_of_mem_put hput with rfl | hold
        · exact .inr List.mem_cons_self
        · exact .inl hold
      · exact .inr (List.mem_cons_of_mem _ hrest)
  rcases hfold entries [] h with hnil | hmem
  · cases hnil
  · exact hmem

end BindScript.Table
