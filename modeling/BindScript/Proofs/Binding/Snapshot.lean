/-
**What can happen to a snapshot.**

Of all that a program can ask, only a request to set a value changes a snapshot: it puts a text into
the first entry with a container and a key, if there is one.  So a snapshot keeps its entries in
their order, with their containers, keys and selected options; values become texts, and only in
entries that are the first with their container and key.

A value that was set is what its name resolves to, until it is set again.  Nothing else that can be
asked has another answer because of it.

Main results:

* `Snapshot.replays_revises` — **exchanges revise a snapshot**.
-/

import BindScript.Binding.Environment
import BindScript.Proofs.Machine.Recording
import BindScript.Proofs.Simulation.Expression

namespace BindScript

namespace Snapshot

variable {s t u : Snapshot} {container key text : String}

/-! ### Revisions -/

/-- All of an entry but its value. -/
def Entry.label (e : Entry) : String × String × Option Selection := (e.container, e.key, e.selected)

/-- The second snapshot is the first one with other values in some entries. These are texts, and the
entries are the first ones with their containers and keys. -/
structure Revises (s t : Snapshot) : Prop where
  labels : t.map Entry.label = s.map Entry.label
  values : ∀ i e e', s[i]? = some e → t[i]? = some e' → e'.value ≠ e.value →
    (∃ text, e'.value = .text text) ∧ s.findIdx? (Entry.isAt e.container e.key) = some i

theorem Revises.refl (s : Snapshot) : Revises s s := by
  refine ⟨rfl, fun i e e' he he' hne => ?_⟩
  obtain rfl : e = e' := Option.some.inj (he.symm.trans he')
  exact absurd rfl hne

theorem findIdx?_congr (h : t.map Entry.label = s.map Entry.label) (container key : String) :
    t.findIdx? (Entry.isAt container key) = s.findIdx? (Entry.isAt container key) := by
  have hlabels : ∀ r : Snapshot, r.findIdx? (Entry.isAt container key) =
      (r.map Entry.label).findIdx? fun l => l.1 == container && l.2.1 == key := by
    intro r
    rw [List.findIdx?_map]
    rfl
  rw [hlabels, hlabels, h]

theorem getElem?_label (h : t.map Entry.label = s.map Entry.label) {i : Nat} {e : Entry}
    (he : s[i]? = some e) : ∃ e', t[i]? = some e' ∧ e'.label = e.label := by
  have hi : (t.map Entry.label)[i]? = some e.label := by rw [h, List.getElem?_map, he]; rfl
  rw [List.getElem?_map] at hi
  exact Option.map_eq_some_iff.1 hi

theorem Revises.trans (h : Revises s t) (h' : Revises t u) : Revises s u := by
  refine ⟨h'.labels.trans h.labels, fun i e e'' he he'' hne => ?_⟩
  obtain ⟨e', he', hlabel⟩ := getElem?_label h.labels he
  obtain ⟨hcontainer, hrest⟩ := Prod.mk.inj hlabel
  obtain ⟨hkey, -⟩ := Prod.mk.inj hrest
  -- the value changed in the first half, in the second one, or in both
  by_cases hsecond : e''.value = e'.value
  · rw [hsecond] at hne ⊢
    exact h.values i e e' he he' hne
  · obtain ⟨htext, hfirst⟩ := h'.values i e' e'' he' he'' hsecond
    rw [findIdx?_congr h.labels, hcontainer, hkey] at hfirst
    exact ⟨htext, hfirst⟩

/-! ### Setting a value -/

theorem Entry.isAt_iff {e : Entry} :
    e.isAt container key = true ↔ e.container = container ∧ e.key = key := by
  simp [Entry.isAt]

theorem labels_setText (container key text : String) (s : Snapshot) :
    (s.setText container key text).map Entry.label = s.map Entry.label := by
  induction s with
  | nil => rfl
  | cons e s ih =>
    rw [setText]
    split
    · rfl
    · rw [List.map_cons, ih, List.map_cons]

/-- Setting a value changes the first entry with the container and the key. -/
theorem getElem?_setText (container key text : String) (s : Snapshot) (i : Nat) :
    (s.setText container key text)[i]? =
      if s.findIdx? (Entry.isAt container key) = some i then
        s[i]?.map fun e => { e with value := .text text }
      else s[i]? := by
  induction s generalizing i with
  | nil => simp [setText]
  | cons e s ih =>
    rw [setText, List.findIdx?_cons]
    cases hat : e.isAt container key with
    | true =>
      cases i with
      | zero => simp
      | succ i => simp
    | false =>
      cases i with
      | zero => simp
      | succ i => simp [ih]

theorem revises_setText (container key text : String) (s : Snapshot) :
    Revises s (s.setText container key text) := by
  refine ⟨labels_setText container key text s, fun i e e' he he' hne => ?_⟩
  rw [getElem?_setText, he] at he'
  split at he'
  · rename_i hfirst
    obtain rfl : _ = e' := Option.some.inj he'
    refine ⟨⟨text, rfl⟩, ?_⟩
    obtain ⟨hi, hat, -⟩ := List.findIdx?_eq_some_iff_getElem.1 hfirst
    obtain ⟨rfl, rfl⟩ := Entry.isAt_iff.1 (by rwa [(List.getElem?_eq_some_iff.1 he).2] at hat)
    exact hfirst
  · obtain rfl : e = e' := Option.some.inj he'
    exact absurd rfl hne

theorem find?_cons (container key : String) (e : Entry) (s : Snapshot) :
    Snapshot.find? container key (e :: s) = if e.isAt container key then
      some e else s.find? container key := by
  rw [Snapshot.find?, List.find?_cons]
  cases e.isAt container key <;> rfl

/-- Without an entry of that container and key nothing happens. -/
theorem setText_eq_self (h : s.find? container key = none) (text : String) :
    s.setText container key text = s := by
  induction s with
  | nil => rfl
  | cons e s ih =>
    rw [find?_cons] at h
    split at h
    · cases h
    · rename_i hat
      rw [setText, if_neg hat, ih h]

theorem find?_setText (container key text : String) (s : Snapshot) (container' key' : String) :
    (s.setText container key text).find? container' key' =
      if container' = container ∧ key' = key then
        (s.find? container key).map fun e => { e with value := .text text }
      else s.find? container' key' := by
  induction s with
  | nil => simp [setText, Snapshot.find?]
  | cons e s ih =>
    rw [setText]
    by_cases hat : e.isAt container key = true
    · -- only the first entry changes, and it keeps its container and its key
      have hset : Entry.isAt container' key' { e with value := .text text } =
        e.isAt container' key' := rfl
      rw [if_pos hat, find?_cons, find?_cons, find?_cons, hset, if_pos hat]
      obtain ⟨rfl, rfl⟩ := Entry.isAt_iff.1 hat
      by_cases hsame : container' = e.container ∧ key' = e.key
      · rw [if_pos hsame, if_pos (Entry.isAt_iff.2 ⟨hsame.1.symm, hsame.2.symm⟩)]
        rfl
      · have hne : ¬e.isAt container' key' = true := fun hat' =>
          hsame ⟨(Entry.isAt_iff.1 hat').1.symm, (Entry.isAt_iff.1 hat').2.symm⟩
        rw [if_neg hsame, if_neg hne, if_neg hne]
    · rw [if_neg hat, find?_cons, find?_cons, find?_cons, if_neg hat, ih]
      by_cases hsame : container' = container ∧ key' = key
      · rw [if_pos hsame, if_pos hsame, hsame.1, hsame.2, if_neg hat]
      · rw [if_neg hsame, if_neg hsame]

theorem selection?_setText (container key text : String) (s : Snapshot) (container' key' : String) :
    (s.setText container key text).selection? container' key' = s.selection? container' key' := by
  unfold selection?
  rw [find?_setText]
  split
  · rename_i hsame
    obtain ⟨rfl, rfl⟩ := hsame
    cases s.find? container' key' <;> rfl
  · rfl

/-! ### Resolving names -/

/-- The name of an entry is cut into its container and its key. -/
theorem cutAt?_name (h : '.' ∉ container.toList) (key : String) :
    Text.cutAt? '.' (container ++ "." ++ key).toList = some (container.toList, key.toList) := by
  have hcut := Text.cutAt?_append h key.toList
  simpa using hcut

theorem resolve_name (symbols : Table String) (h : '.' ∉ container.toList) (key : String)
    (s : Snapshot) :
    resolve symbols (container ++ "." ++ key) s =
      ((s.find? container key).map (·.value.asText)).getD "" := by
  rw [resolve, cutAt?_name h]
  simp

/-- A value that was set is what the name of its entry resolves to. -/
theorem resolve_setText (symbols : Table String) (h : '.' ∉ container.toList)
    (hfound : (s.find? container key).isSome = true) (text : String) :
    resolve symbols (container ++ "." ++ key) (s.setText container key text) = text := by
  obtain ⟨e, he⟩ := Option.isSome_iff_exists.1 hfound
  rw [resolve_name symbols h, find?_setText, if_pos ⟨rfl, rfl⟩, he]
  rfl

/-- No other name resolves to something else because a value was set. -/
theorem resolve_setText_other (symbols : Table String) {name : String}
    (hname : name ≠ container ++ "." ++ key) (text : String) (s : Snapshot) :
    resolve symbols name (s.setText container key text) = resolve symbols name s := by
  unfold resolve
  cases hcut : Text.cutAt? '.' name.toList with
  | none => rfl
  | some parts =>
    obtain ⟨container', key'⟩ := parts
    have hother : ¬(String.ofList container' = container ∧ String.ofList key' = key) := by
      rintro ⟨rfl, rfl⟩
      refine hname (String.toList_injective ?_)
      simpa using (Text.cutAt?_eq_some hcut).1
    simp only [find?_setText, if_neg hother]

end Snapshot

/-! ### Requests -/

/-- The container, the key and the text of a request to set a value. -/
def Host.Request.setting? : Host.Request → Option (String × String × String)
  | .call name (.string container :: .string key :: .string text :: _) =>
    if name = Builtin.setValue.name then some (container, key, text) else none
  | _ => none

/-- The snapshot after a request. -/
def Host.Request.applied (r : Host.Request) (s : Snapshot) : Snapshot :=
  match r.setting? with
  | some (container, key, text) => s.setText container key text
  | none => s

variable {r : Host.Request}

namespace Snapshot

variable {s t u : Snapshot} {symbols : Table String} {xs : List Host.Exchange}

variable {text container key : String}

theorem textArg_eq_ok {b : Builtin} {args : List Value} {i : Nat} :
    textArg b args i = .ok text ↔ args[i]? = some (.string text) := by
  unfold textArg
  split <;> simp_all

theorem withValue_eq_ok {args : List Value} :
    withValue args s = .ok t ↔ ∃ container key text rest,
      args = .string container :: .string key :: .string text :: rest ∧
        t = s.setText container key text := by
  constructor
  · intro h
    obtain ⟨container, hcontainer, h⟩ := except_bind_eq_ok.1 h
    obtain ⟨key, hkey, h⟩ := except_bind_eq_ok.1 h
    obtain ⟨text, htext, h⟩ := except_bind_eq_ok.1 h
    rw [textArg_eq_ok] at hcontainer hkey htext
    match args, hcontainer, hkey, htext with
    | a :: b :: c :: rest, hcontainer, hkey, htext =>
      obtain rfl : a = _ := Option.some.inj hcontainer
      obtain rfl : b = _ := Option.some.inj hkey
      obtain rfl : c = _ := Option.some.inj htext
      exact ⟨container, key, text, rest, rfl, (Except.ok.inj h).symm⟩
  · rintro ⟨container, key, text, rest, rfl, rfl⟩
    rfl

theorem setting?_eq_some :
    r.setting? = some (container, key, text) ↔ ∃ rest,
      r = .call Builtin.setValue.name
        (.string container :: .string key :: .string text :: rest) := by
  constructor
  · intro h
    unfold Host.Request.setting? at h
    split at h
    · rename_i container' key' text' rest
      split at h
      · rename_i hname
        obtain ⟨rfl, rfl, rfl⟩ : container' = container ∧ key' = key ∧ text' = text := by
          simpa using h
        exact ⟨rest, by rw [hname]⟩
      · cases h
    · cases h
  · rintro ⟨rest, rfl⟩
    simp [Host.Request.setting?]

/-- A request to set a value is always answered. -/
theorem respond_setting (h : r.setting? = some (container, key, text)) (s : Snapshot) :
    (Snapshot.host symbols).respond r s = some (.ok .void, s.setText container key text) := by
  obtain ⟨rest, rfl⟩ := setting?_eq_some.1 h
  rfl

theorem respond_other (h : r.setting? = none) {answer : Except RuntimeError Value}
    (hr : (Snapshot.host symbols).respond r s = some (answer, t)) : t = s := by
  cases r with
  | resolve name => exact (Prod.mk.inj (Option.some.inj hr)).2.symm
  | call name args =>
    replace hr : call? name args s = some (answer, t) := hr
    unfold call? at hr
    split at hr
    · exact (Prod.mk.inj (Option.some.inj hr)).2.symm
    · exact (Prod.mk.inj (Option.some.inj hr)).2.symm
    · rename_i hname
      obtain rfl : Builtin.setValue.name = name := by simpa using List.find?_some hname
      split at hr
      · rename_i s' hset
        obtain ⟨container, key, text, rest, rfl, -⟩ := withValue_eq_ok.1 hset
        rw [setting?_eq_some.2 ⟨rest, rfl⟩] at h
        cases h
      · exact (Prod.mk.inj (Option.some.inj hr)).2.symm
    · cases hr

theorem respond_eq_some {answer : Except RuntimeError Value}
    (h : (Snapshot.host symbols).respond r s = some (answer, t)) : t = r.applied s := by
  cases hset : r.setting? with
  | none =>
    rw [Host.Request.applied, hset]
    exact respond_other hset h
  | some setting =>
    obtain ⟨container, key, text⟩ := setting
    rw [respond_setting hset] at h
    rw [Host.Request.applied, hset]
    exact (Prod.mk.inj (Option.some.inj h)).2.symm

theorem revises_applied (r : Host.Request) (s : Snapshot) : Revises s (r.applied s) := by
  unfold Host.Request.applied
  split
  · exact revises_setText _ _ _ s
  · exact .refl s

/-- **Exchanges revise a snapshot.** -/
theorem replays_revises (h : (Snapshot.host symbols).Replays s xs t) : Revises s t := by
  induction h with
  | nil => exact .refl _
  | cons hx _ ih =>
    rw [respond_eq_some hx] at ih
    exact (revises_applied _ _).trans ih

/-- A request that sets another value leaves what a name resolves to. -/
theorem resolve_applied (h : ∀ text, r.setting? ≠ some (container, key, text))
    (hcontainer : '.' ∉ container.toList) (s : Snapshot) :
    resolve symbols (container ++ "." ++ key) (r.applied s) =
      resolve symbols (container ++ "." ++ key) s := by
  rw [resolve_name symbols hcontainer, resolve_name symbols hcontainer]
  unfold Host.Request.applied
  split
  · rename_i container' key' text hset
    have hother : ¬(container = container' ∧ key = key') := by
      rintro ⟨rfl, rfl⟩
      exact h text hset
    rw [find?_setText, if_neg hother]
  · rfl

theorem resolve_replays (h : (Snapshot.host symbols).Replays s xs t)
    (hxs : ∀ x ∈ xs, ∀ text, x.request.setting? ≠ some (container, key, text))
    (hcontainer : '.' ∉ container.toList) :
    resolve symbols (container ++ "." ++ key) t = resolve symbols (container ++ "." ++ key) s := by
  induction h with
  | nil => rfl
  | cons hx _ ih =>
    obtain ⟨hfirst, hrest⟩ := List.forall_mem_cons.1 hxs
    rw [ih hrest, respond_eq_some hx, resolve_applied hfirst hcontainer]

end Snapshot

end BindScript
