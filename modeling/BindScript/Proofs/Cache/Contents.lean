/-
**A cache as a finite set.**

What a cache keeps is known from the sources and globals that it was asked for: it stands for a
finite set of such pairs and a finite set of sources of bindings.  Every request does to the cache
what a plain operation on sets does to these, and its answer can be told from the sets.  All that is
needed is that keys tell the pairs apart, and they do if the globals have names of the language and
no text has the mark of keys in it.

Main results:

* `Cache.Represents.next`, `Cache.Represents.answer` — **what one request does**;
* `Cache.run_represents` — **a cache answers every sequence of requests as the sets do**, and
  stands for them at the end.
-/

import BindScript.Proofs.Cache
import Mathlib.Data.Finset.Card
import Mathlib.Data.Finset.Filter

namespace BindScript

variable {source : String} {globals : Globals} {g : String × Value}

namespace Cache

/-! ### Requests -/

/-- What can be asked of a cache, its size included. -/
inductive Request where
  | call (asked : Call)
  | size

inductive Answer where
  | program (result : Except CompileError Code)
  | bindings (result : Except CompileError (Bindings Code))
  /-- The number of programs that were forgotten. -/
  | forgotten (count : Nat)
  | cleared
  /-- The number of programs that are kept. -/
  | kept (count : Nat)

def Request.next (c : Cache) : Request → Cache
  | .call asked => asked.next c
  | .size => c

def Request.answer (c : Cache) : Request → Answer
  | .call (.program source globals) => .program ((c.program source globals).1.map Kept.content)
  | .call (.bindings source) => .bindings ((c.bindings source).1.map Kept.content)
  | .call (.invalidate source) => .forgotten (c.invalidate source).1
  | .call .clear => .cleared
  | .size => .kept c.size

/-- The answers to requests, one after the other, and the cache after the last. -/
def run (c : Cache) : List Request → List Answer × Cache
  | [] => ([], c)
  | r :: rs => (r.answer c :: (run (r.next c) rs).1, (run (r.next c) rs).2)

/-! ### Contents -/

/-- The sources with their globals, and the sources of bindings, for which something is kept. -/
structure Contents where
  programs : Finset (String × Globals)
  bindings : Finset String

namespace Contents

open scoped Classical

def empty : Contents := ⟨∅, ∅⟩

/-- What is kept after a request: what compiles is added, what has the source is taken away. -/
noncomputable def next (m : Contents) : Request → Contents
  | .call (.program source globals) =>
    if (compileProgram source globals).isOk then
      { m with programs := insert (source, globals) m.programs }
    else m
  | .call (.bindings source) =>
    if (compileBindings source).isOk then { m with bindings := insert source m.bindings } else m
  | .call (.invalidate source) => ⟨m.programs.filter fun p => p.1 ≠ source, m.bindings.erase source⟩
  | .call .clear => empty
  | .size => m

/-- The answer to a request: compiling does not depend on what is kept. -/
noncomputable def answer (m : Contents) : Request → Answer
  | .call (.program source globals) => .program (compileProgram source globals)
  | .call (.bindings source) => .bindings (compileBindings source)
  | .call (.invalidate source) =>
    .forgotten ((m.programs.filter fun p => p.1 = source).card +
      (m.bindings.filter (· = source)).card)
  | .call .clear => .cleared
  | .size => .kept (m.programs.card + m.bindings.card)

/-- The answers to requests, one after the other, and what is kept after the last. -/
noncomputable def run (m : Contents) : List Request → List Answer × Contents
  | [] => ([], m)
  | r :: rs => (m.answer r :: (run (m.next r) rs).1, (run (m.next r) rs).2)

end Contents

/-! ### What a table stands for -/

section Stands

variable {ι α : Type} {key : ι → String} {make : ι → Except CompileError α} {t : Table (Kept α)}
  {s : Finset ι}

/-- A table keeps for every member of a set, under its key, what is made of it, and nothing else. -/
structure Stands (key : ι → String) (make : ι → Except CompileError α) (t : Table (Kept α))
    (s : Finset ι) :
    Prop where
  nodup : (t.map Prod.fst).Nodup
  perm : (t.map fun e => (e.1, Except.ok e.2.content)).Perm (s.toList.map fun i => (key i, make i))

theorem Stands.empty : Stands key make [] ∅ := ⟨List.nodup_nil, by simp⟩

theorem Stands.length_eq (h : Stands key make t s) : t.length = s.card := by
  simpa using h.perm.length_eq

theorem Stands.exists_of_lookup (h : Stands key make t s) {name : String} {kept : Kept α}
    (hlookup : t.lookup name = some kept) : ∃ i ∈ s, key i = name ∧ make i = .ok kept.content := by
  have hmem : (name, Except.ok kept.content) ∈ s.toList.map fun i => (key i, make i) :=
    h.perm.mem_iff.1 (List.mem_map.2 ⟨(name, kept), Table.mem_of_lookup hlookup, rfl⟩)
  obtain ⟨i, hi, heq⟩ := List.mem_map.1 hmem
  obtain ⟨hkey, hmake⟩ := Prod.mk.inj heq
  exact ⟨i, Finset.mem_toList.1 hi, hkey, hmake⟩

theorem Stands.lookup_of_mem (h : Stands key make t s) {i : ι} (hi : i ∈ s) :
    ∃ kept, t.lookup (key i) = some kept ∧ make i = .ok kept.content := by
  have hmem : (key i, make i) ∈ t.map fun e => (e.1, Except.ok e.2.content) :=
    h.perm.mem_iff.2 (List.mem_map.2 ⟨i, Finset.mem_toList.2 hi, rfl⟩)
  obtain ⟨⟨name, kept⟩, he, heq⟩ := List.mem_map.1 hmem
  obtain ⟨rfl, hmake⟩ := Prod.mk.inj heq
  exact ⟨kept, Table.lookup_of_mem h.nodup he, hmake.symm⟩

theorem Stands.put [DecidableEq ι] (h : Stands key make t s) (i : ι) (kept : Kept α)
    (hlookup : t.lookup (key i) = none) (hmake : make i = .ok kept.content) :
    Stands key make (Table.put (key i) kept t) (insert i s) := by
  have hnew : key i ∉ t.map Prod.fst := by
    intro hmem
    obtain ⟨e, he, hname⟩ := List.mem_map.1 hmem
    have hfound := Table.lookup_of_mem h.nodup (show (key i, e.2) ∈ t from hname ▸ he)
    rw [hlookup] at hfound
    cases hfound
  have hi : i ∉ s := by
    intro hi
    obtain ⟨kept', hfound, -⟩ := h.lookup_of_mem hi
    rw [hlookup] at hfound
    cases hfound
  refine ⟨Table.nodup_put h.nodup kept, ?_⟩
  rw [Table.put_eq_append hnew, List.map_append]
  refine (List.perm_append_comm).trans ?_
  refine List.Perm.trans ?_ ((Finset.toList_insert hi).map _).symm
  rw [List.map_cons, List.map_cons, hmake]
  exact h.perm.cons _

/-- Forgetting what has a key of some form is taking members away, if the key tells which. -/
theorem Stands.filter (h : Stands key make t s) (test : String → Bool)
    (p : ι → Prop) [DecidablePred p] (hp : ∀ i ∈ s, test (key i) = true ↔ p i) :
    Stands key make (t.filter fun e => test e.1) (s.filter p) := by
  refine ⟨h.nodup.sublist ((List.filter_sublist).map _), ?_⟩
  have hleft : (t.filter fun e => test e.1).map
        (fun e => (e.1, (Except.ok e.2.content : Except CompileError α))) =
      (t.map fun e => (e.1, Except.ok e.2.content)).filter fun e => test e.1 := by
    rw [List.filter_map]
    rfl
  have hright : ((s.toList.map fun i => (key i, make i)).filter fun e => test e.1).Perm
      ((s.filter p).toList.map fun i => (key i, make i)) := by
    rw [List.filter_map]
    refine List.Perm.map _ ?_
    refine (List.perm_ext_iff_of_nodup (s.nodup_toList.filter _) (s.filter p).nodup_toList).2
      fun i => ?_
    simp only [List.mem_filter, Finset.mem_toList, Finset.mem_filter, Function.comp_apply]
    exact and_congr_right (hp i)
  rw [hleft]
  exact (h.perm.filter _).trans hright

end Stands

/-- A cache keeps the compiled programs of its contents under their keys, and nothing else. -/
structure Represents (c : Cache) (m : Contents) : Prop where
  programs : Stands (fun p => programKey p.1 p.2) (fun p => compileProgram p.1 p.2) c.programs
    m.programs
  bindings : Stands id compileBindings c.bindingPrograms m.bindings

/-! ### Plain globals -/

/-- A source and globals of the language: no mark stands in the source or in a text, and every
global has a name. -/
structure Plain (source : String) (globals : Globals) : Prop where
  source : keyMark ∉ source.toList
  names : ∀ g ∈ globals, IsWord g.1.toList
  strings : ∀ g ∈ globals, ∀ s, g.2 = .string s → keyMark ∉ s.toList

theorem keyMark_not_mem_write (x : Float) : keyMark ∉ Decimal.Spelling.display.write x := by
  have hdigits : ∀ n, keyMark ∉ Decimal.digitsOf n := Decimal.not_mem_digitsOf (by decide)
  have hzeros : ∀ j, keyMark ∉ List.replicate j '0' := by
    intro j hmem
    exact absurd (List.eq_of_mem_replicate hmem) (by decide)
  have hplain : ∀ (digits : List Char) (k : Int), keyMark ∉ digits →
      keyMark ∉ Decimal.Spelling.display.plain digits k := by
    intro digits k hnot
    have htake : ∀ j, keyMark ∉ digits.take j := fun j hmem => hnot (List.mem_of_mem_take hmem)
    have hdrop : ∀ j, keyMark ∉ digits.drop j := fun j hmem => hnot (List.mem_of_mem_drop hmem)
    have hpoint : keyMark ≠ '.' ∧ keyMark ≠ '0' := by decide
    simp only [Decimal.Spelling.plain]
    split
    · simp [Decimal.Spelling.display, hnot, hzeros]
    · split
      · simp [htake, hdrop, hpoint]
      · simp [hnot, hzeros, hpoint]
  have hmagnitude : ∀ m e, keyMark ∉ Decimal.Spelling.display.writeMagnitude m e := by
    intro m e
    have hisPlain : ∀ lead, Decimal.Spelling.display.isPlain lead = true := fun _ => rfl
    simp only [Decimal.Spelling.writeMagnitude, hisPlain, if_true]
    split
    · exact hplain _ _ (by decide)
    · exact hplain _ _ (hdigits _)
  unfold Decimal.Spelling.write
  split
  · decide
  · decide
  · decide
  · exact hmagnitude _ _
  · exact List.not_mem_cons_of_ne_of_not_mem (by decide) (hmagnitude _ _)

/-- No mark stands in the text of a primitive value, if none stands in a string. -/
theorem keyMark_not_mem_displayChars {v : Value} (hleaf : v.ty.isLeaf = true)
    (hstring : ∀ s, v = .string s → keyMark ∉ s.toList) : keyMark ∉ v.displayChars := by
  cases v with
  | int n =>
    have hdigits : keyMark ∉ Decimal.digitsOf n.toInt.natAbs :=
      Decimal.not_mem_digitsOf (by decide) _
    rw [Value.displayChars, Decimal.toList_toString]
    split
    · exact List.not_mem_cons_of_ne_of_not_mem (by decide) hdigits
    · exact hdigits
  | float x => exact keyMark_not_mem_write x
  | string s => exact hstring s rfl
  | bool b => cases b <;> decide
  | _ => simp [Value.ty, Ty.isLeaf] at hleaf

theorem Plain.name (h : Plain source globals) (hg : g ∈ globals) :
    keyMark ∉ g.1.toList ∧ ':' ∉ g.1.toList := by
  have hword := Scanner.isWordChar_of_mem (h.names g hg)
  exact ⟨fun hmem => absurd (hword _ hmem) (by decide),
    fun hmem => absurd (hword _ hmem) (by decide)⟩

theorem Plain.tail (h : Plain source (g :: globals)) : Plain source globals :=
  ⟨h.source, fun g' hg => h.names g' (List.mem_cons_of_mem _ hg),
    fun g' hg => h.strings g' (List.mem_cons_of_mem _ hg)⟩

theorem Plain.keySafe (h : Plain source globals) (hleaf : ∀ g ∈ globals, g.2.ty.isLeaf = true) :
    KeySafe source globals :=
  ⟨h.source, fun _ hg => h.name hg,
    fun g hg => keyMark_not_mem_displayChars (hleaf g hg) (h.strings g hg)⟩

/-- The kind of a global is known from a text that begins with it. -/
theorem kind_eq_of_globalChars {g' : String × Value} {rest rest' : List Char}
    (hg : ':' ∉ g.1.toList) (hg' : ':' ∉ g'.1.toList)
    (h : globalChars g ++ rest = globalChars g' ++ rest') : g.2.kind = g'.2.kind := by
  simp only [globalChars, List.append_assoc, List.cons_append] at h
  obtain ⟨-, h⟩ := append_inj_of_not_mem hg hg' h
  obtain ⟨hkind, -⟩ := append_inj_of_not_mem (kind_name g.2.kind g'.2.kind).1
    (kind_name g'.2.kind g.2.kind).1 h
  exact (kind_name _ _).2 (String.toList_inj.1 hkind)

theorem isLeaf_of_kind {v v' : Value} (h : v.kind = v'.kind) (hleaf : v.ty.isLeaf = true) :
    v'.ty.isLeaf = true := by
  cases v <;> cases v' <;> simp_all [Value.kind, Value.ty, Ty.isLeaf]

/-- Globals that have the key of primitive ones are primitive.  So the text of a record cannot pass
for other globals, whatever stands in it. -/
theorem isLeaf_of_globalsChars {source' : String} {globals' : Globals} {a a' : List Char}
    (ha : keyMark ∉ a) (ha' : keyMark ∉ a') (hplain : Plain source globals)
    (hplain' : Plain source' globals') (hleaf : ∀ g ∈ globals, g.2.ty.isLeaf = true)
    (h : a ++ globalsChars globals = a' ++ globalsChars globals') :
    ∀ g ∈ globals', g.2.ty.isLeaf = true := by
  induction globals generalizing globals' a a' with
  | nil =>
    cases globals' with
    | nil => simp
    | cons g' globals' =>
      refine absurd ?_ ha
      have h : a = a' ++ globalsChars (g' :: globals') := by simpa [globalsChars] using h
      rw [h]
      simp [globalsChars]
  | cons g globals ih =>
    cases globals' with
    | nil => simp
    | cons g' globals' =>
      obtain ⟨rfl, hrest⟩ := append_inj_of_not_mem ha ha' h
      obtain ⟨hleaf₁, hleaf₂⟩ := List.forall_mem_cons.1 hleaf
      have hname := hplain.name (g := g) List.mem_cons_self
      have hname' := hplain'.name (g := g') List.mem_cons_self
      -- the kind stands before anything that could hide a mark, so it says that the value is
      -- primitive
      have hleaf₁' := isLeaf_of_kind (kind_eq_of_globalChars hname.2 hname'.2 hrest) hleaf₁
      have hsafe : keyMark ∉ globalChars g := globalChars_safe hname.1
        (keyMark_not_mem_displayChars hleaf₁ (hplain.strings g List.mem_cons_self))
      have hsafe' : keyMark ∉ globalChars g' := globalChars_safe hname'.1
        (keyMark_not_mem_displayChars hleaf₁' (hplain'.strings g' List.mem_cons_self))
      exact List.forall_mem_cons.2
        ⟨hleaf₁', ih hsafe hsafe' hplain.tail hplain'.tail hleaf₂ hrest⟩

/-- **A key of plain globals is theirs alone**, if what is kept under it compiles. -/
theorem eq_of_key {source' : String} {globals' : Globals} {code : Code}
    (hplain : Plain source globals) (hplain' : Plain source' globals')
    (hcompile : compileProgram source globals = .ok code)
    (h : programKey source globals = programKey source' globals') :
    source = source' ∧ globals = globals' := by
  have hleaf := isLeaf_of_compileProgram hcompile
  have hkey := congrArg String.toList h
  rw [toList_programKey, toList_programKey] at hkey
  have hleaf' := isLeaf_of_globalsChars hplain.source hplain'.source hplain hplain' hleaf hkey
  exact eq_of_programKey (hplain.keySafe hleaf) (hplain'.keySafe hleaf') hleaf h

theorem keySource_programKey (h : keyMark ∉ source.toList) (globals : Globals) :
    keySource (programKey source globals) = source := by
  have hall : ∀ c ∈ source.toList, (c != keyMark) = true := by
    intro c hc
    exact bne_iff_ne.2 fun heq => h (heq ▸ hc)
  rw [keySource, toList_programKey, List.takeWhile_append_of_pos hall]
  cases globals with
  | nil => simp [globalsChars]
  | cons g globals => simp [globalsChars]

/-! ### Requests and contents -/

/-- Every program that is kept has plain globals. -/
def Contents.IsPlain (m : Contents) : Prop := ∀ p ∈ m.programs, Plain p.1 p.2

/-- A request for a program has plain globals. -/
def Request.IsPlain (r : Request) : Prop :=
  ∀ source globals, r = .call (.program source globals) → Plain source globals

open scoped Classical in
theorem Contents.IsPlain.next {m : Contents} {r : Request} (h : m.IsPlain) (hr : r.IsPlain) :
    (m.next r).IsPlain := by
  intro p hp
  match r with
  | .call (.program source globals) =>
    rw [Contents.next] at hp
    split at hp
    · rcases Finset.mem_insert.1 hp with rfl | hp
      · exact hr source globals rfl
      · exact h p hp
    · exact h p hp
  | .call (.bindings source) =>
    rw [Contents.next] at hp
    split at hp <;> exact h p hp
  | .call (.invalidate source) => exact h p (Finset.mem_filter.1 hp).1
  | .call .clear => exact absurd hp (Finset.notMem_empty p)
  | .size => exact h p hp

section

open scoped Classical

variable {c : Cache} {m : Contents}

theorem Represents.size_eq (h : Represents c m) : c.size = m.programs.card + m.bindings.card := by
  rw [size, h.programs.length_eq, h.bindings.length_eq]

/-- A program is found if it is kept for its source and its globals, and only then. -/
theorem Represents.lookup_program (h : Represents c m) (hm : m.IsPlain)
    (hplain : Plain source globals) {kept : Kept Code}
    (hlookup : c.programs.lookup (programKey source globals) = some kept) :
    (source, globals) ∈ m.programs ∧ compileProgram source globals = .ok kept.content := by
  obtain ⟨⟨source', globals'⟩, hmem, hkey, hcompile⟩ := h.programs.exists_of_lookup hlookup
  obtain ⟨rfl, rfl⟩ := eq_of_key (hm _ hmem) hplain hcompile hkey
  exact ⟨hmem, hcompile⟩

theorem Represents.lookup_bindings (h : Represents c m) {kept : Kept (Bindings Code)}
    (hlookup : c.bindingPrograms.lookup source = some kept) :
    source ∈ m.bindings ∧ compileBindings source = .ok kept.content := by
  obtain ⟨source', hmem, rfl, hcompile⟩ := h.bindings.exists_of_lookup hlookup
  exact ⟨hmem, hcompile⟩

/-- Forgetting a source takes its programs and its bindings away. -/
theorem Represents.invalidate (h : Represents c m) (hm : m.IsPlain) (source : String) :
    Represents (c.invalidate source).2 (m.next (.call (.invalidate source))) := by
  constructor
  · refine h.programs.filter (fun key => keySource key != source) _ fun p hp => ?_
    rw [keySource_programKey (hm p hp).source, bne_iff_ne]
  · have hfilter := h.bindings.filter (· != source) (· ≠ source) fun s _ => bne_iff_ne
    rwa [Finset.filter_ne'] at hfilter

/-- **What a request does to a cache is what it does to its contents.** -/
theorem Represents.next (h : Represents c m) (hm : m.IsPlain) {r : Request} (hr : r.IsPlain) :
    Represents (r.next c) (m.next r) := by
  match r with
  | .call (.program source globals) =>
    rw [Request.next, Call.next, Contents.next, program]
    cases hlookup : c.programs.lookup (programKey source globals) with
    | some kept =>
      obtain ⟨hmem, hcompile⟩ := h.lookup_program hm (hr source globals rfl) hlookup
      rw [Finset.insert_eq_of_mem hmem, ite_self]
      exact h
    | none =>
      cases hcompile : compileProgram source globals with
      | error e => exact h
      | ok code =>
        exact ⟨h.programs.put (source, globals) ⟨c.stamp, code⟩ hlookup hcompile,
          h.bindings⟩
  | .call (.bindings source) =>
    rw [Request.next, Call.next, Contents.next, Cache.bindings]
    cases hlookup : c.bindingPrograms.lookup source with
    | some kept =>
      obtain ⟨hmem, hcompile⟩ := h.lookup_bindings hlookup
      rw [Finset.insert_eq_of_mem hmem, ite_self]
      exact h
    | none =>
      cases hcompile : compileBindings source with
      | error e => exact h
      | ok code =>
        exact ⟨h.programs, h.bindings.put source ⟨c.stamp, code⟩ hlookup hcompile⟩
  | .call (.invalidate source) => exact h.invalidate hm source
  | .call .clear => exact ⟨.empty, .empty⟩
  | .size => exact h

/-- **What a cache answers is what its contents tell.** -/
theorem Represents.answer (h : Represents c m) (hm : m.IsPlain) {r : Request} (hr : r.IsPlain) :
    r.answer c = m.answer r := by
  match r with
  | .call (.program source globals) =>
    rw [Request.answer, Contents.answer, program_content]
    cases hlookup : c.programs.lookup (programKey source globals) with
    | some kept => rw [(h.lookup_program hm (hr source globals rfl) hlookup).2]; rfl
    | none => rfl
  | .call (.bindings source) =>
    rw [Request.answer, Contents.answer, Cache.bindings]
    cases hlookup : c.bindingPrograms.lookup source with
    | some kept => rw [(h.lookup_bindings hlookup).2]; rfl
    | none => cases compileBindings source <;> rfl
  | .call (.invalidate source) =>
    have hcount : (c.invalidate source).1 = c.size - (c.invalidate source).2.size := rfl
    have hprograms := Finset.card_filter_add_card_filter_not (s := m.programs) fun p => p.1 = source
    have hbindings := Finset.card_filter_add_card_filter_not (s := m.bindings) fun s => s = source
    rw [Request.answer, Contents.answer, hcount, h.size_eq, (h.invalidate hm source).size_eq]
    simp only [Contents.next, ← Finset.filter_ne', ne_eq]
    congr 1
    omega
  | .call .clear => rfl
  | .size => rw [Request.answer, Contents.answer, h.size_eq]

theorem Represents.run (h : Represents c m) (hm : m.IsPlain) {requests : List Request}
    (hrequests : ∀ r ∈ requests, r.IsPlain) :
    (Cache.run c requests).1 = (m.run requests).1 ∧
      Represents (Cache.run c requests).2 (m.run requests).2 := by
  induction requests generalizing c m with
  | nil => exact ⟨rfl, h⟩
  | cons r rs ih =>
    obtain ⟨hr, hrs⟩ := List.forall_mem_cons.1 hrequests
    obtain ⟨hanswers, hlast⟩ := ih (h.next hm hr) (hm.next hr) hrs
    refine ⟨?_, hlast⟩
    rw [Cache.run, Contents.run, h.answer hm hr, hanswers]

end

/-- **A cache is a finite set of sources with their globals and a finite set of sources of
bindings.** To every sequence of requests it gives the answers that these sets give, and in the end
it keeps what they have. -/
theorem run_represents (requests : List Request)
    (hplain : ∀ source globals, Request.call (.program source globals) ∈ requests →
      Plain source globals) :
    (run empty requests).1 = (Contents.run .empty requests).1 ∧
      Represents (run empty requests).2 (Contents.run .empty requests).2 := by
  refine Represents.run ⟨.empty, .empty⟩ (fun p hp => absurd hp (Finset.notMem_empty p)) ?_
  rintro r hr source globals rfl
  exact hplain source globals hr

/-- Two programs of one source whose globals look like parts of keys, a source that does not
compile, bindings, and sources that are forgotten. -/
def sampleRequests : List Request :=
  [.call (.program "Write(a);" [("a", .string "x\nb:int=1")]), .call (.program "Write(" []),
    .call (.bindings "value: \x7b 1 \x7d"),
    .call (.program "Write(a);" [("a", .string "x"), ("b", .int 1)]),
    .size, .call (.invalidate "Write(a);"), .call (.invalidate "value: \x7b 1 \x7d"), .size,
    .call .clear]

theorem run_represents_sample :
    (run empty sampleRequests).1 = (Contents.run .empty sampleRequests).1 ∧
      Represents (run empty sampleRequests).2 (Contents.run .empty sampleRequests).2 := by
  have hword : ∀ c : Char, c.isAlpha = true → IsWord [c] := fun c hc => ⟨c, [], rfl, hc, by simp⟩
  refine run_represents sampleRequests fun source globals hmem => ?_
  simp only [sampleRequests, List.mem_cons, Request.call.injEq, Call.program.injEq, reduceCtorEq,
    List.not_mem_nil, false_or, or_false] at hmem
  rcases hmem with ⟨rfl, rfl⟩ | ⟨rfl, rfl⟩ | ⟨rfl, rfl⟩
  · refine ⟨by decide, ?_, ?_⟩
    · simpa using hword 'a' (by decide)
    · intro g hg s hs
      obtain rfl : g = ("a", .string "x\nb:int=1") := by simpa using hg
      obtain rfl : "x\nb:int=1" = s := Value.string.inj hs
      decide
  · exact ⟨by decide, by simp, by simp⟩
  · refine ⟨by decide, ?_, ?_⟩
    · simpa using ⟨hword 'a' (by decide), hword 'b' (by decide)⟩
    · intro g hg s hs
      rcases List.mem_cons.1 hg with rfl | hg
      · obtain rfl : "x" = s := Value.string.inj hs
        decide
      · obtain rfl : g = ("b", .int 1) := by simpa using hg
        cases hs

end Cache

end BindScript
