/-
**What a cache gives back.**

A program is kept under a key, and a later call with the same key gets what is kept.  So a call gets
the program that the first call with its key compiled, since that key was last forgotten.  This is
what the call itself would compile if the key tells the sources and the globals apart.  It does
where no mark stands in the source, in a name or in the text of a value, and no colon in a name; it
does not in general, because nothing in a key is escaped.

Main results:

* `Cache.program_after` — **a call gets what the history leaves under its key**, and what it would
  compile itself if all calls are safe.
-/

import BindScript.Cache
import BindScript.Proofs.Code.Text
import BindScript.Proofs.Parser.Statement

namespace BindScript

variable {globals : Globals}

namespace Cache

/-! ### Histories -/

/-- What can be asked of a cache. -/
inductive Call where
  | program (source : String) (globals : Globals)
  | bindings (source : String)
  | invalidate (source : String)
  | clear

def Call.next (c : Cache) : Call → Cache
  | .program source globals => (c.program source globals).2
  | .bindings source => (c.bindings source).2
  | .invalidate source => (c.invalidate source).2
  | .clear => c.clear

/-- The cache after calls, from the first one on. -/
def after (calls : List Call) : Cache := calls.foldl Call.next empty

/-- What a call leaves under a key, where something may have been before. -/
def Call.leaves (key : String) (found : Option Code) : Call → Option Code
  | .program source globals =>
    found.or (if programKey source globals = key then (compileProgram source globals).toOption
      else none)
  | .bindings _ => found
  | .invalidate source => if keySource key = source then none else found
  | .clear => none

/-- What calls leave under a key: the program that the first of them compiled since the key was last
forgotten. -/
def remembered (key : String) (calls : List Call) : Option Code :=
  calls.foldl (Call.leaves key) none

theorem lookup_next (c : Cache) (call : Call) (key : String) :
    ((call.next c).programs.lookup key).map Kept.content =
      call.leaves key ((c.programs.lookup key).map Kept.content) := by
  cases call with
  | program source globals =>
    rw [Call.next, Call.leaves, program]
    by_cases hkey : programKey source globals = key
    · subst hkey
      cases hlookup : c.programs.lookup (programKey source globals) with
      | some kept => simp [hlookup]
      | none =>
        cases hcompile : compileProgram source globals with
        | error e => simp [hlookup, Except.toOption]
        | ok code => simp [Table.lookup_put, Except.toOption]
    · -- whatever is compiled is put under its own key
      have hne : ¬key = programKey source globals := fun h => hkey h.symm
      cases hlookup : c.programs.lookup (programKey source globals) with
      | some kept => simp [hkey]
      | none =>
        cases hcompile : compileProgram source globals with
        | error e => simp [hkey]
        | ok code => simp [Table.lookup_put, hkey, hne]
  | bindings source =>
    rw [Call.next, Call.leaves, bindings]
    cases c.bindingPrograms.lookup source with
    | some kept => rfl
    | none => cases compileBindings source <;> rfl
  | invalidate source =>
    rw [Call.next, Call.leaves, invalidate]
    simp only
    rw [Table.lookup_filter _ fun key => keySource key != source]
    by_cases hsource : keySource key = source <;> simp [hsource]
  | clear => rfl

/-- A cache keeps what its history leaves. -/
theorem lookup_after (calls : List Call) (key : String) :
    ((after calls).programs.lookup key).map Kept.content = remembered key calls := by
  have hrun : ∀ (rest : List Call) (c : Cache) (found : Option Code),
      (c.programs.lookup key).map Kept.content = found →
      ((rest.foldl Call.next c).programs.lookup key).map Kept.content =
        rest.foldl (Call.leaves key) found := by
    intro rest
    induction rest with
    | nil => exact fun c found h => h
    | cons call rest ih =>
      intro c found h
      exact ih _ _ (by rw [lookup_next, h])
  exact hrun calls empty none rfl

/-- What is left under a key was compiled by a call with that key. -/
theorem exists_of_remembered {key : String} {calls : List Call} {code : Code}
    (h : remembered key calls = some code) :
    ∃ source globals, Call.program source globals ∈ calls ∧ programKey source globals = key ∧
      compileProgram source globals = .ok code := by
  have hrun : ∀ (rest : List Call) (found : Option Code),
      rest.foldl (Call.leaves key) found = some code → found = some code ∨
        ∃ source globals, Call.program source globals ∈ rest ∧ programKey source globals = key ∧
          compileProgram source globals = .ok code := by
    intro rest
    induction rest with
    | nil => exact fun found h => .inl h
    | cons call rest ih =>
      intro found h
      rcases ih _ h with hleft | ⟨source, globals, hmem, hkey, hcompile⟩
      · cases call with
        | program source globals =>
          rcases Option.or_eq_some_iff.1 hleft with hfound | ⟨-, hnew⟩
          · exact .inl hfound
          · split at hnew
            · rename_i hkey
              refine .inr ⟨source, globals, List.mem_cons_self, hkey, ?_⟩
              cases hcompile : compileProgram source globals with
              | error e => simp [hcompile, Except.toOption] at hnew
              | ok code' => simpa [hcompile, Except.toOption] using hnew
            · cases hnew
        | bindings source => exact .inl hleft
        | invalidate source =>
          rw [Call.leaves] at hleft
          split at hleft
          · cases hleft
          · exact .inl hleft
        | clear => simp [Call.leaves] at hleft
      · exact .inr ⟨source, globals, List.mem_cons_of_mem _ hmem, hkey, hcompile⟩
  rcases hrun calls none h with hnone | hfound
  · cases hnone
  · exact hfound

/-- What a call gets: what is left under its key, or else what it compiles. -/
theorem program_content (c : Cache) (source : String) (globals : Globals) :
    (c.program source globals).1.map Kept.content =
      match (c.programs.lookup (programKey source globals)).map Kept.content with
      | some code => .ok code
      | none => compileProgram source globals := by
  rw [program]
  cases c.programs.lookup (programKey source globals) with
  | some kept => rfl
  | none => cases compileProgram source globals <;> rfl

/-! ### Keys -/

/-- Sources and globals that a key can tell apart: no mark stands anywhere, and no colon in a
name. -/
structure KeySafe (source : String) (globals : Globals) : Prop where
  source : keyMark ∉ source.toList
  names : ∀ g ∈ globals, keyMark ∉ g.1.toList ∧ ':' ∉ g.1.toList
  values : ∀ g ∈ globals, keyMark ∉ g.2.displayChars

/-- The characters of a global in a key, after the mark. -/
def globalChars (g : String × Value) : List Char :=
  g.1.toList ++ ':' :: (g.2.kind.name.toList ++ '=' :: g.2.displayChars)

/-- The characters of globals in a key. -/
def globalsChars (globals : Globals) : List Char :=
  globals.flatMap fun g => keyMark :: globalChars g

theorem toList_programKey (source : String) (globals : Globals) :
    (programKey source globals).toList = source.toList ++ globalsChars globals := by
  rw [programKey, String.toList_append, String.toList_join, List.flatMap_map]
  simp [globalsChars, globalChars, globalKey, Value.display]

theorem append_inj_of_not_mem {mark : Char} {a a' b b' : List Char} (ha : mark ∉ a)
    (ha' : mark ∉ a') (h : a ++ mark :: b = a' ++ mark :: b') : a = a' ∧ b = b' := by
  have hcut := Text.cutAt?_append ha b
  rw [h, Text.cutAt?_append ha'] at hcut
  cases hcut
  exact ⟨rfl, rfl⟩

theorem kind_name (k k' : Value.Kind) : '=' ∉ k.name.toList ∧ (k.name = k'.name → k = k') := by
  cases k <;> cases k' <;> decide

theorem globalChars_inj {g g' : String × Value} (hg : ':' ∉ g.1.toList) (hg' : ':' ∉ g'.1.toList)
    (h : globalChars g = globalChars g') :
    g.1 = g'.1 ∧ g.2.kind = g'.2.kind ∧ g.2.displayChars = g'.2.displayChars := by
  obtain ⟨hname, h⟩ := append_inj_of_not_mem hg hg' h
  obtain ⟨hkind, hdisplay⟩ := append_inj_of_not_mem (kind_name g.2.kind g'.2.kind).1
    (kind_name g'.2.kind g.2.kind).1 h
  exact ⟨String.toList_inj.1 hname, (kind_name _ _).2 (String.toList_inj.1 hkind), hdisplay⟩

theorem globalChars_safe {g : String × Value} (hname : keyMark ∉ g.1.toList)
    (hvalue : keyMark ∉ g.2.displayChars) : keyMark ∉ globalChars g := by
  have hkind : keyMark ∉ g.2.kind.name.toList := by
    cases g.2.kind <;> decide
  simp only [globalChars, List.mem_append, List.mem_cons, not_or]
  exact ⟨hname, by decide, hkind, by decide, hvalue⟩

/-- The parts of a key between marks are known from the key. -/
theorem globalsChars_inj {globals' : Globals} {a a' : List Char} (ha : keyMark ∉ a)
    (ha' : keyMark ∉ a') (hsafe : ∀ g ∈ globals, keyMark ∉ globalChars g)
    (hsafe' : ∀ g ∈ globals', keyMark ∉ globalChars g)
    (h : a ++ globalsChars globals = a' ++ globalsChars globals') :
    a = a' ∧ globals.map globalChars = globals'.map globalChars := by
  induction globals generalizing globals' a a' with
  | nil =>
    cases globals' with
    | nil => simpa [globalsChars] using h
    | cons g' globals' =>
      refine absurd ?_ ha
      have h : a = a' ++ globalsChars (g' :: globals') := by simpa [globalsChars] using h
      rw [h]
      simp [globalsChars]
  | cons g globals ih =>
    cases globals' with
    | nil =>
      refine absurd ?_ ha'
      have h : a' = a ++ globalsChars (g :: globals) := by simpa [globalsChars] using h.symm
      rw [h]
      simp [globalsChars]
    | cons g' globals' =>
      -- neither beginning has a mark, so both end at the first one
      obtain ⟨rfl, hrest⟩ := append_inj_of_not_mem ha ha' h
      obtain ⟨hsafe₁, hsafe₂⟩ := List.forall_mem_cons.1 hsafe
      obtain ⟨hsafe₁', hsafe₂'⟩ := List.forall_mem_cons.1 hsafe'
      obtain ⟨hhead, htail⟩ := ih hsafe₁ hsafe₁' hsafe₂ hsafe₂' hrest
      exact ⟨rfl, by rw [List.map_cons, List.map_cons, hhead, htail]⟩

theorem eq_of_displayChars {v v' : Value} (hleaf : v.ty.isLeaf = true) (hkind : v.kind = v'.kind)
    (hdisplay : v.displayChars = v'.displayChars) : v = v' := by
  cases v with
  | int n =>
    cases v' with
    | int m =>
      have hread := Decimal.readInt64?_toString n
      rw [show (toString n.toInt).toList = (toString m.toInt).toList from hdisplay,
        Decimal.readInt64?_toString] at hread
      rw [Option.some.inj hread]
    | _ => simp [Value.kind] at hkind
  | float x =>
    cases v' with
    | float y => rw [Decimal.Spelling.write_injective _ hdisplay]
    | _ => simp [Value.kind] at hkind
  | string s =>
    cases v' with
    | string t => rw [String.toList_inj.1 hdisplay]
    | _ => simp [Value.kind] at hkind
  | bool b =>
    cases v' with
    | bool b' => cases b <;> cases b' <;> first | rfl | exact absurd hdisplay (by decide)
    | _ => simp [Value.kind] at hkind
  | _ => simp [Value.ty, Ty.isLeaf] at hleaf

/-- **Keys tell safe sources and globals apart**, if the globals are primitive on one side. -/
theorem eq_of_programKey {source source' : String} {globals' : Globals}
    (hsafe : KeySafe source globals) (hsafe' : KeySafe source' globals')
    (hleaf : ∀ g ∈ globals, g.2.ty.isLeaf = true)
    (h : programKey source globals = programKey source' globals') :
    source = source' ∧ globals = globals' := by
  have hkey := congrArg String.toList h
  rw [toList_programKey, toList_programKey] at hkey
  obtain ⟨hsource, hchars⟩ := globalsChars_inj hsafe.source hsafe'.source
    (fun g hg => globalChars_safe (hsafe.names g hg).1 (hsafe.values g hg))
    (fun g hg => globalChars_safe (hsafe'.names g hg).1 (hsafe'.values g hg)) hkey
  refine ⟨String.toList_inj.1 hsource, ?_⟩
  have hnames := fun g hg => (hsafe.names g hg).2
  have hnames' := fun g hg => (hsafe'.names g hg).2
  clear h hkey hsafe hsafe' hsource
  induction globals generalizing globals' with
  | nil => exact (List.map_eq_nil_iff.1 hchars.symm).symm
  | cons g globals ih =>
    cases globals' with
    | nil => cases hchars
    | cons g' globals' =>
      rw [List.map_cons, List.map_cons] at hchars
      obtain ⟨hhead, htail⟩ := List.cons.inj hchars
      obtain ⟨hname, hkind, hdisplay⟩ := globalChars_inj (hnames g List.mem_cons_self)
        (hnames' g' List.mem_cons_self) hhead
      have hvalue := eq_of_displayChars (hleaf g List.mem_cons_self) hkind hdisplay
      rw [Prod.ext hname hvalue, ih (fun g hg => hleaf g (List.mem_cons_of_mem _ hg)) htail
        (fun g hg => hnames g (List.mem_cons_of_mem _ hg))
        fun g hg => hnames' g (List.mem_cons_of_mem _ hg)]

theorem isLeaf_of_compileProgram {source : String} {code : Code}
    (h : compileProgram source globals = .ok code) :
    ∀ g ∈ globals, g.2.ty.isLeaf = true := by
  cases hparse : parseProgram source globals with
  | error e =>
    rw [compileProgram, hparse] at h
    simp [Except.map] at h
  | ok root =>
    obtain ⟨slots, hslots, -⟩ := parseProgram_typed hparse
    obtain ⟨-, hleaf⟩ := globalSlots_eq_ok hslots
    rw [← map_globalSlots hslots]
    intro g hg
    obtain ⟨slot, hslot, rfl⟩ := List.mem_map.1 hg
    obtain ⟨-, hty, hslotLeaf⟩ := hleaf slot hslot
    exact hty ▸ hslotLeaf

/-! ### Calls -/

/-- **A call gets the program that the history leaves under its key, or else what it compiles
itself.** If no call of the history and not the call itself has a mark in its source, its names or
its values, or a colon in a name, it gets what it would compile, whatever was compiled before. -/
theorem program_after (calls : List Call) (source : String) (globals : Globals) :
    (((after calls).program source globals).1.map Kept.content =
      match remembered (programKey source globals) calls with
      | some code => .ok code
      | none => compileProgram source globals) ∧
    (KeySafe source globals →
      (∀ source' globals', Call.program source' globals' ∈ calls → KeySafe source' globals') →
      ((after calls).program source globals).1.map Kept.content =
        compileProgram source globals) := by
  have hanswer : ((after calls).program source globals).1.map Kept.content =
      match remembered (programKey source globals) calls with
      | some code => .ok code
      | none => compileProgram source globals := by
    rw [program_content, lookup_after]
  refine ⟨hanswer, fun hsafe hcalls => ?_⟩
  rw [hanswer]
  cases hremembered : remembered (programKey source globals) calls with
  | none => rfl
  | some code =>
    obtain ⟨source', globals', hmem, hkey, hcompile⟩ := exists_of_remembered hremembered
    obtain ⟨rfl, rfl⟩ := eq_of_programKey (hcalls source' globals' hmem) hsafe
      (isLeaf_of_compileProgram hcompile) hkey
    exact hcompile.symm

/-- A program that was compiled with another global, and bindings and a program that were forgotten,
do not change what a call gets. -/
theorem program_after_global :
    ((after [.program "int x = g;" [("g", .int 1)], .bindings "value: \x7b 1 \x7d",
      .invalidate "int x = g;", .program "int x = g;" [("g", .int 1)]]).program
        "int x = g;" [("g", .int 2)]).1.map Kept.content =
      compileProgram "int x = g;" [("g", .int 2)] := by
  refine (program_after _ _ _).2 ⟨by decide, by decide, by decide⟩ fun source globals hmem => ?_
  obtain ⟨rfl, rfl⟩ : source = "int x = g;" ∧ globals = [("g", .int 1)] := by simpa using hmem
  exact ⟨by decide, by decide, by decide⟩

/-- A global whose text looks like the rest of a key: the second call gets the program of the first,
which has one global, and not the one that it would compile, which has two. -/
theorem program_after_collision :
    ((after [.program "Write(a);" [("a", .string "x\x00b:int=1")]]).program "Write(a);"
        [("a", .string "x"), ("b", .int 1)]).1.map Kept.content =
      compileProgram "Write(a);" [("a", .string "x\x00b:int=1")] ∧
    compileProgram "Write(a);" [("a", .string "x\x00b:int=1")] ≠
      compileProgram "Write(a);" [("a", .string "x"), ("b", .int 1)] := by
  have hslots : (compileProgram "Write(a);" [("a", .string "x\x00b:int=1")]).toOption.map
        (fun code => code.map fun i => i.slots.length) = some [1, 0, 0] ∧
      (compileProgram "Write(a);" [("a", .string "x"), ("b", .int 1)]).toOption.map
        (fun code => code.map fun i => i.slots.length) = some [2, 0, 0] := by
    decide +kernel
  constructor
  · have hkey : programKey "Write(a);" [("a", .string "x\x00b:int=1")] =
        programKey "Write(a);" [("a", .string "x"), ("b", .int 1)] := by
      decide +kernel
    rw [program_content, lookup_after, remembered, List.foldl_cons, List.foldl_nil, Call.leaves,
      if_pos hkey]
    cases hcompile : compileProgram "Write(a);" [("a", .string "x\x00b:int=1")] with
    | error e => simp [hcompile, Except.toOption] at hslots
    | ok code => rfl
  · intro heq
    rw [heq, hslots.2] at hslots
    exact absurd hslots.1 (by decide)

end Cache

end BindScript
