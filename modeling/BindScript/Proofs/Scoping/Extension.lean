/-
**What reading a statement adds to the scopes.**

Expressions leave the scopes as they are.  A statement adds at most one variable or one record type,
at the end of the innermost scope, and leaves the others alone; a block leaves all of them alone,
since its scope is closed again.  The block then lists what was declared directly in it: the
variables of its declarations and the record types that are written in it, both in their order.
This holds in every state of the parser, whatever its tokens and whatever its scopes.

Main results:

* `scopes_framed` — **statements extend the innermost scope and blocks give it back**, and the slots
  of a program are its globals and then its declarations.
-/

import BindScript.Proofs.Parser.Statement
import BindScript.Proofs.Scoping.Declarations

namespace BindScript

/-- The variable that a statement declares, and its type. -/
def Stmt.declared? : Stmt → Option (String × Ty)
  | .declare _ name ty _ => some (name, ty)
  | _ => none

variable {p : Parse (Option Stmt)} {b : Block}

namespace Parse

/-! ### Parsers that leave the scopes -/

/-- Where the parser succeeds, the scopes are as they were. -/
def Leaves {α : Type} (p : Parse α) : Prop :=
  ∀ ⦃st a st'⦄, p st = .ok (a, st') → st'.scopes = st.scopes

variable {α β : Type}

namespace Leaves

theorem bind {p : Parse α} {f : α → Parse β} (hp : Leaves p) (hf : ∀ a, Leaves (f a)) :
    Leaves (p >>= f) := by
  intro st b st' h
  obtain ⟨a, st₁, hpa, hfa⟩ := bind_eq_ok.1 h
  exact (hf a hfa).trans (hp hpa)

theorem pure {a : α} : Leaves (Pure.pure a) := by
  intro st b st' h
  rw [(pure_eq_ok.1 h).2]

theorem fail {cause : CompileError.Cause} {line : Nat} : Leaves (fail cause line : Parse α) :=
  fun _ _ _ h => absurd h fail_ne_ok

theorem bounded {p : Nat → Parse α} (h : ∀ n, Leaves (p n)) : Leaves (bounded p) :=
  fun _ _ _ hp => h _ (bounded_eq_ok.1 hp)

end Leaves

theorem lookahead_leaves (n : Nat) : Leaves (lookahead n) := by
  intro st t st' h
  rw [(lookahead_eq_ok h).1]

theorem peek_leaves : Leaves peek := lookahead_leaves 0

theorem advance_leaves : Leaves advance := by
  intro st t st' h
  rcases advance_eq_ok h with ⟨rest, -, rfl⟩ | ⟨-, -, rfl⟩
  · rfl
  · rfl

theorem expect_leaves (wanted : Token) : Leaves (expect wanted) := by
  refine advance_leaves.bind fun t => ?_
  split
  · exact .pure
  · exact .fail

theorem optionalMatch_leaves (wanted : Token) : Leaves (optionalMatch wanted) := by
  refine peek_leaves.bind fun t => ?_
  split
  · exact advance_leaves.bind fun _ => .pure
  · exact .pure

theorem expectIdent_leaves : Leaves expectIdent := by
  refine advance_leaves.bind fun t => ?_
  split
  · exact .pure
  · exact .fail

theorem scopes_leaves : Leaves scopes := by
  intro st Γ st' h
  rw [(scopes_eq_ok h).2]

/-! ### Expressions -/

theorem expression_leaves : Leaves expression := by
  intro st e st' h
  obtain ⟨ts, hts, -⟩ := expression_reads h
  exact hts.scopes

theorem call_leaves (name : String) (line : Nat) : Leaves (call expression name line) := by
  intro st e st' h
  obtain ⟨ts, hts, -⟩ := call_reads h
  exact hts.scopes

theorem place_leaves (name : String) (line : Nat) : Leaves (place name line) := by
  intro st p st' h
  obtain ⟨ts, hts, -⟩ := place_reads h
  exact hts.scopes

/-! ### Parts of statements -/

theorem fieldLeaves_leaves (type : Token) (field : String) (line : Nat) :
    Leaves (fieldLeaves type field line) := by
  intro st leaves st' h
  rw [(fieldLeaves_eq_ok h).2]

theorem recordFields_leaves (record : String) (rounds : Nat) (fields : Fields) :
    Leaves (recordFields record rounds fields) := by
  intro st all st' h
  obtain ⟨rest, -, rfl⟩ := recordFields_eq_ok h
  rfl

theorem initializer_leaves (ty : Ty) (name : String) (line : Nat) :
    Leaves (initializer ty name line) := by
  refine (optionalMatch_leaves _).bind fun b => ?_
  split
  · split
    · exact .fail
    · exact expression_leaves.bind fun _ => .pure
  · exact .pure

/-! ### What a statement adds -/

/-- The record declaration at the start of the tokens that are left: the name that is written in it,
and the fields that are read between its braces. -/
def WrittenRecord (st : ParseState) (name : String) (fields : Fields) : Prop :=
  ∃ t tn tb rest st₁, st.tokens = t :: tn :: tb :: rest ∧ t.token = .keyword .record ∧
    tn.token = .ident name ∧ tb.token = .mark .openBrace ∧
    bounded (fun rounds => recordFields name rounds []) { st with tokens := rest } =
      .ok (fields, st₁)

/-- What a statement adds to the innermost scope: the declaration of a record its type, the
declaration of a variable that variable, not bound and at the value that its type starts with, and
any other statement nothing. -/
inductive Adds (st : ParseState) : Option Stmt → List Slot → Table Fields → Prop
  | record {name fields} : WrittenRecord st name fields → Adds st none [] [(name, fields)]
  | declare {line name ty init nameLine value} : name ∉ st.scopes.top.slotNames →
      st.scopes.zeroValue ty nameLine = .ok value →
      Adds st (some (.declare line name ty init)) [⟨name, ty, value, false⟩] []
  | other {s} : s.declared? = none → Adds st (some s) [] []

namespace Adds

variable {st st₁ : ParseState} {o : Option Stmt} {slots : List Slot} {types : Table Fields}

theorem length_le (h : Adds st o slots types) : slots.length + types.length ≤ 1 := by
  cases h with
  | record _ => exact Nat.le_refl 1
  | declare _ _ => exact Nat.le_refl 1
  | other _ => exact Nat.zero_le 1

/-- What a statement adds depends on the scopes and not on the tokens before it. -/
theorem of_scopes {s : Stmt} (h : Adds st₁ (some s) slots types)
    (hscopes : st₁.scopes = st.scopes) :
    Adds st (some s) slots types := by
  cases h with
  | declare hnew hvalue => exact .declare (hscopes ▸ hnew) (hscopes ▸ hvalue)
  | other hs => exact .other hs

theorem map_slots (h : Adds st o slots types) :
    slots.map (fun v => (v.name, v.ty)) = o.toList.filterMap Stmt.declared? := by
  cases h with
  | record _ => rfl
  | declare _ _ => rfl
  | other hs => simp [hs]

theorem unbound (h : Adds st o slots types) : ∀ v ∈ slots, v.bound = false := by
  cases h with
  | record _ => simp
  | declare _ _ => simp
  | other _ => simp

/-- The variable that is added has a name of its own in the innermost scope. -/
theorem nodup (h : Adds st o slots types) :
    (slots.map (·.name)).Nodup ∧ ∀ v ∈ slots, v.name ∉ st.scopes.top.slotNames := by
  cases h with
  | record _ => simp
  | declare hnew _ => simpa using hnew
  | other _ => simp

end Adds

/-- A parser of statements that adds to the innermost scope what the statement adds, and changes
nothing else in the scopes. -/
def Grows (view : α → Option Stmt) (p : Parse α) : Prop :=
  ∀ ⦃st a st'⦄, p st = .ok (a, st') →
    ∃ slots types, Adds st (view a) slots types ∧ st'.scopes = st.scopes.extend slots types

/-! ### Declarations -/

theorem recordDeclaration_adds {st st' : ParseState} {u : Unit}
    (h : recordDeclaration st = .ok (u, st')) :
    ∃ name fields, WrittenRecord st name fields ∧
      st'.scopes = st.scopes.extend [] [(name, fields)] := by
  obtain ⟨t, tn, tb, rest, name, line, fields, st₁, b, st₂, Γ, htokens, ht, htn, htb, hfields,
    hsemicolon, hadd, rfl⟩ := recordDeclaration_eq_ok h
  refine ⟨name, fields, ⟨t, tn, tb, rest, st₁, htokens, ht, htn, htb, hfields⟩, ?_⟩
  rw [optionalMatch_leaves _ hsemicolon,
    Leaves.bounded (fun rounds => recordFields_leaves name rounds []) hfields] at hadd
  obtain ⟨scope, outer, hst, -, -, rfl⟩ := Scopes.addType_eq_ok hadd
  have hst : st.scopes = scope :: outer := hst
  rw [hst, Scopes.extend, List.append_nil]

theorem declaration_grows (ty : Ty) (line : Nat) : Grows some (declaration ty line) := by
  intro st s st' h
  obtain ⟨name, nameLine, st₁, init, st₂, t, st₃, Γ, hident, hinit, hsemicolon, hadd, rfl, rfl⟩ :=
    declaration_eq_ok h
  rw [expect_leaves _ hsemicolon, initializer_leaves _ _ _ hinit, expectIdent_leaves hident] at hadd
  obtain ⟨scope, outer, value, hst, hnew, -, hvalue, rfl⟩ := Scopes.addVariable_eq_ok hadd
  refine ⟨[⟨name, ty, value, false⟩], [], .declare ?_ hvalue, ?_⟩
  · rw [hst, Scopes.top, List.headD_cons]
    exact Scope.slot?_eq_none.1 hnew
  · rw [hst, Scopes.extend, List.append_nil]

theorem assignment_adds {st st' : ParseState} {s : Stmt} (h : assignment st = .ok (s, st')) :
    s.declared? = none ∧ st'.scopes = st.scopes := by
  simp only [assignment, bind_eq_ok, pure_eq_ok] at h
  obtain ⟨⟨name, line⟩, st₁, hident, target, st₂, htarget, t, st₃, heq, value, st₄, hvalue, t', st₅,
    hend, rfl, rfl⟩ := h
  refine ⟨rfl, ?_⟩
  rw [expect_leaves _ hend, expression_leaves hvalue, expect_leaves _ heq, place_leaves _ _ htarget,
    expectIdent_leaves hident]

/-! ### Statements one after the other -/

/-- Statements that are read one after the other, with the variables and the record types that they
add to the innermost scope. -/
inductive Lists (p : Parse (Option Stmt)) :
    ParseState → List Stmt → List Slot → Table Fields → ParseState → Prop
  | nil {st} : Lists p st [] [] [] st
  | cons {st st₁ st₂ o ss slots slots' types types'} : p st = .ok (o, st₁) → Adds st o slots types →
      st₁.scopes = st.scopes.extend slots types → Lists p st₁ ss slots' types' st₂ →
      Lists p st (o.toList ++ ss) (slots ++ slots') (types ++ types') st₂

namespace Lists

variable {p : Parse (Option Stmt)} {st st' : ParseState} {ss : List Stmt} {slots : List Slot}
  {types : Table Fields}

theorem scopes_eq (h : Lists p st ss slots types st') :
    st'.scopes = st.scopes.extend slots types := by
  induction h with
  | nil => rw [Scopes.extend_nil]
  | cons _ _ hscopes _ ih => rw [ih, hscopes, Scopes.extend_extend]

theorem map_slots (h : Lists p st ss slots types st') :
    slots.map (fun v => (v.name, v.ty)) = ss.filterMap Stmt.declared? := by
  induction h with
  | nil => rfl
  | cons _ hadds _ _ ih => rw [List.map_append, List.filterMap_append, hadds.map_slots, ih]

theorem unbound (h : Lists p st ss slots types st') : ∀ v ∈ slots, v.bound = false := by
  induction h with
  | nil => simp
  | cons _ hadds _ _ ih =>
    intro v hv
    rcases List.mem_append.1 hv with hv | hv
    · exact hadds.unbound v hv
    · exact ih v hv

/-- The variables have names of their own in the innermost scope. -/
theorem nodup {scope : Scope} {outer : Scopes} (h : Lists p st ss slots types st')
    (hst : st.scopes = scope :: outer) :
    (slots.map (·.name)).Nodup ∧ ∀ v ∈ slots, v.name ∉ scope.slotNames := by
  induction h generalizing scope with
  | nil => simp
  | @cons st st₁ st₂ o ss slots slots' types types' _ hadds hscopes _ ih =>
    obtain ⟨hnodup, hnew⟩ := hadds.nodup
    rw [hst, Scopes.top, List.headD_cons] at hnew
    rw [hst] at hscopes
    obtain ⟨hnodup', hnew'⟩ := ih hscopes
    -- the later variables are new to a scope in which the first one stands already
    have hnew' : ∀ v ∈ slots', v.name ∉ scope.slotNames ∧ v.name ∉ slots.map (·.name) := by
      intro v hv
      simpa [Scope.slotNames] using hnew' v hv
    constructor
    · rw [List.map_append, List.nodup_append']
      refine ⟨hnodup, hnodup', ?_⟩
      intro name hname hname'
      obtain ⟨v, hv, rfl⟩ := List.mem_map.1 hname'
      exact (hnew' v hv).2 hname
    · intro v hv
      rcases List.mem_append.1 hv with hv | hv
      · exact hnew v hv
      · exact (hnew' v hv).1

end Lists

/-- A block that is read from the first state to the second one. Its statements are read after the
brace, in a scope of their own, until the next brace; the scope is closed with it. -/
def ListsBlock (p : Parse (Option Stmt)) (st : ParseState) (b : Block) (st' : ParseState) : Prop :=
  ∃ t rest st₁ t' rest', st.tokens = t :: rest ∧ t.token = .mark .openBrace ∧
    Lists p { st with tokens := rest, scopes := Scope.empty :: st.scopes }
      b.statements b.slots b.types st₁ ∧
    st₁.tokens = t' :: rest' ∧ t'.token = .mark .closeBrace ∧
    st' = { st₁ with tokens := rest', scopes := st.scopes }

theorem ListsBlock.scopes_eq {st st' : ParseState} (h : ListsBlock p st b st') :
    st'.scopes = st.scopes := by
  obtain ⟨t, rest, st₁, t', rest', -, -, -, -, -, rfl⟩ := h
  rfl

/-- The variables of a block: one for each of its declarations, under distinct names, and none
bound. -/
theorem ListsBlock.slots_eq {st st' : ParseState} (h : ListsBlock p st b st') :
    b.slots.map (fun v => (v.name, v.ty)) = b.statements.filterMap Stmt.declared? ∧
      (b.slots.map (·.name)).Nodup ∧ ∀ v ∈ b.slots, v.bound = false := by
  obtain ⟨t, rest, st₁, t', rest', -, -, hlists, -⟩ := h
  exact ⟨hlists.map_slots, (hlists.nodup rfl).1, hlists.unbound⟩

section Blocks

variable {p : Parse (Option Stmt)} (hp : Grows id p) {st st' : ParseState}
include hp

theorem Sequence.lists {ss : List Stmt} (h : Sequence p st ss st') :
    ∃ slots types, Lists p st ss slots types st' := by
  induction h with
  | nil => exact ⟨[], [], .nil⟩
  | cons ho _ ih =>
    obtain ⟨slots, types, hadds, hscopes⟩ := hp ho
    obtain ⟨slots', types', hlists⟩ := ih
    exact ⟨_, _, .cons ho hadds hscopes hlists⟩

/-- A block lists what is declared directly in it. -/
theorem block_lists (h : block p st = .ok (b, st')) : ListsBlock p st b st' := by
  obtain ⟨t, rest, st₁, t', rest', -, htokens, htoken, hseq, htokens', htoken', hb, rfl⟩ :=
    block_eq_ok h
  obtain ⟨slots, types, hlists⟩ := hseq.lists hp
  have hscopes : st₁.scopes = ⟨slots, types⟩ :: st.scopes := hlists.scopes_eq
  simp only [hscopes, Scopes.top, List.headD_cons] at hb
  refine ⟨t, rest, st₁, t', rest', htokens, htoken, ?_, htokens', htoken', ?_⟩
  · rw [hb]
    exact hlists
  · rw [hscopes]
    rfl

theorem block_leaves : Leaves (block p) := by
  intro st b st' h
  exact (block_lists hp h).scopes_eq

theorem branchRounds_adds {rounds : Nat} {s : Stmt} (h : branchRounds p rounds st = .ok (s, st')) :
    s.declared? = none ∧ st'.scopes = st.scopes := by
  induction rounds generalizing st s with
  | zero => exact absurd h exhausted_ne_ok
  | succ rounds ih =>
    cases branchRounds_results h with
    | @mk t st₁ c st₂ yes st₃ no _ hif hc hyes hno =>
      refine ⟨rfl, ?_⟩
      have hst₃ : st₃.scopes = st.scopes := by
        rw [block_leaves hp hyes, expression_leaves hc, expect_leaves _ hif]
      cases hno with
      | alone helse => rw [optionalMatch_leaves _ helse, hst₃]
      -- the block after `else` is made of this branch, and no scope is opened for it
      | branch helse _ _ hother => rw [(ih hother).2, optionalMatch_leaves _ helse, hst₃]
      | block helse hno => rw [block_leaves hp hno, optionalMatch_leaves _ helse, hst₃]

theorem statementWith_grows : Grows id (statementWith p) := by
  intro st o st' h
  have hother : ∀ {s : Stmt}, s.declared? = none ∧ st'.scopes = st.scopes →
      ∃ slots types, Adds st (some s) slots types ∧ st'.scopes = st.scopes.extend slots types :=
    fun ⟨hs, hscopes⟩ => ⟨[], [], .other hs, by rw [hscopes, Scopes.extend_nil]⟩
  cases statementWith_results h with
  | branch hbranch => exact hother (branchRounds_adds hp (bounded_eq_ok.1 hbranch))
  | loop hwhile hc hbody =>
    exact hother ⟨rfl, by rw [block_leaves hp hbody, expression_leaves hc, expect_leaves _ hwhile]⟩
  | record hrecord =>
    obtain ⟨name, fields, hwritten, hscopes⟩ := recordDeclaration_adds hrecord
    exact ⟨[], [(name, fields)], .record hwritten, hscopes⟩
  | block hblock => exact hother ⟨rfl, block_leaves hp hblock⟩
  | declare _ _ hdeclaration =>
    obtain ⟨slots, types, hadds, hscopes⟩ := declaration_grows _ _ hdeclaration
    exact ⟨slots, types, hadds.of_scopes rfl, hscopes⟩
  | perform _ _ hcall hsemicolon =>
    refine hother ⟨rfl, ?_⟩
    rw [expect_leaves _ hsemicolon, call_leaves _ _ hcall]
  | assign hassign => exact hother (assignment_adds hassign)

end Blocks

theorem nestedStatement_grows (levels : Nat) : Grows id (nestedStatement levels) := by
  induction levels with
  | zero => exact fun _ _ _ h => absurd h exhausted_ne_ok
  | succ levels ih => exact statementWith_grows ih

/-- The parsers that statements are read with, in a block and outside. -/
inductive IsStatement : Parse (Option Stmt) → Prop
  | any : IsStatement statement
  | nested (levels : Nat) : IsStatement (nestedStatement levels)

theorem IsStatement.grows (h : IsStatement p) : Grows id p := by
  cases h with
  | any => exact fun _ _ _ h => nestedStatement_grows _ (bounded_eq_ok.1 h)
  | nested levels => exact nestedStatement_grows levels

end Parse

/-! ### Programs -/

/-- The slots of a program are those of the globals and then those of its declarations. -/
theorem parseProgram_lists {source : String} {globals : Globals} {root : Block}
    (h : parseProgram source globals = .ok root) :
    ∃ bound declared st, globalSlots globals = .ok bound ∧ root.slots = bound ++ declared ∧
      Parse.Lists Parse.statement { ParseState.start source with scopes := [⟨bound, []⟩] }
        root.statements
        declared root.types st := by
  obtain ⟨bound, st, hbound, hseq, hroot, -⟩ := parseProgram_statements h
  obtain ⟨declared, types, hlists⟩ := hseq.lists Parse.IsStatement.any.grows
  have hscopes : st.scopes = [⟨bound ++ declared, types⟩] := hlists.scopes_eq
  simp only [hscopes, Scopes.top, List.headD_cons] at hroot
  exact ⟨bound, declared, st, hbound, by rw [hroot]; rfl, by rw [hroot]; exact hlists⟩

/-- Reading a statement extends the innermost scope, at its end and by one variable or record type
at most. A block leaves all scopes as they are, and lists what is declared directly in it. The slots
of an accepted program are those of the globals, which are bound, and then those of its own
declarations, which are not. -/
theorem scopes_framed :
    (∀ ⦃p⦄, Parse.IsStatement p → ∀ ⦃st o st' scope outer⦄, st.scopes = scope :: outer →
      p st = .ok (o, st') → ∃ slots types, Parse.Adds st o slots types ∧
        slots.length + types.length ≤ 1 ∧
        st'.scopes = ⟨scope.slots ++ slots, scope.types ++ types⟩ :: outer) ∧
    (∀ ⦃p⦄, Parse.IsStatement p → ∀ ⦃st b st'⦄, Parse.block p st = .ok (b, st') →
      st'.scopes = st.scopes ∧ Parse.ListsBlock p st b st' ∧
        b.slots.map (fun v => (v.name, v.ty)) = b.statements.filterMap Stmt.declared? ∧
        (b.slots.map (·.name)).Nodup ∧ ∀ v ∈ b.slots, v.bound = false) ∧
    (∀ ⦃source globals root⦄, parseProgram source globals = .ok root →
      ∃ bound declared st, root.slots = bound ++ declared ∧
        bound.map (fun v => (v.name, v.value)) = globals ∧
        (∀ v ∈ bound, v.bound = true ∧ v.ty = v.value.ty) ∧
        Parse.Lists Parse.statement { ParseState.start source with scopes := [⟨bound, []⟩] }
          root.statements
          declared root.types st ∧
        declared.map (fun v => (v.name, v.ty)) = root.statements.filterMap Stmt.declared? ∧
        (declared.map (·.name)).Nodup ∧
        ∀ v ∈ declared, v.bound = false ∧ v.name ∉ globals.map Prod.fst) := by
  refine ⟨?_, ?_, ?_⟩
  · intro p hp st o st' scope outer hst ho
    obtain ⟨slots, types, hadds, hscopes⟩ := hp.grows ho
    rw [hst] at hscopes
    exact ⟨slots, types, hadds, hadds.length_le, hscopes⟩
  · intro p hp st b st' h
    have hlists := Parse.block_lists hp.grows h
    exact ⟨hlists.scopes_eq, hlists, hlists.slots_eq⟩
  · intro source globals root h
    obtain ⟨bound, declared, st, hbound, hslots, hlists⟩ := parseProgram_lists h
    obtain ⟨hnames, hleaves⟩ := globalSlots_eq_ok hbound
    obtain ⟨hnodup, hnew⟩ := hlists.nodup rfl
    refine ⟨bound, declared, st, hslots, map_globalSlots hbound, ?_, hlists, hlists.map_slots,
      hnodup, ?_⟩
    · intro v hv
      exact ⟨(hleaves v hv).1, (hleaves v hv).2.1⟩
    · intro v hv
      refine ⟨hlists.unbound v hv, ?_⟩
      rw [← hnames]
      exact hnew v hv

/-- A declaration in an inner scope that hides an outer variable; a block with a record type and
with blocks within it; and a program with a global. -/
theorem scopes_framed_nested :
    (∃ o st' slots types, Parse.statement { ParseState.start "string x = 'a'; int y;" with
          scopes := [Scope.empty, ⟨[⟨"x", .int, .int 0, false⟩], []⟩] } = .ok (o, st') ∧
      o.bind Stmt.declared? = some ("x", .string) ∧ slots.length + types.length ≤ 1 ∧
      st'.scopes = [⟨slots, types⟩, ⟨[⟨"x", .int, .int 0, false⟩], []⟩]) ∧
    (∃ b st', Parse.block Parse.statement { ParseState.start
        "{ record P { int a; } P x; { string x; } if true { int z; } else if x.a < 1 { } int y; }"
        with scopes := [⟨[⟨"x", .int, .int 0, false⟩], []⟩] } = .ok (b, st') ∧
      b.slots.map (·.name) = ["x", "y"] ∧ b.types = [("P", [("a", .int)])] ∧
      b.statements.filterMap Stmt.declared? = [("x", .record "P"), ("y", .int)] ∧
      (∀ v ∈ b.slots, v.bound = false) ∧ st'.scopes = [⟨[⟨"x", .int, .int 0, false⟩], []⟩]) ∧
    ∃ root bound declared,
      parseProgram "int y = x; while y < 3 { int z = y; y = z + 1; }" [("x", .int 1)] = .ok root ∧
      root.slots = bound ++ declared ∧
      bound.map (fun v => (v.name, v.value)) = [("x", .int 1)] ∧
      declared.map (fun v => (v.name, v.ty)) = [("y", .int)] := by
  obtain ⟨hstatement, hblock, hprogram⟩ := scopes_framed
  refine ⟨?_, ?_, ?_⟩
  · obtain ⟨⟨o, st'⟩, ho, hdeclared⟩ :
        ∃ r, Parse.statement { ParseState.start "string x = 'a'; int y;" with
          scopes := [Scope.empty, ⟨[⟨"x", .int, .int 0, false⟩], []⟩] } = .ok r ∧
        r.1.bind Stmt.declared? = some ("x", .string) := by
      decide +kernel
    obtain ⟨slots, types, -, hlength, hscopes⟩ := hstatement .any rfl ho
    exact ⟨o, st', slots, types, ho, hdeclared, hlength, hscopes⟩
  · obtain ⟨⟨b, st'⟩, hb, hnames, htypes, hdeclared⟩ :
        ∃ r, Parse.block Parse.statement { ParseState.start
        "{ record P { int a; } P x; { string x; } if true { int z; } else if x.a < 1 { } int y; }"
        with scopes := [⟨[⟨"x", .int, .int 0, false⟩], []⟩] } = .ok r ∧
        r.1.slots.map (·.name) = ["x", "y"] ∧ r.1.types = [("P", [("a", .int)])] ∧
        r.1.statements.filterMap Stmt.declared? = [("x", .record "P"), ("y", .int)] := by
      decide +kernel
    obtain ⟨hscopes, -, -, -, hunbound⟩ := hblock .any hb
    exact ⟨b, st', hb, hnames, htypes, hdeclared, hunbound, hscopes⟩
  · obtain ⟨root, hroot, hdeclared⟩ : ∃ root, parseProgram
        "int y = x; while y < 3 { int z = y; y = z + 1; }" [("x", .int 1)] = .ok root ∧
        root.statements.filterMap Stmt.declared? = [("y", .int)] := by
      decide +kernel
    obtain ⟨bound, declared, st, hslots, hbound, -, -, hnames, -⟩ := hprogram hroot
    exact ⟨root, bound, declared, hroot, hslots, hbound, hnames.trans hdeclared⟩

end BindScript
