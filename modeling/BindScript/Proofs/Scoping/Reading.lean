/-
**The scopes of the parser.**

While the parser reads a program it opens a scope for each block in braces and closes it again.  The
relation below follows it on its way: it says in which states the parser is about to read a
statement, and which blocks are open there.  For an `else if` there is a block in the tree but no
scope in the parser.  With an empty scope in the place of each of these, the scopes of the parser
have exactly the variables of the open blocks that have been passed.

Main results:

* `Site.reads` — **the parser comes to every place of an accepted program**, and its scopes have
  the variables that are in sight there.
-/

import BindScript.Proofs.Scoping.Frames

namespace BindScript

def Stmt.blocks : Stmt → List Block
  | .branch _ _ yes no => yes :: no.toList
  | .loop _ _ body => [body]
  | .block _ body => [body]
  | _ => []

theorem Stmt.check_blocks {s : Stmt} (h : s.check = .ok ()) : ∀ b ∈ s.blocks, b.check = .ok () := by
  intro b hb
  cases s with
  | branch line condition yes no =>
    simp only [Stmt.check, seq_eq_ok] at h
    rcases List.mem_cons.1 hb with rfl | hb
    · exact h.2.1
    · obtain rfl : no = some b := by simpa using hb
      exact h.2.2
  | loop line condition body =>
    obtain rfl := List.mem_singleton.1 hb
    simp only [Stmt.check, seq_eq_ok] at h
    exact h.2
  | block line body =>
    obtain rfl := List.mem_singleton.1 hb
    exact h
  | _ => simp [Stmt.blocks] at hb

namespace Parse

/-! ### Sequences of statements -/

/-- The parser reads statements, in a block or outside. -/
def Nests (p : Parse (Option Stmt)) : Prop :=
  ∀ ⦃st o st'⦄, p st = .ok (o, st') → ∃ levels, nestedStatement levels st = .ok (o, st')

theorem Nests.extends {p : Parse (Option Stmt)} (hp : Nests p) {fresh : Prop} (scope : Scope)
    (outer : Scopes) :
    Extends fresh scope outer p Option.toList := by
  intro st o st' hscopes hst h
  obtain ⟨levels, h⟩ := hp h
  exact nestedStatement_extends levels scope outer hscopes hst h

section Sequences

variable {p : Parse (Option Stmt)} {st st' : ParseState} {s : Stmt}

theorem Sequence.split {before rest : List Stmt} (h : Sequence p st (before ++ s :: rest) st') :
    ∃ st₁ st₂, Sequence p st before st₁ ∧ p st₁ = .ok (some s, st₂) ∧ Sequence p st₂ rest st' := by
  generalize hall : before ++ s :: rest = all at h
  induction h generalizing before with
  | nil => simp at hall
  | @cons st st₁ st₂ o ss ho hseq ih =>
    cases o with
    | none =>
      obtain ⟨st₃, st₄, hbefore, hs, hrest⟩ := ih hall
      exact ⟨st₃, st₄, .cons ho hbefore, hs, hrest⟩
    | some s₀ =>
      cases before with
      | nil =>
        obtain ⟨rfl, rfl⟩ : s = s₀ ∧ rest = ss := by simpa using hall
        exact ⟨st, st₁, .nil, ho, hseq⟩
      | cons s₁ before =>
        obtain ⟨rfl, htail⟩ : s₁ = s₀ ∧ before ++ s :: rest = ss := by simpa using hall
        obtain ⟨st₃, st₄, hbefore, hs, hrest⟩ := ih htail
        exact ⟨st₃, st₄, .cons ho hbefore, hs, hrest⟩

end Sequences

/-! ### The way of the parser -/

/-- On its way through a statement, the parser comes to one of its blocks: it is about to read an
opening brace or, after `else`, the word `if`. -/
inductive Comes (levels : Nat) (st : ParseState) : Stmt → Block → ParseState → Prop
  | nested {line b} : Comes levels st (.block line b) b st
  | body {t c b st₁ st₂} : expect (.keyword .whileLoop) st = .ok (t, st₁) →
      expression st₁ = .ok (c, st₂) → Comes levels st (.loop t.line c b) b st₂
  | yes {t c yes no st₁ st₂} : expect (.keyword .ifThen) st = .ok (t, st₁) →
      expression st₁ = .ok (c, st₂) → Comes levels st (.branch t.line c yes no) yes st₂
  | no {t c yes no st₁ st₂ st₃ st₄} : expect (.keyword .ifThen) st = .ok (t, st₁) →
      expression st₁ = .ok (c, st₂) → block (nestedStatement levels) st₂ = .ok (yes, st₃) →
      optionalMatch (.keyword .orElse) st₃ = .ok (true, st₄) →
      Comes levels st (.branch t.line c yes (some no)) no st₄

/-- The parser is about to read a block: in braces, or as the branch of an `else if`. -/
def ReadsBlock (levels : Nat) (st : ParseState) (b : Block) : Prop :=
  (∃ st', block (nestedStatement levels) st = .ok (b, st')) ∨
    ∃ other t rounds st', b = .mk [] [] [other] ∧ peek st = .ok (t, st) ∧
      t.token = .keyword .ifThen ∧
      branchRounds (nestedStatement levels) rounds st = .ok (other, st')

/-- The parser is about to read a statement, possibly as the branch of an `else if`. -/
def ReadsStmt (levels : Nat) (st : ParseState) (s : Stmt) : Prop :=
  ∃ st', nestedStatement (levels + 1) st = .ok (some s, st') ∨
    ∃ rounds, branchRounds (nestedStatement levels) rounds st = .ok (s, st')

/-- The parser on its way through a program: the state in which it is about to read the first of the
statements that are to come, with the blocks that are open there.  Before the program no scope is
open. -/
inductive Reads (source : String) (slots : List Slot) (root : Block) : Context → ParseState → Prop
  | outside : Reads source slots root [] (ParseState.start source)
  | program : Reads source slots root [⟨root, [], root.statements, rfl⟩]
      { ParseState.start source with scopes := Scopes.push [] slots }
  | next {b before o rest ctx st st' levels} {split : b.statements = before ++ (o.toList ++ rest)}
      (split' : b.statements = (before ++ o.toList) ++ rest) :
      Reads source slots root (⟨b, before, o.toList ++ rest, split⟩ :: ctx) st →
      nestedStatement levels st = .ok (o, st') →
      Reads source slots root (⟨b, before ++ o.toList, rest, split'⟩ :: ctx) st'
  | block {o s rest ctx st st₁ st₂ t b levels} : Reads source slots root (o :: ctx) st →
      o.after = s :: rest → Comes levels st s b st₁ → expect (.mark .openBrace) st₁ = .ok (t, st₂) →
      Reads source slots root (⟨b, [], b.statements, rfl⟩ :: o :: ctx)
        { st₂ with scopes := st₂.scopes.push [] }
  | elseIf {o s rest ctx st st₁ t other levels} : Reads source slots root (o :: ctx) st →
      o.after = s :: rest → Comes levels st s (.mk [] [] [other]) st₁ → peek st₁ = .ok (t, st₁) →
      t.token = .keyword .ifThen →
      Reads source slots root (⟨.mk [] [] [other], [], [other], rfl⟩ :: o :: ctx) st₁

variable {p : Parse (Option Stmt)} {st st' st₁ : ParseState} {levels : Nat} {s : Stmt}
    {ss : List Stmt} {b : Block}

theorem Reads.sequence {source : String} {slots : List Slot} {root : Block} {ctx : Context}
    (hp : Nests p) (hseq : Sequence p st ss st') :
    ∀ {before rest : List Stmt} {split : b.statements = before ++ (ss ++ rest)}
      (split' : b.statements = (before ++ ss) ++ rest),
      Reads source slots root (⟨b, before, ss ++ rest, split⟩ :: ctx) st →
      Reads source slots root (⟨b, before ++ ss, rest, split'⟩ :: ctx) st' := by
  induction hseq with
  | nil =>
    intro before rest split split' h
    simpa using h
  | @cons st st₁ st₂ o ss ho _ ih =>
    intro before rest split split' h
    obtain ⟨levels, ho⟩ := hp ho
    have hnext : b.statements = (before ++ o.toList) ++ (ss ++ rest) := by simpa using split
    have hall : b.statements = ((before ++ o.toList) ++ ss) ++ rest := by simpa using split
    have hread : Reads source slots root
        (⟨b, before, o.toList ++ (ss ++ rest), by simpa using split⟩ :: ctx) st := by simpa using h
    simpa using ih hall (.next hnext hread ho)

/-- On its way to a block the parser leaves the scopes as they are. -/
theorem Comes.keeps {fresh : Prop} (h : Comes levels st s b st₁) (hst : st.Good fresh) :
    st₁.Good fresh ∧ st₁.scopes = st.scopes := by
  cases h with
  | nested => exact ⟨hst, rfl⟩
  | body hwhile hc =>
    obtain ⟨hst₁, hscopes₁, -⟩ := (expect_yields (by simp) rfl).keeps rfl hst hwhile
    obtain ⟨hst₂, hscopes₂, -⟩ := expression_yields.keeps rfl hst₁ hc
    exact ⟨hst₂, hscopes₂.trans hscopes₁⟩
  | yes hif hc =>
    obtain ⟨hst₁, hscopes₁, -⟩ := (expect_yields (by simp) rfl).keeps rfl hst hif
    obtain ⟨hst₂, hscopes₂, -⟩ := expression_yields.keeps rfl hst₁ hc
    exact ⟨hst₂, hscopes₂.trans hscopes₁⟩
  | no hif hc hyes helse =>
    obtain ⟨hst₁, hscopes₁, -⟩ := (expect_yields (by simp) rfl).keeps rfl hst hif
    obtain ⟨hst₂, hscopes₂, -⟩ := expression_yields.keeps rfl hst₁ hc
    obtain ⟨hst₃, hscopes₃, -⟩ := block_keeps (nestedStatement_extends levels) rfl hst₂ hyes
    obtain ⟨hst₄, hscopes₄, -⟩ := (optionalMatch_yields (by simp) rfl).keeps rfl hst₃ helse
    exact ⟨hst₄, hscopes₄.trans (hscopes₃.trans (hscopes₂.trans hscopes₁))⟩

/-! ### Blocks of statements -/

theorem readsBlock_of_branchRounds {rounds : Nat}
    (h : branchRounds (nestedStatement levels) rounds st = .ok (s, st')) :
    ∀ b ∈ s.blocks, ∃ st₁, Comes levels st s b st₁ ∧ ReadsBlock levels st₁ b := by
  cases rounds with
  | zero => exact absurd h exhausted_ne_ok
  | succ rounds =>
    cases branchRounds_results h with
    | mk hif hc hyes hno =>
      intro b hb
      rcases List.mem_cons.1 hb with rfl | hb
      · exact ⟨_, .yes hif hc, .inl ⟨_, hyes⟩⟩
      · cases hno with
        | alone => cases hb
        | branch helse hpeek htoken hother =>
          obtain rfl : b = _ := by simpa using hb
          exact ⟨_, .no hif hc hyes helse, .inr ⟨_, _, rounds, _, rfl, hpeek, htoken, hother⟩⟩
        | block helse hno =>
          obtain rfl : b = _ := by simpa using hb
          exact ⟨_, .no hif hc hyes helse, .inl ⟨_, hno⟩⟩

/-- **The parser comes to each block of a statement that it reads.** -/
theorem readsBlock_of_mem (h : ReadsStmt levels st s) :
    ∀ b ∈ s.blocks, ∃ st₁, Comes levels st s b st₁ ∧ ReadsBlock levels st₁ b := by
  obtain ⟨st', hread | ⟨rounds, hbranch⟩⟩ := h
  · cases statementWith_results hread with
    | branch hbranch => exact readsBlock_of_branchRounds (bounded_eq_ok.1 hbranch)
    | loop hwhile hc hbody =>
      intro b hb
      obtain rfl := List.mem_singleton.1 hb
      exact ⟨_, .body hwhile hc, .inl ⟨_, hbody⟩⟩
    | block hblock =>
      intro b hb
      obtain rfl := List.mem_singleton.1 hb
      exact ⟨st, .nested, .inl ⟨st', hblock⟩⟩
    | declare _ _ hdeclaration =>
      obtain ⟨_, _, _, _, _, _, _, _, -, -, -, -, rfl, -⟩ := declaration_eq_ok hdeclaration
      simp [Stmt.blocks]
    | perform => simp [Stmt.blocks]
    | assign hassign =>
      simp only [assignment, bind_eq_ok, pure_eq_ok] at hassign
      obtain ⟨_, _, -, _, _, -, _, _, -, _, _, -, _, _, -, rfl, -⟩ := hassign
      simp [Stmt.blocks]
  · exact readsBlock_of_branchRounds hbranch

end Parse

/-! ### Scopes and open blocks -/

/-- The second scopes are the first ones with an empty scope for each `else if` that is open. They
have the variables of the open blocks that are in sight. -/
inductive Scopes.Pads : Context → Scopes → Scopes → Prop
  | nil : Scopes.Pads [] [] []
  | scope {o ctx scope Δ Γ} : o.slots = scope.slots → Scopes.Pads ctx Δ Γ →
      Scopes.Pads (o :: ctx) (scope :: Δ) (scope :: Γ)
  | elseIf {o ctx Δ Γ line condition yes no} : o.block = .mk [] [] [.branch line condition yes no] →
      Scopes.Pads ctx Δ Γ → Scopes.Pads (o :: ctx) Δ (Scope.empty :: Γ)

namespace Scopes.Pads

variable {ctx : Context} {Γ Δ : Scopes}

theorem slots_eq (h : Scopes.Pads ctx Δ Γ) : Γ.map (·.slots) = ctx.map Open.slots := by
  induction h with
  | nil => rfl
  | scope hslots _ ih => rw [List.map_cons, List.map_cons, hslots, ih]
  | @elseIf o _ _ _ _ _ _ _ hblock _ ih =>
    have hnone : o.slots = [] := by simp [Open.slots, hblock, Block.slots]
    rw [List.map_cons, List.map_cons, hnone, ih]
    rfl

theorem slot?_eq (h : Scopes.Pads ctx Δ Γ) (name : String) : Γ.slot? name = Δ.slot? name := by
  induction h with
  | nil => rfl
  | scope _ _ ih =>
    rw [Scopes.slot?, Scopes.slot?] at ih ⊢
    rw [List.findSome?_cons, List.findSome?_cons, ih]
  | elseIf _ _ ih =>
    rw [← ih]
    rfl

end Scopes.Pads

namespace Parse

variable {source : String} {slots : List Slot} {root : Block}

/-- The parser has come to a place where the given blocks are open. -/
structure Stage (source : String) (slots : List Slot) (root : Block) (ctx : Context)
    (st : ParseState) : Prop where
  reads : Reads source slots root ctx st
  good : st.Good (RecordNamesFresh source)
  pads : ∃ Γ, Scopes.Pads ctx st.scopes Γ

theorem check_eq (b : Block) : b.check = checkStatements b.statements := by
  cases b
  rfl

/-- The parser comes to each statement of a block, if it reads the statements of the block one after
the other from the scope on that the block begins with. -/
theorem exists_stage_of_sequence {b : Block} {ctx : Context} {st st' : ParseState} {Γ Δ : Scopes}
    {s : Stmt} {before rest : List Stmt} {p : Parse (Option Stmt)} (hp : Nests p)
    (hreads : Reads source slots root (⟨b, [], b.statements, rfl⟩ :: ctx) st)
    (hgood : st.Good (RecordNamesFresh source))
    (hscopes : st.scopes = ⟨b.initial, []⟩ :: Δ) (hpads : Scopes.Pads ctx Δ Γ)
    (hopens : b.Opens (RecordNamesFresh source) Δ) (hseq : Sequence p st b.statements st')
    (hb : b = .mk st'.scopes.top.slots st'.scopes.top.types b.statements)
    (hcheck : b.check = .ok ()) (split : b.statements = before ++ s :: rest) :
    ∃ st₁ levels, Stage source slots root (⟨b, before, s :: rest, split⟩ :: ctx) st₁ ∧
      ReadsStmt levels st₁ s := by
  have hall := hseq
  rw [split] at hall
  obtain ⟨st₁, st₂, hbefore, hs, hrest⟩ := hall.split
  have hafter : Sequence p st₁ (s :: rest) st' := .cons hs hrest
  rw [check_eq, split] at hcheck
  obtain ⟨hc, hc'⟩ := checkStatements_append.1 hcheck
  obtain ⟨hgood₁, scope, hscopes₁, htyped⟩ := hbefore.extends hp.extends hscopes hgood
  obtain ⟨-, scope', hscopes', htyped'⟩ := hafter.extends hp.extends hscopes₁ hgood₁
  have hend : scope' = ⟨b.slots, b.types⟩ := by
    rw [hb, hscopes']
    rfl
  have hafterTyped := htyped' hc'
  rw [hend] at hafterTyped
  -- in sight is what has been declared before the statement
  have hsight : Open.slots ⟨b, before, s :: rest, split⟩ = scope.slots :=
    Open.slots_eq (o := ⟨b, before, s :: rest, split⟩) hopens (htyped hc) hafterTyped
  have hopen : (⟨b, [], b.statements, rfl⟩ : Open) = ⟨b, [], before ++ s :: rest, split⟩ := by
    simp only [split]
  rw [hopen] at hreads
  obtain ⟨n, hs⟩ := hp hs
  refine ⟨st₁, n - 1, ⟨Reads.sequence hp hbefore split hreads, hgood₁, ?_⟩, st₂, .inl ?_⟩
  · rw [hscopes₁]
    exact ⟨_, .scope hsight hpads⟩
  · cases n with
    | zero => exact absurd hs exhausted_ne_ok
    | succ n => exact hs

/-- What the parser does at a part of the tree. -/
def Meeting (source : String) (slots : List Slot) (root : Block) (ctx : Context) :
    Part → Prop
  | .stmt s => s.check = .ok () ∧ ∃ o outer rest st levels, ctx = o :: outer ∧ o.after = s :: rest ∧
      Stage source slots root ctx st ∧ ReadsStmt levels st s
  | .block b => b.check = .ok () ∧ ((ctx = [] ∧ b = root) ∨
      ∃ o outer s rest st st₁ levels, ctx = o :: outer ∧ o.after = s :: rest ∧
        Stage source slots root ctx st ∧ Comes levels st s b st₁ ∧ ReadsBlock levels st₁ b)
  | _ => ∃ st, Stage source slots root ctx st

/-- The parser has read a program: the statements one after the other, from the variables on that
the program begins with. -/
structure Program (source : String) (slots : List Slot) (root : Block) : Prop where
  sequence : ∃ st',
    Sequence statement { ParseState.start source with scopes := Scopes.push [] slots }
    root.statements st' ∧ root = .mk st'.scopes.top.slots st'.scopes.top.types root.statements
  initial : root.initial = slots
  opens : root.Opens (RecordNamesFresh source) []
  check : root.check = .ok ()

theorem parseProgram_program {globals : Globals} (h : parseProgram source globals = .ok root)
    (hglobals : (globals.map Prod.fst).Nodup) :
    ∃ slots, globalSlots globals = .ok slots ∧ Program source slots root := by
  obtain ⟨slots, st₁, hslots, hseq, hroot, hcheck⟩ := parseProgram_statements h
  obtain ⟨slots', hslots', htyped⟩ := parseProgram_typed h
  obtain rfl : slots = slots' := Except.ok.inj (hslots.symm.trans hslots')
  obtain ⟨-, hleaves⟩ := globalSlots_eq_ok hslots
  exact ⟨slots, hslots, ⟨st₁, hseq, hroot⟩, Block.initial_eq htyped
    fun slot hslot => (hleaves slot hslot).1, parseProgram_opens h hglobals, hcheck⟩

namespace Meeting

variable {ctx : Context} {b : Block} {s : Stmt}

theorem statement (hprogram : Program source slots root)
    (h : Meeting source slots root ctx (.block b)) {before rest : List Stmt}
    (split : b.statements = before ++ s :: rest) :
    Meeting source slots root (⟨b, before, s :: rest, split⟩ :: ctx) (.stmt s) := by
  obtain ⟨hcheck, hplace⟩ := h
  have hs : s.check = .ok () := by
    rw [check_eq, split] at hcheck
    have hafter := (checkStatements_append.1 hcheck).2
    simp only [checkStatements, seq_eq_ok] at hafter
    exact hafter.1
  refine ⟨hs, ?_⟩
  rcases hplace with ⟨rfl, rfl⟩ | ⟨o, outer, s₀, rest₀, st, st₁, levels, rfl, hafter, hstage,
    hcomes, hblock⟩
  · obtain ⟨st', hseq, hroot⟩ := hprogram.sequence
    obtain ⟨st₁, levels, hstage, hread⟩ := exists_stage_of_sequence (fun _ _ _ h => ⟨_, h⟩) .program
      (ParseState.good_start source slots) (by rw [hprogram.initial]; rfl)
        .nil hprogram.opens hseq hroot hcheck split
    exact ⟨_, _, rest, st₁, levels, rfl, rfl, hstage, hread⟩
  · obtain ⟨hgood₁, hscopes₁⟩ := hcomes.keeps hstage.good
    obtain ⟨Γ, hpads⟩ := hstage.pads
    rcases hblock with ⟨st', hblock⟩ | ⟨other, t, rounds, st', rfl, hpeek, htoken, hbranch⟩
    · obtain ⟨t, rest₁, st₃, -, -, hbrace, htokens, htoken, hseq, -, -, hb, -⟩ := block_eq_ok hblock
      obtain ⟨-, -, htyped⟩ := block_keeps (nestedStatement_extends levels) hscopes₁ hgood₁ hblock
      have hopens := (htyped hcheck).opens
      have hinitial : b.initial = [] := by
        cases htyped hcheck with
        | mk hss => exact Block.initial_eq (b := .mk _ _ _) hss (by simp)
      obtain ⟨st₄, n, hstage', hread⟩ := exists_stage_of_sequence (fun _ _ _ h => ⟨levels, h⟩)
        (.block hstage.reads hafter hcomes hbrace) (hgood₁.enter htokens htoken)
        (by rw [hinitial, ← hscopes₁]; rfl) hpads hopens hseq hb hcheck split
      exact ⟨_, _, rest, st₄, n, rfl, rfl, hstage', hread⟩
    · -- the block of an `else if` has one statement, which is read in the scopes around it
      obtain ⟨rfl, rfl, rfl⟩ : before = [] ∧ s = other ∧ rest = [] := by
        cases before with
        | nil => simpa [Block.statements, eq_comm] using split
        | cons s' before => simp [Block.statements] at split
      obtain ⟨-, -, ⟨line, condition, yes, no, rfl⟩, -⟩ :=
        branchRounds_keeps (nestedStatement_extends levels) rounds hscopes₁ hgood₁ hbranch
      refine ⟨_, _, [], st₁, levels, rfl, rfl,
        ⟨.elseIf hstage.reads hafter hcomes hpeek htoken, hgood₁, ?_⟩, st', .inr ⟨rounds, hbranch⟩⟩
      rw [hscopes₁]
      exact ⟨_, .elseIf rfl hpads⟩

theorem block (h : Meeting source slots root ctx (.stmt s)) (hb : b ∈ s.blocks) :
    Meeting source slots root ctx (.block b) := by
  obtain ⟨hcheck, o, outer, rest, st, levels, hctx, hafter, hstage, hread⟩ := h
  obtain ⟨st₁, hcomes, hblock⟩ := readsBlock_of_mem hread b hb
  exact ⟨Stmt.check_blocks hcheck b hb,
    .inr ⟨o, outer, s, rest, st, st₁, levels, hctx, hafter, hstage, hcomes, hblock⟩⟩

theorem stage (h : Meeting source slots root ctx (.stmt s)) :
    ∃ st, Stage source slots root ctx st := by
  obtain ⟨-, o, outer, rest, st, levels, -, -, hstage, -⟩ := h
  exact ⟨st, hstage⟩

end Meeting

end Parse

theorem Site.meeting {source : String} {slots : List Slot} {root : Block}
    (hprogram : Parse.Program source slots root) {p : Nat} {ctx : Context} {part : Part}
    (h : Site root p ctx part) : Parse.Meeting source slots root ctx part := by
  induction h with
  | root => exact ⟨hprogram.check, .inl ⟨rfl, rfl⟩⟩
  | statement split _ ih => exact ih.statement hprogram split
  | yes _ ih | no _ _ _ ih | body _ ih | nested _ ih => exact ih.block (by simp [Stmt.blocks])
  | condition _ ih | skip _ _ _ ih | test _ ih | again _ _ ih | init _ ih | value _ ih
  | performed _ ih => exact ih.stage
  | operand _ ih => exact ih
  | left _ ih => exact ih
  | right _ ih => exact ih
  | selector _ ih => exact ih
  | first _ ih => exact ih
  | second _ _ ih => exact ih
  | argument _ ih => exact ih

/-- **The parser comes to every place of an accepted program**: there is a state on its way in which
the blocks are open that are open at the place, and its scopes, with an empty one for each `else
if`, have the variables that are in sight. -/
theorem Site.reads {source : String} {slots : List Slot} {root : Block}
    (hprogram : Parse.Program source slots root) {p : Nat} {ctx : Context} {part : Part}
    (h : Site root p ctx part) :
    ∃ st Γ, Parse.Reads source slots root ctx st ∧ Scopes.Pads ctx st.scopes Γ := by
  have hstaged : (∃ st, Parse.Stage source slots root ctx st) →
      ∃ st Γ, Parse.Reads source slots root ctx st ∧ Scopes.Pads ctx st.scopes Γ := by
    rintro ⟨st, hstage⟩
    obtain ⟨Γ, hpads⟩ := hstage.pads
    exact ⟨st, Γ, hstage.reads, hpads⟩
  have hmeeting := h.meeting hprogram
  cases part with
  | stmt s => exact hstaged hmeeting.stage
  | expr e => exact hstaged hmeeting
  | goto target => exact hstaged hmeeting
  | block b =>
    obtain ⟨-, ⟨rfl, rfl⟩ | ⟨o, outer, s, rest, st, st₁, levels, -, -, hstage, -⟩⟩ := hmeeting
    · exact ⟨_, [], .outside, .nil⟩
    · exact hstaged ⟨st, hstage⟩

end BindScript
