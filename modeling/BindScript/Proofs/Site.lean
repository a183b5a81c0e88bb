/-
**Places in a tree.**

A statement, a block or an expression of a program stands at a position of the code, inside the
blocks that are open there.  An open block is known with the statements that come before the place
and with those that are still to come, so that its variables in sight can be told.  A jump at the
end of a branch or a loop is a place as well: the machine fetches it like any other instruction.

Main results:

* `Site.code` — the code of every part stands at its position;
* `Site.context_unique` — the parts that stand at a position have the same open blocks.
-/

import BindScript.Proofs.Machine.Segment
import BindScript.Proofs.Typing

namespace BindScript

/-! ### Open blocks -/

/-- An open block: its statements are those before a place in it, and those from the place on. -/
structure Open where
  block : Block
  before : List Stmt
  after : List Stmt
  split : block.statements = before ++ after

/-- The open blocks at a place, the innermost first. -/
abbrev Context := List Open

/-- The variables of an open block that are in sight: those that are bound from the start, and those
that have been declared. -/
def Open.slots (o : Open) : List Slot :=
  o.block.slots.filter fun s => s.bound || (o.before.flatMap Stmt.declares).contains s.name

namespace Context

/-- The innermost variable of a name that is in sight. -/
def slot? (ctx : Context) (name : String) : Option Slot :=
  ctx.findSome? fun o => o.slots.find? fun s => s.name == name

/-- The innermost record type of a name that an open block declares. -/
def type? (ctx : Context) (name : String) : Option Fields :=
  ctx.findSome? fun o => o.block.types.lookup name

end Context

/-! ### Parts -/

/-- What can stand at a place. -/
inductive Part where
  | stmt (s : Stmt)
  | block (b : Block)
  | expr (e : Expr)
  /-- The jump at the end of a branch or a loop. -/
  | goto (target : Nat)

def Part.codeAt (position : Nat) : Part → Code
  | .stmt s => s.codeAt position
  | .block b => b.codeAt position
  | .expr e => e.codeAt position
  | .goto target => [.jump target]

/-- A part of the tree stands at a position, with the given blocks open. -/
inductive Site (root : Block) : Nat → Context → Part → Prop
  | root : Site root 0 [] (.block root)
  | statement {p ctx b before s rest} (split : b.statements = before ++ s :: rest) :
      Site root p ctx (.block b) →
      Site root (p + 1 + (codeOfStatements (p + 1) before).length)
        (⟨b, before, s :: rest, split⟩ :: ctx) (.stmt s)
  | condition {p ctx line condition yes no} :
      Site root p ctx (.stmt (.branch line condition yes no)) →
      Site root (p + 1) ctx (.expr condition)
  | yes {p ctx line condition yes no} :
      Site root p ctx (.stmt (.branch line condition yes no)) →
      Site root (p + 1 + (condition.codeAt (p + 1)).length) ctx (.block yes)
  | skip {p q r ctx line condition yes no} :
      Site root p ctx (.stmt (.branch line condition yes (some no))) →
      q = p + 1 + (condition.codeAt (p + 1)).length → r = q + (yes.codeAt q).length →
      Site root r ctx (.goto (r + 1 + (no.codeAt (r + 1)).length))
  | no {p q r ctx line condition yes no} :
      Site root p ctx (.stmt (.branch line condition yes (some no))) →
      q = p + 1 + (condition.codeAt (p + 1)).length → r = q + (yes.codeAt q).length →
      Site root (r + 1) ctx (.block no)
  | test {p ctx line condition body} :
      Site root p ctx (.stmt (.loop line condition body)) → Site root (p + 1) ctx (.expr condition)
  | body {p ctx line condition body} :
      Site root p ctx (.stmt (.loop line condition body)) →
      Site root (p + 1 + (condition.codeAt (p + 1)).length) ctx (.block body)
  | again {p q ctx line condition body} :
      Site root p ctx (.stmt (.loop line condition body)) →
      q = p + 1 + (condition.codeAt (p + 1)).length →
      Site root (q + (body.codeAt q).length) ctx (.goto p)
  | nested {p ctx line b} :
      Site root p ctx (.stmt (.block line b)) → Site root p ctx (.block b)
  | init {p ctx line name ty e} :
      Site root p ctx (.stmt (.declare line name ty (some e))) → Site root (p + 1) ctx (.expr e)
  | value {p ctx line target e} :
      Site root p ctx (.stmt (.assign line target e)) → Site root (p + 1) ctx (.expr e)
  | performed {p ctx e} : Site root p ctx (.stmt (.perform e)) → Site root p ctx (.expr e)
  | operand {p ctx line logical e} :
      Site root p ctx (.expr (.negate line logical e)) → Site root (p + 1) ctx (.expr e)
  | left {p ctx line op ty left right} :
      Site root p ctx (.expr (.binary line op ty left right)) → Site root (p + 1) ctx (.expr left)
  | right {p ctx line op ty left right} :
      Site root p ctx (.expr (.binary line op ty left right)) →
      Site root (p + 1 + (left.codeAt (p + 1)).length) ctx (.expr right)
  | selector {p ctx line ty condition yes no} :
      Site root p ctx (.expr (.select line ty condition yes no)) →
      Site root (p + 1) ctx (.expr condition)
  | first {p ctx line ty condition yes no} :
      Site root p ctx (.expr (.select line ty condition yes no)) →
      Site root (p + 1 + (condition.codeAt (p + 1)).length) ctx (.expr yes)
  | second {p q ctx line ty condition yes no} :
      Site root p ctx (.expr (.select line ty condition yes no)) →
      q = p + 1 + (condition.codeAt (p + 1)).length →
      Site root (q + (yes.codeAt q).length) ctx (.expr no)
  | argument {p ctx line f ty args arg rest} :
      Site root p ctx (.expr (.call line f ty (args ++ arg :: rest))) →
      Site root (p + 1 + (Expr.codeOfAll (p + 1) args).length) ctx (.expr arg)

/-! ### Code -/

theorem codeOfStatements_append (p : Nat) (ss ss' : List Stmt) :
    codeOfStatements p (ss ++ ss') =
      codeOfStatements p ss ++ codeOfStatements (p + (codeOfStatements p ss).length) ss' := by
  induction ss generalizing p with
  | nil => simp [codeOfStatements]
  | cons s ss ih =>
    simp only [List.cons_append, codeOfStatements, ih, List.append_assoc, List.length_append,
      Nat.add_assoc]

/-- The code of every part of a program stands at its position. -/
theorem Site.code {root : Block} {p : Nat} {ctx : Context} {part : Part}
    (h : Site root p ctx part) :
    Code.At root.code.toArray p (part.codeAt p) := by
  induction h with
  | root => exact Code.at_self root.code
  | @statement p ctx b before s rest split _ ih =>
    simp only [Part.codeAt, Block.codeAt_eq, split, codeOfStatements_append,
      codeOfStatements] at ih ⊢
    have hbody := (Code.at_append.1 (Code.at_cons.1 ih).2).2
    exact (Code.at_append.1 hbody).1
  | @condition p ctx line condition yes no _ ih =>
    cases no with
    | none =>
      simp only [Part.codeAt, Stmt.codeAt] at ih ⊢
      exact (Code.at_append.1 (Code.at_cons.1 ih).2).1
    | some no =>
      simp only [Part.codeAt, Stmt.codeAt, List.append_assoc] at ih ⊢
      exact (Code.at_append.1 (Code.at_cons.1 ih).2).1
  | @yes p ctx line condition yes no _ ih =>
    cases no with
    | none =>
      simp only [Part.codeAt, Stmt.codeAt] at ih ⊢
      exact (Code.at_append.1 (Code.at_cons.1 ih).2).2
    | some no =>
      simp only [Part.codeAt, Stmt.codeAt, List.append_assoc] at ih ⊢
      have hrest := (Code.at_append.1 (Code.at_cons.1 ih).2).2
      exact (Code.at_append.1 hrest).1
  | skip _ hq hr ih =>
    subst hq hr
    simp only [Part.codeAt, Stmt.codeAt, List.append_assoc] at ih ⊢
    have hrest := (Code.at_append.1 (Code.at_append.1 (Code.at_cons.1 ih).2).2).2
    obtain ⟨hjump, hno⟩ := Code.at_cons.1 hrest
    have hbound := hno.bound
    exact Code.at_cons.2 ⟨hjump, by unfold Code.At; omega⟩
  | no _ hq hr ih =>
    subst hq hr
    simp only [Part.codeAt, Stmt.codeAt, List.append_assoc] at ih ⊢
    have hrest := (Code.at_append.1 (Code.at_append.1 (Code.at_cons.1 ih).2).2).2
    exact (Code.at_cons.1 hrest).2
  | test _ ih =>
    simp only [Part.codeAt, Stmt.codeAt, List.append_assoc] at ih ⊢
    exact (Code.at_append.1 (Code.at_cons.1 ih).2).1
  | body _ ih =>
    simp only [Part.codeAt, Stmt.codeAt, List.append_assoc] at ih ⊢
    have hrest := (Code.at_append.1 (Code.at_cons.1 ih).2).2
    exact (Code.at_append.1 hrest).1
  | again _ hq ih =>
    subst hq
    simp only [Part.codeAt, Stmt.codeAt, List.append_assoc] at ih ⊢
    have hrest := (Code.at_append.1 (Code.at_cons.1 ih).2).2
    exact (Code.at_append.1 hrest).2
  | nested _ ih => exact ih
  | init _ ih => exact (Code.at_cons.1 ih).2
  | value _ ih => exact (Code.at_cons.1 ih).2
  | performed _ ih => exact ih
  | operand _ ih => exact (Code.at_cons.1 ih).2
  | left _ ih =>
    simp only [Part.codeAt, Expr.codeAt] at ih ⊢
    exact (Code.at_append.1 (Code.at_cons.1 ih).2).1
  | right _ ih =>
    simp only [Part.codeAt, Expr.codeAt] at ih ⊢
    exact (Code.at_append.1 (Code.at_cons.1 ih).2).2
  | selector _ ih =>
    simp only [Part.codeAt, Expr.codeAt, List.append_assoc] at ih ⊢
    exact (Code.at_append.1 (Code.at_cons.1 ih).2).1
  | first _ ih =>
    simp only [Part.codeAt, Expr.codeAt, List.append_assoc] at ih ⊢
    have hrest := (Code.at_append.1 (Code.at_cons.1 ih).2).2
    exact (Code.at_append.1 hrest).1
  | second _ hq ih =>
    subst hq
    simp only [Part.codeAt, Expr.codeAt, List.append_assoc] at ih ⊢
    have hrest := (Code.at_append.1 (Code.at_cons.1 ih).2).2
    exact (Code.at_append.1 hrest).2
  | argument _ ih =>
    simp only [Part.codeAt, Expr.codeAt, Expr.codeOfAll_append, Expr.codeOfAll] at ih ⊢
    have hrest := (Code.at_append.1 (Code.at_cons.1 ih).2).2
    exact (Code.at_append.1 hrest).1

/-! ### One context for each position -/

mutual

/-- The given blocks, and within them those that are open at a position in a statement. -/
def Stmt.contextAt (q : Nat) (ctx : Context) (p : Nat) : Stmt → Context
  | .branch _ condition yes none => yes.contextAt q ctx (p + 1 + (condition.codeAt (p + 1)).length)
  | .branch _ condition yes (some no) =>
    let r := p + 1 + (condition.codeAt (p + 1)).length
    no.contextAt q (yes.contextAt q ctx r) (r + (yes.codeAt r).length + 1)
  | .loop _ condition body => body.contextAt q ctx (p + 1 + (condition.codeAt (p + 1)).length)
  | .block _ body => body.contextAt q ctx p
  | _ => ctx

/-- The given blocks, and within them those that are open at a position in a block. -/
def Block.contextAt (q : Nat) (ctx : Context) (p : Nat) : Block → Context
  | .mk slots types statements =>
    if p < q ∧ q < p + ((Block.mk slots types statements).codeAt p).length then
      contextOfStatements q ctx (p + 1) (.mk slots types statements) [] statements rfl
    else ctx

/-- The same for the rest of the statements of a block. -/
def contextOfStatements (q : Nat) (ctx : Context) (p : Nat) (b : Block) (before : List Stmt) :
    (after : List Stmt) → b.statements = before ++ after → Context
  | [], _ => ctx
  | s :: rest, split =>
    if q < p + (s.codeAt p).length then
      s.contextAt q (⟨b, before, s :: rest, split⟩ :: ctx) p
    else
      contextOfStatements q ctx (p + (s.codeAt p).length) b (before ++ [s]) rest (by simp [split])

end

/-- The given blocks, and within them those that are open at a position in a part. -/
def Part.contextAt (q : Nat) (ctx : Context) (p : Nat) : Part → Context
  | .stmt s => s.contextAt q ctx p
  | .block b => b.contextAt q ctx p
  | .expr _ => ctx
  | .goto _ => ctx

variable {p q : Nat} {ctx : Context} {s : Stmt}

theorem Block.contextAt_outside {b : Block} (h : q ≤ p ∨ p + (b.codeAt p).length ≤ q) :
    b.contextAt q ctx p = ctx := by
  cases b with
  | mk slots types statements =>
    rw [Block.contextAt, if_neg]
    omega

theorem Part.codeAt_pos {p : Nat} (part : Part) : 0 < (part.codeAt p).length := by
  cases part with
  | stmt s => exact s.codeAt_pos p
  | block b => exact b.codeAt_pos p
  | expr e => exact e.codeAt_pos p
  | goto target => exact Nat.one_pos

theorem Part.contextAt_self (part : Part) (p : Nat) (ctx : Context) :
    part.contextAt p ctx p = ctx := by
  cases part with
  | block b => exact Block.contextAt_outside (.inl (Nat.le_refl p))
  | expr e => rfl
  | goto target => rfl
  | stmt s =>
    cases s with
    | branch line condition yes no =>
      cases no with
      | none => exact Block.contextAt_outside (.inl (by omega))
      | some no =>
        simp only [Part.contextAt, Stmt.contextAt]
        rw [Block.contextAt_outside (.inl (by omega)), Block.contextAt_outside (.inl (by omega))]
    | loop line condition body => exact Block.contextAt_outside (.inl (by omega))
    | block line body => exact Block.contextAt_outside (.inl (Nat.le_refl p))
    | _ => rfl

theorem contextOfStatements_eq {b : Block} {rest : List Stmt} {r : Nat} {before : List Stmt}
    (split : b.statements = before ++ s :: rest) (more : List Stmt) :
    ∀ (start : List Stmt) (p : Nat) (split' : b.statements = start ++ (more ++ s :: rest)),
      before = start ++ more → r = p + (codeOfStatements p more).length →
      r ≤ q → q < r + (s.codeAt r).length →
      contextOfStatements q ctx p b start (more ++ s :: rest) split' =
        s.contextAt q (⟨b, before, s :: rest, split⟩ :: ctx) r := by
  induction more with
  | nil =>
    intro start p split' hbefore hr hq hq'
    obtain rfl : before = start := by rw [hbefore, List.append_nil]
    obtain rfl : r = p := hr
    exact if_pos hq'
  | cons t more ih =>
    intro start p split' hbefore hr hq hq'
    simp only [codeOfStatements, List.length_append] at hr
    have hnext : ¬q < p + (t.codeAt p).length := by omega
    simp only [List.cons_append]
    rw [contextOfStatements, if_neg hnext]
    exact ih _ _ _ (by simp [hbefore]) (by omega) hq hq'

/-- A position in a statement of a block: the block is open there, and what is open in the
statement. -/
theorem Block.contextAt_statement (b : Block) {before rest : List Stmt}
    (split : b.statements = before ++ s :: rest)
      (hq : p + 1 + (codeOfStatements (p + 1) before).length ≤ q)
    (hq' : q < p + 1 + (codeOfStatements (p + 1) before).length +
      (s.codeAt (p + 1 + (codeOfStatements (p + 1) before).length)).length) :
    b.contextAt q ctx p =
      s.contextAt q (⟨b, before, s :: rest, split⟩ :: ctx)
        (p + 1 + (codeOfStatements (p + 1) before).length) := by
  have hlength := congrArg List.length (codeOfStatements_append (p + 1) before (s :: rest))
  have hstop := b.stop_eq p
  cases b with
  | mk slots types statements =>
    obtain rfl : statements = before ++ s :: rest := split
    simp only [codeOfStatements, List.length_append] at hlength
    simp only [Block.statements] at hstop
    rw [Block.contextAt, if_pos (by omega)]
    exact contextOfStatements_eq rfl before [] (p + 1) rfl rfl rfl hq hq'

/-- The blocks that are open at a position in a part are those that are open at the position in the
program. -/
theorem Site.contextAt {root : Block} {p q : Nat} {ctx : Context} {part : Part}
    (h : Site root p ctx part) (hq : p ≤ q) (hq' : q < p + (part.codeAt p).length) :
    root.contextAt q [] 0 = part.contextAt q ctx p := by
  induction h with
  | root => rfl
  | @statement p ctx b before s rest split _ ih =>
    have hlength := congrArg List.length (codeOfStatements_append (p + 1) before (s :: rest))
    simp only [← split, codeOfStatements, List.length_append] at hlength
    simp only [Part.codeAt, b.stop_eq] at hq' ih
    rw [ih (by omega) (by omega)]
    exact b.contextAt_statement split hq hq'
  | @condition p ctx line condition yes no _ ih =>
    cases no with
    | none =>
      simp only [Part.codeAt, Stmt.stop_branch rfl] at hq' ih
      rw [ih (by omega) (by omega)]
      exact Block.contextAt_outside (.inl (by omega))
    | some no =>
      simp only [Part.codeAt, Stmt.stop_branchElse rfl rfl] at hq' ih
      rw [ih (by omega) (by omega)]
      simp only [Part.contextAt, Stmt.contextAt]
      rw [Block.contextAt_outside (.inl (by omega)), Block.contextAt_outside (.inl (by omega))]
  | @yes p ctx line condition yes no _ ih =>
    cases no with
    | none =>
      simp only [Part.codeAt, Stmt.stop_branch rfl] at hq' ih
      exact ih (by omega) (by omega)
    | some no =>
      simp only [Part.codeAt, Stmt.stop_branchElse rfl rfl] at hq' ih
      rw [ih (by omega) (by omega)]
      exact Block.contextAt_outside (.inl (by omega))
  | skip _ hmid hr ih =>
    subst hmid hr
    simp only [Part.codeAt, Stmt.stop_branchElse rfl rfl, List.length_cons,
      List.length_nil] at hq' ih
    rw [ih (by omega) (by omega)]
    simp only [Part.contextAt, Stmt.contextAt]
    rw [Block.contextAt_outside (.inl (by omega)), Block.contextAt_outside (.inr (by omega))]
  | @no p _ _ ctx _ condition yes _ _ hmid hr ih =>
    subst hmid hr
    simp only [Part.codeAt, Stmt.stop_branchElse rfl rfl] at hq' ih
    rw [ih (by omega) (by omega)]
    simp only [Part.contextAt, Stmt.contextAt]
    rw [Block.contextAt_outside (b := yes) (.inr (by omega))]
  | test _ ih =>
    simp only [Part.codeAt, Stmt.stop_loop rfl] at hq' ih
    rw [ih (by omega) (by omega)]
    exact Block.contextAt_outside (.inl (by omega))
  | body _ ih =>
    simp only [Part.codeAt, Stmt.stop_loop rfl] at hq' ih
    exact ih (by omega) (by omega)
  | again _ hmid ih =>
    subst hmid
    simp only [Part.codeAt, Stmt.stop_loop rfl, List.length_cons, List.length_nil] at hq' ih
    rw [ih (by omega) (by omega)]
    exact Block.contextAt_outside (.inr (by omega))
  | nested _ ih => exact ih hq hq'
  | init _ ih =>
    simp only [Part.codeAt, Stmt.stop_declare, initCode] at hq' ih
    exact ih (by omega) (by omega)
  | value _ ih =>
    simp only [Part.codeAt, Stmt.stop_assign] at hq' ih
    exact ih (by omega) (by omega)
  | performed _ ih => exact ih hq hq'
  | operand _ ih =>
    simp only [Part.codeAt, Expr.codeAt, List.length_cons] at hq' ih
    exact ih (by omega) (by omega)
  | left _ ih | right _ ih | selector _ ih | first _ ih =>
    simp only [Part.codeAt, Expr.codeAt, List.length_cons, List.length_append] at hq' ih
    exact ih (by omega) (by omega)
  | second _ hmid ih =>
    subst hmid
    simp only [Part.codeAt, Expr.codeAt, List.length_cons, List.length_append] at hq' ih
    exact ih (by omega) (by omega)
  | argument _ ih =>
    simp only [Part.codeAt, Expr.codeAt, Expr.codeOfAll_append, Expr.codeOfAll, List.length_cons,
      List.length_append] at hq' ih
    exact ih (by omega) (by omega)

/-- **Each position has one context**: the parts that stand at a position have the same open
blocks. -/
theorem Site.context_unique {root : Block} {ctx' : Context} {part part' : Part}
    (h : Site root p ctx part) (h' : Site root p ctx' part') : ctx = ctx' := by
  rw [← part.contextAt_self p ctx, ← part'.contextAt_self p ctx']
  rw [← h.contextAt (Nat.le_refl p) (Nat.lt_add_of_pos_right part.codeAt_pos)]
  exact h'.contextAt (Nat.le_refl p) (Nat.lt_add_of_pos_right part'.codeAt_pos)

/-! ### Statements by number -/

/-- A block at its statement of a number. -/
def Block.openAt (b : Block) (n : Nat) : Open :=
  ⟨b, b.statements.take n, b.statements.drop n, (List.take_append_drop n b.statements).symm⟩

/-- A view of the statement of a number passes a test, and that statement stands in its block. -/
theorem Site.openAt {α : Type} {root b : Block} {p n : Nat} {ctx : Context} {view : Stmt → Option α}
    {test : α → Bool} (h : Site root p ctx (.block b))
    (hs : (b.statements[n]?.bind view).any test = true) :
    ∃ q s a, Site root q (b.openAt n :: ctx) (.stmt s) ∧ view s = some a ∧ test a = true := by
  obtain ⟨a, hfound, htest⟩ := (Option.any_eq_true _ _).1 hs
  obtain ⟨s, hget, hview⟩ := Option.bind_eq_some_iff.1 hfound
  obtain ⟨hn, rfl⟩ := List.getElem?_eq_some_iff.1 hget
  have hdrop := List.drop_eq_getElem_cons hn
  have hsplit : b.statements = b.statements.take n ++
      b.statements[n] :: b.statements.drop (n + 1) := by
    rw [← hdrop, List.take_append_drop]
  have hopen : b.openAt n = ⟨b, b.statements.take n, _, hsplit⟩ := by
    simp only [Block.openAt, hdrop]
  rw [hopen]
  exact ⟨_, _, a, .statement hsplit h, hview, htest⟩

/-- Target and value of an assignment. -/
def Stmt.assignment? : Stmt → Option (Place × Expr)
  | .assign _ target value => some (target, value)
  | _ => none

theorem Stmt.eq_assign {target : Place} {value : Expr} (h : s.assignment? = some (target, value)) :
    ∃ line, s = .assign line target value := by
  cases s <;> simp_all [Stmt.assignment?]

/-- The block that a statement is. -/
def Stmt.nested? : Stmt → Option Block
  | .block _ body => some body
  | _ => none

theorem Stmt.eq_block {body : Block} (h : s.nested? = some body) :
    ∃ line, s = .block line body := by
  cases s <;> simp_all [Stmt.nested?]

end BindScript
