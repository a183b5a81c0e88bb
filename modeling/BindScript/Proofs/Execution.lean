/-
**The rules of execution read backwards.**

Each statement is executed by the rules for its form only, so an outcome can be traced back to the
outcomes of its parts.

Main results:

* `Stmt.exec_branch_yes`, `Stmt.exec_block`, `Stmt.exec_assign` and their
  like — what an outcome comes from;
* `Stmt.Exec.loop_induct` — induction on the rounds of a loop.
-/

import BindScript.Proofs.Semantics

namespace BindScript

/-! ### Outcomes of statements -/

variable {name : String} {yes : Block} {st' : Store} {v : Value}

section Outcomes

variable {slots : List Slot} {line : Nat} {st : Store} {o : Outcome}

theorem Stmt.exec_declare {ty : Ty} :
    Stmt.Exec slots (.declare line name ty none) st o ↔
      o = (.ok (), st.declare name (startValue slots name ty)) := by
  constructor
  · intro h
    cases h
    rfl
  · rintro rfl
    exact .declare

theorem Stmt.exec_declareInit {ty : Ty} {init : Expr} :
    Stmt.Exec slots (.declare line name ty (some init)) st o ↔
      o = chain (init.eval st) fun v st => (.ok (), st.declare name v) := by
  constructor
  · intro h
    cases h with
    | declareFails heval => rw [heval]; rfl
    | declareInit heval => rw [heval]; rfl
  · rintro rfl
    rcases heval : init.eval st with ⟨e | v, st'⟩
    · exact .declareFails heval
    · exact .declareInit heval

/-- The end of an assignment. -/
def Store.assign (target : Place) (v : Value) (st : Store) : Outcome :=
  chain (st.write target v) fun v st => (.ok (), st.withLast v)

theorem Stmt.exec_assign {target : Place} {value : Expr} :
    Stmt.Exec slots (.assign line target value) st o ↔
      o = chain (value.eval st) (Store.assign target) := by
  constructor
  · intro h
    cases h with
    | assignFails heval => rw [heval]; rfl
    | assignMissing heval hwrite => simp only [heval, chain, Store.assign, Store.write, hwrite]
    | assign heval hwrite =>
      simp only [heval, chain, Store.assign, Store.write, hwrite, Store.withLast]
  · rintro rfl
    rcases heval : value.eval st with ⟨e | v, st'⟩
    · exact .assignFails heval
    · cases hwrite : st'.env.write target v with
      | error e =>
        simpa only [chain, Store.assign, Store.write, hwrite] using .assignMissing heval hwrite
      | ok env =>
        simpa only [chain, Store.assign, Store.write, hwrite, Store.withLast] using
          .assign heval hwrite

theorem Stmt.exec_perform {call : Expr} :
    Stmt.Exec slots (.perform call) st o ↔
      o = chain (call.eval st) fun v st => (.ok (), st.withLast v) := by
  constructor
  · intro h
    cases h with
    | performFails heval => rw [heval]; rfl
    | perform heval => rw [heval]; rfl
  · rintro rfl
    rcases heval : call.eval st with ⟨e | v, st'⟩
    · exact .performFails heval
    · exact .perform heval

theorem Stmt.exec_block {body : Block} :
    Stmt.Exec slots (.block line body) st o ↔ Block.Exec body st o := by
  constructor
  · intro h
    cases h with
    | block hbody => exact hbody
  · exact .block

variable {condition : Expr}

theorem Stmt.exec_branch_fails {no : Option Block} {e : RuntimeError}
    (h : condition.eval st = (.error e, st')) :
    Stmt.Exec slots (.branch line condition yes no) st o ↔ o = (.error e, st') := by
  constructor
  · intro hexec
    cases hexec with
    | branchFails h' =>
      rw [h] at h'
      simpa using h'.symm
    | branchYes h' => simp [h] at h'
    | branchNo h' => simp [h] at h'
    | branchSkip h' => simp [h] at h'
  · rintro rfl
    exact .branchFails h

theorem Stmt.exec_branch_yes {no : Option Block} (h : condition.eval st = (.ok v, st'))
    (hv : v.isTruthy = true) :
    Stmt.Exec slots (.branch line condition yes no) st o ↔ Block.Exec yes st' o := by
  constructor
  · intro hexec
    cases hexec with
    | branchFails h' => simp [h] at h'
    | branchYes h' _ hyes =>
      obtain ⟨rfl, rfl⟩ : v = _ ∧ st' = _ := by simpa [h] using h'
      exact hyes
    | branchNo h' hv' | branchSkip h' hv' =>
      obtain ⟨rfl, rfl⟩ : v = _ ∧ st' = _ := by simpa [h] using h'
      simp [hv] at hv'
  · exact .branchYes h hv

/-- The second side of a branch ends with an outcome; where there is no block, nothing is done. -/
def Block.ExecElse : Option Block → Store → Outcome → Prop
  | none, st, o => o = (.ok (), st)
  | some no, st, o => Block.Exec no st o

theorem Stmt.exec_branch_no {no : Option Block} (h : condition.eval st = (.ok v, st'))
    (hv : v.isTruthy = false) :
    Stmt.Exec slots (.branch line condition yes no) st o ↔ Block.ExecElse no st' o := by
  constructor
  · intro hexec
    cases hexec with
    | branchFails h' => simp [h] at h'
    | branchYes h' hv' =>
      obtain ⟨rfl, rfl⟩ : v = _ ∧ st' = _ := by simpa [h] using h'
      simp [hv] at hv'
    | branchNo h' _ hno =>
      obtain ⟨rfl, rfl⟩ : v = _ ∧ st' = _ := by simpa [h] using h'
      exact hno
    | branchSkip h' _ =>
      obtain ⟨rfl, rfl⟩ : v = _ ∧ st' = _ := by simpa [h] using h'
      rfl
  · cases no with
    | none =>
      rintro rfl
      exact .branchSkip h hv
    | some no => exact .branchNo h hv

theorem Block.exec_iff {types : Table Fields} {ss : List Stmt} :
    Block.Exec (.mk slots types ss) st o ↔
      ∃ o', ExecAll slots ss (st.enter (boundValues slots)) o' ∧
        o = chain o' fun _ st => (.ok (), st.leave) := by
  constructor
  · intro h
    cases h with
    | ends hss => exact ⟨_, hss, rfl⟩
    | fails hss => exact ⟨_, hss, rfl⟩
  · rintro ⟨⟨r, st'⟩, hss, rfl⟩
    cases r with
    | ok u => exact .ends hss
    | error e => exact .fails hss

end Outcomes

theorem Stmt.Exec.loop_induct {slots : List Slot} {line : Nat} {condition : Expr} {body : Block}
    {motive : Store → Outcome → Prop}
    (fails : ∀ {st e st'}, condition.eval st = (.error e, st') → motive st (.error e, st'))
    (stop : ∀ {st v st'}, condition.eval st = (.ok v, st') → v.isTruthy = false →
      motive st (.ok (), st'))
    (bodyFails : ∀ {st v st' e st''}, condition.eval st = (.ok v, st') → v.isTruthy = true →
      Block.Exec body st' (.error e, st'') → motive st (.error e, st''))
    (next : ∀ {st v st' st'' o}, condition.eval st = (.ok v, st') → v.isTruthy = true →
      Block.Exec body st' (.ok (), st'') → motive st'' o → motive st o) :
    ∀ {s st o}, Stmt.Exec slots s st o → s = .loop line condition body → motive st o
  | _, _, _, .loopFails heval, heq => by
      cases heq
      exact fails heval
  | _, _, _, .loopStop heval hv, heq => by
      cases heq
      exact stop heval hv
  | _, _, _, .loopBodyFails heval hv hbody, heq => by
      cases heq
      exact bodyFails heval hv hbody
  | _, _, _, .loopNext heval hv hbody hrest, heq => by
      have ih := loop_induct fails stop bodyFails next hrest heq
      cases heq
      exact next heval hv hbody ih
  | _, _, _, .branchFails _, heq | _, _, _, .branchYes _ _ _, heq | _, _, _, .branchNo _ _ _, heq
  | _, _, _, .branchSkip _ _, heq | _, _, _, .block _, heq | _, _, _, .declare, heq
  | _, _, _, .declareFails _, heq | _, _, _, .declareInit _, heq | _, _, _, .assignFails _, heq
  | _, _, _, .assignMissing _ _, heq | _, _, _, .assign _ _, heq | _, _, _, .performFails _, heq
  | _, _, _, .perform _, heq => by cases heq

end BindScript
