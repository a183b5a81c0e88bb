/-
**Pieces of code in their places.**

Main results:

* `Code.at_append` — pieces one after the other;
* `Code.At.bound` — a piece ends within the program;
* `Block.stop_eq`, `Stmt.stop_branch`, `Stmt.stop_loop` — where the code
  of a part ends;
* `Machine.fetch_eq` — fetching from a piece of code without a limit.
-/

import BindScript.Code.Compile
import BindScript.Machine.Step

namespace BindScript

namespace Code

variable {program : Array Instruction} {p : Nat} {i : Instruction} {c d : Code}

/-- The piece of code stands at the position of the program. The empty piece stands wherever the
program or its end is. -/
def At (program : Array Instruction) : Nat → Code → Prop
  | p, [] => p ≤ program.size
  | p, i :: c => program[p]? = some i ∧ At program (p + 1) c

theorem at_cons : At program p (i :: c) ↔ program[p]? = some i ∧ At program (p + 1) c := Iff.rfl

theorem At.bound (h : At program p c) : p + c.length ≤ program.size := by
  induction c generalizing p with
  | nil => exact h
  | cons i c ih =>
    have := ih h.2
    rw [List.length_cons]
    omega

theorem at_append : At program p (c ++ d) ↔ At program p c ∧ At program (p + c.length) d := by
  induction c generalizing p with
  | nil =>
    constructor
    · intro h
      refine ⟨?_, h⟩
      have := At.bound (c := d) h
      exact show p ≤ program.size by omega
    · exact fun h => h.2
  | cons i c ih =>
    rw [List.cons_append, at_cons, at_cons, ih, and_assoc, List.length_cons, Nat.add_assoc,
      Nat.add_comm 1]

theorem at_self (c : Code) : At c.toArray 0 c := by
  have hall : ∀ (rest before : Code), At (before ++ rest).toArray before.length rest := by
    intro rest
    induction rest with
    | nil =>
      intro before
      simp [At]
    | cons i rest ih =>
      intro before
      refine ⟨by simp, ?_⟩
      have := ih (before ++ [i])
      simpa using this
  exact hall c []

end Code

/-! ### Code of parts -/

theorem Expr.codeAt_pos (e : Expr) (p : Nat) : 0 < (e.codeAt p).length := by
  cases e <;> simp [Expr.codeAt]

theorem Expr.codeOfAll_append (p : Nat) (es es' : List Expr) :
    codeOfAll p (es ++ es') = codeOfAll p es ++ codeOfAll (p + (codeOfAll p es).length) es' := by
  induction es generalizing p with
  | nil => simp [codeOfAll]
  | cons e es ih =>
    simp only [List.cons_append, codeOfAll, List.length_append, ih, List.append_assoc,
      Nat.add_assoc]

theorem Block.codeAt_eq (b : Block) (p : Nat) :
    b.codeAt p = .block (codeOfStatements (p + 1) b.statements).length b.slots ::
      codeOfStatements (p + 1) b.statements := by
  cases b
  rfl

theorem Block.code_eq (b : Block) :
    b.code = .block (codeOfStatements 1 b.statements).length b.slots ::
      codeOfStatements 1 b.statements :=
  b.codeAt_eq 0

theorem Block.codeAt_pos (b : Block) (p : Nat) : 0 < (b.codeAt p).length := by
  rw [Block.codeAt_eq]
  exact Nat.succ_pos _

theorem Stmt.codeAt_pos (s : Stmt) (p : Nat) : 0 < (s.codeAt p).length := by
  cases s with
  | branch line condition yes no => cases no <;> simp [Stmt.codeAt]
  | block line body =>
    rw [Stmt.codeAt]
    exact body.codeAt_pos p
  | perform call =>
    rw [Stmt.codeAt]
    exact call.codeAt_pos p
  | _ => simp [Stmt.codeAt]

/-! ### Where parts end -/

theorem Block.stop_eq (b : Block) (p : Nat) :
    p + (b.codeAt p).length = p + 1 + (codeOfStatements (p + 1) b.statements).length := by
  rw [b.codeAt_eq p, List.length_cons]
  omega

namespace Stmt

variable {p q r line : Nat} {condition value : Expr} {yes no body : Block}

theorem stop_branch (hq : q = p + 1 + (condition.codeAt (p + 1)).length) :
    p + (codeAt p (.branch line condition yes none)).length = q + (yes.codeAt q).length := by
  subst hq
  simp only [codeAt, List.length_cons, List.length_append]
  omega

theorem stop_branchElse (hq : q = p + 1 + (condition.codeAt (p + 1)).length)
    (hr : r = q + (yes.codeAt q).length) :
    p + (codeAt p (.branch line condition yes (some no))).length =
      r + 1 + (no.codeAt (r + 1)).length := by
  subst hq hr
  simp only [codeAt, List.length_cons, List.length_append]
  omega

theorem stop_loop (hq : q = p + 1 + (condition.codeAt (p + 1)).length) :
    p + (codeAt p (.loop line condition body)).length = q + (body.codeAt q).length + 1 := by
  subst hq
  simp only [codeAt, List.length_cons, List.length_append, List.length_nil]
  omega

theorem stop_declare (name : String) (ty : Ty) (init : Option Expr) :
    p + (codeAt p (.declare line name ty init)).length =
      p + 1 + (initCode (p + 1) init).length := by
  rw [codeAt, List.length_cons]
  omega

theorem stop_assign (target : Place) :
    p + (codeAt p (.assign line target value)).length = p + 1 + (value.codeAt (p + 1)).length := by
  rw [codeAt, List.length_cons]
  omega

end Stmt

/-! ### Fetching -/

/-- Without a limit, fetching gives the instruction at the position and moves on. -/
theorem Machine.fetch_eq {σ : Type} {m : Machine σ} {program : Array Instruction} {i : Instruction}
    (hlimit : m.limit = .none) (hi : program[m.position]? = some i) :
    fetch program m = (.ok i, { m with position := m.position + 1 }) := by
  have hlater : m.limit.later = m.limit := by rw [hlimit]; rfl
  rw [fetch, if_neg (by rw [hlimit]; exact Bool.false_ne_true), hi, hlater]

end BindScript
