/-
**The positions that programs name.**

A program is validated instruction by instruction, and a valid program names no position past its
length.  The count of a block is no position: the end that it gives wraps around, as positions do,
so that a valid program may hold a count larger than its length.

Main results:

* `Code.validateFrom_append` — parts of a program are validated one after the other;
* `Code.within_of_validate` — a valid program names positions up to its length only.
-/

import BindScript.Code.Program
import BindScript.Proofs.Elaboration

namespace BindScript

/-- Numbers that can be positions: 64-bit words. -/
def IsIndex (n : Nat) : Prop := n < 0x10000000000000000

/-! ### Validation -/

/-- The positions that an instruction names are at most the length of the program. -/
def Instruction.Within (length : Nat) : Instruction → Prop
  | .jumpIfFalse target | .jump target => target ≤ length
  | .select otherwise stop => otherwise ≤ length ∧ stop ≤ length
  | _ => True

variable {code : Code}

namespace Code

variable {length place : Nat}

theorem advance_le (position count : Nat) : advance position count ≤ position + count :=
  Nat.mod_le _ _

theorem advance_eq {position count : Nat} (h : IsIndex (position + count)) :
    advance position count = position + count :=
  Nat.mod_eq_of_lt h

theorem checkTarget_eq_ok {target : Nat} :
    checkTarget length target = .ok () ↔ target ≤ length := by
  unfold checkTarget
  split <;> simp_all

theorem checkInstruction_select {otherwise stop : Nat} :
    checkInstruction length place (.select otherwise stop) = .ok () ↔
      place < otherwise ∧ otherwise ≤ stop ∧ stop ≤ length := by
  rw [checkInstruction, except_bind_eq_ok]
  constructor
  · rintro ⟨_, htarget, h⟩
    have hstop := checkTarget_eq_ok.1 htarget
    split at h
    · cases h
    · omega
  · rintro ⟨hplace, hstop, hlength⟩
    exact ⟨(), checkTarget_eq_ok.2 hlength, if_neg (by omega)⟩

theorem within_of_checkInstruction {i : Instruction}
    (h : checkInstruction length place i = .ok ()) :
    i.Within length := by
  cases i with
  | jumpIfFalse target => exact checkTarget_eq_ok.1 h
  | jump target => exact checkTarget_eq_ok.1 h
  | select otherwise stop =>
    obtain ⟨-, hotherwise, hstop⟩ := checkInstruction_select.1 h
    exact ⟨Nat.le_trans hotherwise hstop, hstop⟩
  | _ => trivial

theorem validateFrom_cons {i : Instruction} {rest : Code} :
    validateFrom length place (i :: rest) = .ok () ↔
      checkInstruction length place i = .ok () ∧ validateFrom length (place + 1) rest = .ok () := by
  rw [validateFrom, except_bind_eq_ok]
  constructor
  · rintro ⟨_, hi, hrest⟩
    exact ⟨hi, hrest⟩
  · rintro ⟨hi, hrest⟩
    exact ⟨(), hi, hrest⟩

/-- Parts of a program are validated one after the other. -/
theorem validateFrom_append {rest : Code} :
    validateFrom length place (code ++ rest) = .ok () ↔
      validateFrom length place code = .ok () ∧
        validateFrom length (place + code.length) rest = .ok () := by
  induction code generalizing place with
  | nil => simp [validateFrom]
  | cons i code ih =>
    rw [List.cons_append, validateFrom_cons, validateFrom_cons, ih, and_assoc, List.length_cons,
      Nat.add_right_comm, Nat.add_assoc place]

theorem within_of_validateFrom (h : validateFrom length place code = .ok ()) :
    ∀ i ∈ code, i.Within length := by
  induction code generalizing place with
  | nil => simp
  | cons i code ih =>
    obtain ⟨hi, hrest⟩ := validateFrom_cons.1 h
    intro j hj
    rcases List.mem_cons.1 hj with rfl | hj
    · exact within_of_checkInstruction hi
    · exact ih hrest j hj

/-- A valid program names positions up to its length only. -/
theorem within_of_validate (h : code.validate = .ok ()) : ∀ i ∈ code, i.Within code.length :=
  within_of_validateFrom h

end Code

end BindScript
