/-
**Evaluation ends.**

In a valid program the second value of a choice lies after the choice, and no position lies past the
end.  So an expression is evaluated from left to right: whatever is evaluated inside it begins after
it, and the position has moved on when its value is there.  The number of instructions after the
position bounds how deep the rounds nest, and evaluation has a result from every state, with every
host.  There has to be room for the arguments of each call, though, as a program may ask for more
than there can be.

Main results:

* `Machine.eval_terminates` — **evaluation ends in every valid program** with room for its
  arguments.
-/

import BindScript.Proofs.Code.Codec
import BindScript.Proofs.Machine.Comparison

namespace BindScript

/-! ### Valid programs -/

namespace Code

/-- The positions that the instruction at any place of a program names are right. -/
def Valid (code : Array Instruction) : Prop :=
  ∀ place i, code[place]? = some i → checkInstruction code.size place i = .ok ()

variable {code : Code}

theorem checkInstruction_of_validateFrom {length place p : Nat} {i : Instruction}
    (h : validateFrom length place code = .ok ()) (hi : code[p]? = some i) :
    checkInstruction length (place + p) i = .ok () := by
  induction code generalizing place p with
  | nil => cases hi
  | cons j code ih =>
    obtain ⟨hj, hrest⟩ := validateFrom_cons.1 h
    cases p with
    | zero =>
      obtain rfl : j = i := by simpa using hi
      exact hj
    | succ p =>
      rw [Nat.add_comm p 1, ← Nat.add_assoc]
      exact ih hrest (by simpa using hi)

theorem valid_of_validate (h : code.validate = .ok ()) : Valid code.toArray := by
  intro place i hi
  have hcheck := checkInstruction_of_validateFrom h (p := place) (by simpa using hi)
  simpa using hcheck

theorem validate_of_decode {separator text : String} (h : decode separator text = .ok code) :
    code.validate = .ok () := by
  obtain ⟨-, ⟨-, rfl⟩ | ⟨-, -, hvalid⟩⟩ := decode_eq_ok.1 h
  · rfl
  · exact hvalid

end Code

namespace Machine

variable {σ α β : Type}

/-! ### Results with a position -/

/-- There is a result; and if it is a value, the position is after a place and not past the end. -/
def MovesOn (place length : Nat) (r : Option (Result σ α)) : Prop :=
  ∃ x m, r = some (x, m) ∧ ∀ a, x = .ok a → place < m.position ∧ m.position ≤ length

variable {place length : Nat}

theorem movesOn_some {x : Result σ α} (hplace : place < x.2.position)
    (hend : x.2.position ≤ length) :
    MovesOn place length (some x) :=
  ⟨x.1, x.2, rfl, fun _ _ => ⟨hplace, hend⟩⟩

theorem movesOn_error (e : RuntimeError) (m : Machine σ) :
    MovesOn (α := α) place length (some (.error e, m)) :=
  ⟨.error e, m, rfl, fun _ h => absurd h (by simp)⟩

theorem MovesOn.mono {place' : Nat} {r : Option (Result σ α)} (h : MovesOn place length r)
    (hplace : place' ≤ place) : MovesOn place' length r := by
  obtain ⟨x, m, rfl, hx⟩ := h
  exact ⟨x, m, rfl, fun a ha => ⟨Nat.lt_of_le_of_lt hplace (hx a ha).1, (hx a ha).2⟩⟩

theorem MovesOn.andThen {r : Option (Result σ α)} {k : α → Machine σ → Option (Result σ β)}
    (hr : MovesOn place length r)
    (hk : ∀ a m, r = some (.ok a, m) → place < m.position → m.position ≤ length →
      MovesOn place length (k a m)) :
    MovesOn place length (andThen r k) := by
  obtain ⟨x, m, rfl, hx⟩ := hr
  cases x with
  | error e => exact movesOn_error e m
  | ok a => exact hk a m rfl (hx a rfl).1 (hx a rfl).2

/-! ### Expressions -/

variable {host : Host σ} {code : Array Instruction} {ev : Machine σ → Option (Result σ Value)}
  {m : Machine σ}

theorem fetch_movesOn (hplace : place ≤ m.position) :
    MovesOn place code.size (some (fetch code m)) := by
  rcases hfetch : fetch code m with ⟨e | i, m'⟩
  · exact movesOn_error e m'
  · obtain ⟨hi, rfl⟩ := fetch_eq_ok hfetch
    have hlt := (Array.getElem?_eq_some_iff.1 hi).1
    exact movesOn_some (Nat.lt_succ_of_le hplace) hlt

@[simp] theorem position_callWithValues (host : Host σ) (name : String) (args : List Value)
    (m : Machine σ) :
    (callWithValues host name args m).2.position = m.position := by
  unfold callWithValues
  split <;> rfl

/-- What is evaluated after a place.  The jumps of a choice there may go back to before the
position, but not to before the choice. -/
def movingOn (host : Host σ) (code : Array Instruction) (place : Nat) :
    Comparison host host code where
  link m m' := m' = m ∧ place < m.position ∧ m.position ≤ code.size
  rel _ _ r _ := MovesOn place code.size r
  allows i := Code.checkInstruction code.size place i = .ok () ∧ HasRoom i
  moves target := place < target
  position h := by rw [h.1]
  frames h := by rw [h.1]
  andThen hr hk := hr.andThen fun a m ha hplace hend => hk a m m ha ⟨rfl, hplace, hend⟩
  done h _ := movesOn_some h.2.1 h.2.2
  fetch h := fetch_movesOn (Nat.le_of_lt h.2.1)
  store h _ := movesOn_some h.2.1 h.2.2
  move _ htarget hend := movesOn_some htarget hend
  select h := by
    obtain ⟨hotherwise, hstop, -⟩ := Code.checkInstruction_select.1 h.1
    exact ⟨hotherwise, Nat.lt_of_lt_of_le hotherwise hstop⟩
  resolve h _ := movesOn_some h.2.1 h.2.2
  crowded _ h hlt := absurd h.2 (Nat.not_le.2 hlt)
  call h _ args := by
    refine movesOn_some ?_ ?_ <;> rw [position_callWithValues]
    · exact h.2.1
    · exact h.2.2

/-- What stands at a place is evaluated by evaluating what stands after it. -/
theorem evalFetched_movesOn {i : Instruction}
    (hi : Code.checkInstruction code.size place i = .ok () ∧ HasRoom i)
    (hev : ∀ m, place < m.position → MovesOn place code.size (ev m)) (hplace : place < m.position)
    (hend : m.position ≤ code.size) : MovesOn place code.size (evalFetched host code ev i m) := by
  have hrelates : (movingOn host code place).Relates ev ev := fun m _ h => hev m h.2.1
  exact Comparison.evalFetched hrelates hi ⟨rfl, hplace, hend⟩

section Room

variable (hvalid : Code.Valid code) (hroom : ∀ i ∈ code, HasRoom i)

include hvalid hroom

/-- Evaluation has a result if there is more fuel than there are instructions left. -/
theorem eval_movesOn (fuel : Nat) (hfuel : code.size - m.position < fuel) :
    MovesOn m.position code.size (eval host code fuel m) := by
  induction fuel generalizing m with
  | zero => exact absurd hfuel (Nat.not_lt_zero _)
  | succ fuel ih =>
    rw [eval_succ]
    rcases hfetch : fetch code m with ⟨e | i, m'⟩
    · exact movesOn_error e m'
    · obtain ⟨hi, rfl⟩ := fetch_eq_ok hfetch
      have hlt := (Array.getElem?_eq_some_iff.1 hi).1
      have hallowed := And.intro (hvalid m.position i hi) (hroom i (Array.mem_of_getElem? hi))
      refine evalFetched_movesOn hallowed ?_ (Nat.lt_succ_self _) hlt
      intro n hn
      exact (ih (by omega)).mono (Nat.le_of_lt hn)

/-- Evaluation at a state comes to one and the same result, however much fuel there is. -/
theorem exists_eval_eq (host : Host σ) (m : Machine σ) :
    ∃ x m', (∀ fuel, code.size - m.position < fuel → eval host code fuel m = some (x, m')) ∧
      ∀ v, x = .ok v → m.position < m'.position ∧ m'.position ≤ code.size := by
  have hmovesOn : MovesOn m.position code.size (eval host code (code.size - m.position + 1) m) :=
    eval_movesOn hvalid hroom _ (Nat.lt_succ_self _)
  obtain ⟨x, m', heval, hx⟩ := hmovesOn
  exact ⟨x, m', fun fuel hfuel => eval_mono hfuel heval, hx⟩

end Room

/-- **Evaluation ends in every valid program** that has room for the arguments of its calls.  From
every state, and so from every position, it comes to a value or an error, the same one with all the
fuel that goes beyond the instructions left; the position of a value is after the start, and at most
just past the end.  What is read from a text is valid, so the evaluation of any text that is such a
program ends. -/
theorem eval_terminates {code : Code} (hroom : ∀ i ∈ code, HasRoom i) (host : Host σ)
    (m : Machine σ) :
    (code.validate = .ok () →
      ∃ x m', (∀ fuel, code.length - m.position < fuel →
          eval host code.toArray fuel m = some (x, m')) ∧
        ∀ v, x = .ok v → m.position < m'.position ∧ m'.position ≤ code.length) ∧
    ∀ separator text, Code.decode separator text = .ok code →
      code.validate = .ok () ∧
        ∃ x m', (∀ fuel, code.length < fuel →
            evaluateFuel host code.toArray fuel m = some (x, m')) ∧
          ∀ v, x = .ok v → 0 < m'.position ∧ m'.position ≤ code.length := by
  have hroom' : ∀ i ∈ code.toArray, HasRoom i := by simpa using hroom
  constructor
  · intro hvalid
    simpa using exists_eval_eq (Code.valid_of_validate hvalid) hroom' host m
  · intro separator text hdecode
    have hvalid := Code.validate_of_decode hdecode
    obtain ⟨x, m', heval, hx⟩ :=
      exists_eval_eq (Code.valid_of_validate hvalid) hroom' host m.reset
    refine ⟨hvalid, x, m', ?_, by simpa [reset, start] using hx⟩
    intro fuel hfuel
    refine heval fuel (Nat.lt_of_le_of_lt (Nat.sub_le _ _) ?_)
    simpa using hfuel

/-- A choice with its own condition, which is false, as its second value. -/
def isBackChoice : Code → Bool
  | [.select no after, .bool b] => no == 1 && after == 2 && !b
  | _ => false

theorem eq_of_isBackChoice {code : Code} (h : isBackChoice code = true) :
    code = [.select 1 2, .bool false] := by
  unfold isBackChoice at h
  split at h
  · simpa [and_assoc] using h
  · cases h

/-- The evaluation of such a choice goes back to where the condition began, and comes to the end
with its value. -/
theorem eval_terminates_back :
    ∃ code : Code, Code.decode "||" "?:1:2||b:false" = .ok code ∧ code.validate = .ok () ∧
      (∃ m', (∀ fuel, 2 < fuel → eval Host.plain code.toArray fuel (start () Console.empty) =
          some (.ok (.bool false), m')) ∧ m'.position = 2) ∧
      ∃ m', (∀ fuel, 2 < fuel → evaluateFuel Host.plain code.toArray fuel
          (start () Console.empty) = some (.ok (.bool false), m')) ∧ m'.position = 2 := by
  obtain ⟨code, hdecode, htest⟩ :
      ∃ code, Code.decode "||" "?:1:2||b:false" = .ok code ∧ isBackChoice code = true := by
    decide +kernel
  obtain rfl := eq_of_isBackChoice htest
  have hroom : ∀ i ∈ [Instruction.select 1 2, .bool false], HasRoom i := by simp [HasRoom]
  obtain ⟨hends, hreads⟩ := eval_terminates hroom Host.plain (start () Console.empty)
  obtain ⟨hvalid, x, m₁, heval, -⟩ := hreads _ _ hdecode
  obtain ⟨y, m₂, heval', -⟩ := hends hvalid
  obtain ⟨rfl, rfl⟩ := Prod.mk.inj (Option.some.inj (heval 3 (by decide)))
  obtain ⟨rfl, rfl⟩ := Prod.mk.inj (Option.some.inj (heval' 3 (by decide)))
  exact ⟨_, hdecode, hvalid, ⟨_, heval', rfl⟩, _, heval, rfl⟩

/-- A call of `Length` with the largest number of arguments, and one argument. -/
def isCrowdedCall : Code → Bool
  | [.call name argc, .string s] => name == "Length" && argc == 18446744073709551615 && s == "a"
  | _ => false

theorem eq_of_isCrowdedCall {code : Code} (h : isCrowdedCall code = true) :
    code = [.call "Length" 18446744073709551615, .string "a"] := by
  unfold isCrowdedCall at h
  split at h
  · simpa [and_assoc] using h
  · cases h

/-- **Without room for its arguments a call breaks down.** The text is a valid program, but its
evaluation comes to no value and to no error. -/
theorem evaluation_breaks_down :
    ∃ code : Code, Code.decode "||" "fc:Length:18446744073709551615||s:a" = .ok code ∧
      code.validate = .ok () ∧
      ∀ (σ : Type) (host : Host σ) (m : Machine σ) (fuel : Nat),
        evaluateFuel host code.toArray fuel m = none := by
  obtain ⟨code, hdecode, htest⟩ : ∃ code,
      Code.decode "||" "fc:Length:18446744073709551615||s:a" = .ok code ∧
      isCrowdedCall code = true := by
    decide +kernel
  obtain rfl := eq_of_isCrowdedCall htest
  refine ⟨_, hdecode, Code.validate_of_decode hdecode, ?_⟩
  intro σ host m fuel
  cases fuel with
  | zero => rfl
  | succ fuel =>
    have hfetch : fetch #[.call "Length" 18446744073709551615, .string "a"] m.reset =
      (.ok (.call "Length" 18446744073709551615), { m.reset with position := 1 }) := rfl
    have hname : Builtin.ofName? "Length" = some .length := by decide
    rw [evaluateFuel, eval_succ, hfetch, andThen_ok, evalFetched_call hname rfl, collectArgs,
      if_neg (by decide), andThen_none]

end Machine

end BindScript
