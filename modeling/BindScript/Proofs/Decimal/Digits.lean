/-
**Digits read back.**

The decimal digits of a natural number are a run of ASCII digits that begins with a zero only for
the number zero, and the readers of natural numbers, positions and words give the number back.

Main results:

* `Decimal.natOfDigits_digitsOf`, `Decimal.natOfDigits_append` — what digits denote;
* `Decimal.head_digitsOf` — the first digit;
* `Decimal.readIndex?_digitsOf`, `Decimal.readInt64?_toString` — the readers.
-/

import BindScript.Decimal.Reader
import Mathlib.Algebra.Group.Int.Defs
import Mathlib.Algebra.Group.Nat.Defs

namespace BindScript.Decimal

/-! ### Runs of digits -/

variable {c : Char} {n : Nat}

theorem isDigit_of_mem_digitsOf (h : c ∈ digitsOf n) : c.isDigit = true :=
  Nat.isDigit_of_mem_toDigits (by decide) (by decide) h

theorem all_isDigit_digitsOf (n : Nat) : (digitsOf n).all Char.isDigit = true :=
  List.all_eq_true.2 fun _ h => isDigit_of_mem_digitsOf h

theorem digitsOf_ne_nil (n : Nat) : digitsOf n ≠ [] := Nat.toDigits_ne_nil

theorem not_mem_digitsOf (hc : c.isDigit = false) (n : Nat) : c ∉ digitsOf n := by
  intro h
  rw [isDigit_of_mem_digitsOf h] at hc
  cases hc

theorem head_digitsOf (hn : n ≠ 0) : ∃ c rest, digitsOf n = c :: rest ∧ c ≠ '0' := by
  induction n using Nat.strongRecOn with
  | ind n ih =>
    rw [digitsOf, Nat.toDigits_eq_if (by decide)]
    split
    · rename_i hlt
      refine ⟨_, [], rfl, ?_⟩
      have hsmall : ∀ k < 10, k ≠ 0 → k.digitChar ≠ '0' := by decide
      exact hsmall n hlt hn
    · rename_i hge
      obtain ⟨c, rest, heq, hc⟩ := ih (n / 10) (by omega) (by omega)
      exact ⟨c, rest ++ [(n % 10).digitChar], by rw [← List.cons_append, ← heq]; rfl, hc⟩

/-! ### What digits denote -/

theorem natOfDigits_digitsOf (n : Nat) : natOfDigits (digitsOf n) = n :=
  Nat.ofDigitChars_ten_toDigits

theorem natOfDigits_append (cs ds : List Char) :
    natOfDigits (cs ++ ds) = 10 ^ ds.length * natOfDigits cs + natOfDigits ds := by
  have happend : natOfDigits (cs ++ ds) = Nat.ofDigitChars 10 ds (natOfDigits cs) :=
    Nat.ofDigitChars_append 0
  rw [happend, Nat.ofDigitChars_eq_ofDigitChars_zero]
  rfl

theorem natOfDigits_zeros (n : Nat) : natOfDigits (List.replicate n '0') = 0 :=
  Nat.ofDigitChars_replicate_zero.trans (Nat.mul_zero _)

theorem readNat?_digits {cs : List Char} (hne : cs ≠ []) (hcs : ∀ c ∈ cs, c.isDigit = true) :
    readNat? cs = some (natOfDigits cs) := by
  rw [readNat?, List.all_eq_true.2 hcs, if_neg (by simpa using hne)]

theorem readNat?_digitsOf (n : Nat) : readNat? (digitsOf n) = some n := by
  rw [readNat?_digits (digitsOf_ne_nil n) fun _ h => isDigit_of_mem_digitsOf h,
    natOfDigits_digitsOf]

/-! ### Signs -/

theorem takeSign_of_isDigit (hc : c.isDigit = true) (cs : List Char) :
    takeSign (c :: cs) = (false, c :: cs) := by
  unfold takeSign
  split
  · rename_i heq
    obtain ⟨rfl, -⟩ := List.cons.inj heq
    cases hc
  · rename_i heq
    obtain ⟨rfl, -⟩ := List.cons.inj heq
    cases hc
  · rfl

theorem takeSign_digitsOf (n : Nat) : takeSign (digitsOf n) = (false, digitsOf n) := by
  cases h : digitsOf n with
  | nil => exact absurd h (digitsOf_ne_nil n)
  | cons c cs =>
    exact takeSign_of_isDigit
      (isDigit_of_mem_digitsOf (n := n) (by rw [h]; exact List.mem_cons_self)) cs

/-- The text of an integer: the digits of its magnitude, after a minus sign if it is negative. -/
theorem toList_toString (n : Int) :
    (toString n).toList = if n < 0 then '-' :: digitsOf n.natAbs else digitsOf n.natAbs := by
  cases n with
  | ofNat m =>
    have hpos : ¬Int.ofNat m < 0 := Int.not_lt.2 (Int.natCast_nonneg m)
    rw [if_neg hpos]
    exact (congrArg String.toList (Nat.repr_eq_ofList_toDigits (n := m))).trans String.toList_ofList
  | negSucc m =>
    rw [if_pos (Int.negSucc_lt_zero m)]
    have hrepr : toString (Int.negSucc m) = "-" ++ (m + 1).repr := rfl
    have hlist : (m + 1).repr.toList = digitsOf (m + 1) := by
      rw [Nat.repr_eq_ofList_toDigits, String.toList_ofList, digitsOf]
    rw [hrepr, String.toList_append, hlist]
    rfl

theorem takeSign_toString (n : Int) :
    takeSign (toString n).toList = (decide (n < 0), digitsOf n.natAbs) := by
  rw [toList_toString]
  by_cases hn : n < 0
  · rw [if_pos hn, decide_eq_true hn]
    rfl
  · rw [if_neg hn, decide_eq_false hn]
    exact takeSign_digitsOf _

/-! ### Readers -/

theorem readInt?_digits {cs : List Char} (hne : cs ≠ []) (hcs : ∀ c ∈ cs, c.isDigit = true) :
    readInt? cs = some (natOfDigits cs : Int) := by
  obtain ⟨c, rest, rfl⟩ := List.exists_cons_of_ne_nil hne
  rw [readInt?, takeSign_of_isDigit (hcs c List.mem_cons_self)]
  simp only [readNat?_digits hne hcs]
  rfl

theorem readInt?_toString (n : Int) : readInt? (toString n).toList = some n := by
  have hread : readInt? (toString n).toList =
      some (if decide (n < 0) = true then -(n.natAbs : Int) else n.natAbs) := by
    rw [readInt?, takeSign_toString]
    simp only [readNat?_digitsOf]
    rfl
  rw [hread, Option.some.injEq]
  by_cases hn : n < 0
  · rw [if_pos (by simpa using hn)]
    omega
  · rw [if_neg (by simpa using hn)]
    omega

theorem toInt64?_eq_some {n : Int} (h : -2 ^ 63 ≤ n ∧ n < 2 ^ 63) :
    ∃ k : Int64, k.toInt = n ∧ toInt64? n = some k :=
  ⟨Int64.ofInt n, Int64.toInt_ofInt_of_le (by omega) (by omega), if_pos (by omega)⟩

theorem toInt64?_eq_none {n : Int} (h : ¬(-2 ^ 63 ≤ n ∧ n < 2 ^ 63)) : toInt64? n = none :=
  if_neg (by omega)

theorem toInt64?_toInt (n : Int64) : toInt64? n.toInt = some n := by
  have hlow := n.le_toInt
  have hhigh := n.toInt_lt
  rw [toInt64?, if_pos (by omega), Int64.ofInt_toInt]

theorem readInt64?_toString (n : Int64) : readInt64? (toString n.toInt).toList = some n := by
  rw [readInt64?, readInt?_toString]
  exact toInt64?_toInt n

theorem readIndex?_digitsOf (hn : n < 0x10000000000000000) : readIndex? (digitsOf n) = some n := by
  have hplus : ∀ rest, digitsOf n ≠ '+' :: rest := by
    intro rest h
    exact not_mem_digitsOf (c := '+') (by decide) n (by rw [h]; exact List.mem_cons_self)
  unfold readIndex?
  split
  · rename_i rest h
    exact absurd h (hplus rest)
  · have hfilter : (some n).filter (fun k => decide (k < 0x10000000000000000)) = some n := by
      simpa using hn
    exact (congrArg (Option.filter _) (readNat?_digitsOf n)).trans hfilter

theorem readIndex?_lt {cs : List Char} (h : readIndex? cs = some n) : n < 0x10000000000000000 := by
  simpa using (Option.filter_eq_some_iff.1 h).2

end BindScript.Decimal
