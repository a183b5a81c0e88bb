/-
**Rounding to the nearest double.**

Products and quotients of doubles are computed exactly, as a mantissa with two residual bits, and
then rounded.  This module reads a mantissa with its residual bits as an interval of rational
numbers.  It follows that whatever number lies nearer to a double than to its neighbours, or
half-way if the mantissa of the double is even, is rounded to that double.

Main results:

* `Decimal.roundWithAccuracy_eq` — **what is nearest to a double is rounded to it**.
-/

import BindScript.Proofs.Decimal.Binary64
import BindScript.Proofs.Decimal.Digits
import Mathlib.Tactic.FieldSimp
import Mathlib.Tactic.Linarith
import Mathlib.Tactic.Ring
import Mathlib.Algebra.Order.Field.Power
import Mathlib.Data.Rat.Cast.Order

namespace BindScript.Decimal

open Float.Model Float.Model.UnpackedFloat

/-! ### Mantissas with residual bits -/

/-- The numbers that a mantissa with residual bits stands for. -/
def Shows (em : ExtendedMantissa) (x : ℚ) : Prop :=
  match em.roundBit, em.stickyBit with
  | false, false => x = em.mantissa
  | false, true => em.mantissa < x ∧ x < em.mantissa + 1 / 2
  | true, false => x = em.mantissa + 1 / 2
  | true, true => em.mantissa + 1 / 2 < x ∧ x < em.mantissa + 1

variable {em : ExtendedMantissa} {x : ℚ}

theorem Shows.bounds (h : Shows em x) : (em.mantissa : ℚ) ≤ x ∧ x < em.mantissa + 1 := by
  obtain ⟨m, round, sticky⟩ := em
  cases round <;> cases sticky <;> simp only [Shows] at h <;> constructor <;> linarith

theorem Shows.shiftRightOne (h : Shows em x) : Shows em.shiftRightOne (x / 2) := by
  obtain ⟨m, round, sticky⟩ := em
  obtain ⟨q, rfl | rfl⟩ : ∃ q, m = 2 * q ∨ m = 2 * q + 1 := ⟨m / 2, by omega⟩
  · have hhalf : 2 * q / 2 = q := by omega
    have hbit : (2 * q % 2 != 0) = false := by simp
    cases round <;> cases sticky <;>
      simp only [Shows, ExtendedMantissa.shiftRightOne, hhalf, hbit, Bool.or_self, Bool.or_true,
        Bool.or_false, Nat.cast_mul, Nat.cast_ofNat] at h ⊢
    · linarith
    all_goals constructor <;> linarith
  · have hhalf : (2 * q + 1) / 2 = q := by omega
    have hbit : ((2 * q + 1) % 2 != 0) = true := by simp
    cases round <;> cases sticky <;>
      simp only [Shows, ExtendedMantissa.shiftRightOne, hhalf, hbit, Bool.or_self, Bool.or_true,
        Bool.or_false, Nat.cast_add, Nat.cast_mul, Nat.cast_ofNat, Nat.cast_one] at h ⊢
    · linarith
    all_goals constructor <;> linarith

theorem Shows.shiftRight (h : Shows em x) (n : Nat) : Shows (em >>> n) (x / 2 ^ n) := by
  induction n with
  | zero =>
    rw [pow_zero, div_one]
    exact h
  | succ n ih =>
    have hstep := ih.shiftRightOne
    rw [div_div, ← pow_succ] at hstep
    exact hstep

theorem shows_exact (m : Nat) : Shows (.ofMantissaAndAccuracy m .exact) m := rfl

/-- A quotient and how its remainder compares with one half. -/
theorem shows_div (n : Nat) {d : Nat} (hd : 0 < d) :
    Shows (.ofMantissaAndAccuracy (n / d) (accuracyOfFraction (n % d) d)) (n / d) := by
  have hd' : (0 : ℚ) < d := by exact_mod_cast hd
  have hlt : ((n % d : Nat) : ℚ) < d := by exact_mod_cast Nat.mod_lt n hd
  have hval : (n : ℚ) / d = (n / d : Nat) + ((n % d : Nat) : ℚ) / d := by
    have hdiv : (n : ℚ) = d * (n / d : Nat) + (n % d : Nat) := by
      exact_mod_cast (Nat.div_add_mod n d).symm
    field_simp
    linarith
  rw [hval]
  generalize n % d = r at hlt ⊢
  unfold accuracyOfFraction
  by_cases hr : r = 0
  · simp [hr, ExtendedMantissa.ofMantissaAndAccuracy, Shows]
  · have hpos : (0 : ℚ) < r := by exact_mod_cast Nat.pos_of_ne_zero hr
    rw [if_neg hr]
    rcases Nat.lt_trichotomy (2 * r) d with h | h | h
    · have hq : (2 * r : ℚ) < d := by exact_mod_cast h
      rw [Nat.compare_eq_lt.2 h]
      refine ⟨lt_add_of_pos_right _ (div_pos hpos hd'), ?_⟩
      have : (r : ℚ) / d < 1 / 2 := by rw [div_lt_div_iff₀ hd' two_pos]; linarith
      simpa [ExtendedMantissa.ofMantissaAndAccuracy] using this
    · have hq : (2 * r : ℚ) = d := by exact_mod_cast h
      rw [Nat.compare_eq_eq.2 h]
      have : (r : ℚ) / d = 1 / 2 := by rw [div_eq_div_iff hd'.ne' two_ne_zero]; linarith
      simp [Shows, ExtendedMantissa.ofMantissaAndAccuracy, this]
    · have hq : (d : ℚ) < 2 * r := by exact_mod_cast h
      rw [Nat.compare_eq_gt.2 h]
      have hlow : 1 / 2 < (r : ℚ) / d := by rw [div_lt_div_iff₀ two_pos hd']; linarith
      have hhigh : (r : ℚ) / d < 1 := (div_lt_one₀ hd').2 hlt
      exact ⟨by simpa [ExtendedMantissa.ofMantissaAndAccuracy] using hlow,
        by simpa [ExtendedMantissa.ofMantissaAndAccuracy] using hhigh⟩

/-- The natural number that is nearest to a number, the even one of two. -/
structure Nearest (x : ℚ) (n : Nat) : Prop where
  /-- It is not more than one half away. -/
  within : (n : ℚ) - 1 / 2 ≤ x ∧ x ≤ n + 1 / 2
  /-- An odd one is nearer than that. -/
  odd : n % 2 = 1 → (n : ℚ) - 1 / 2 < x ∧ x < n + 1 / 2

theorem Shows.roundedMantissa {n : Nat} (h : Shows em x) (hn : Nearest x n) :
    em.roundedMantissa = n := by
  obtain ⟨m, round, sticky⟩ := em
  obtain ⟨⟨hlow, hhigh⟩, hodd⟩ := hn
  cases round <;> cases sticky <;> simp only [Shows] at h
  · -- exactly on the mantissa
    change m = n
    have h1 : (m : ℚ) < n + 1 := by linarith
    have h2 : (n : ℚ) < m + 1 := by linarith
    norm_cast at h1 h2
    omega
  · -- below the half
    change m = n
    have h1 : (m : ℚ) < n + 1 := by linarith
    have h2 : (n : ℚ) < m + 1 := by linarith
    norm_cast at h1 h2
    omega
  · -- on the half: of the two neighbours only the even one can be nearest
    change m + m % 2 = n
    have h1 : (m : ℚ) ≤ n := by linarith
    have h2 : (n : ℚ) ≤ m + 1 := by linarith
    norm_cast at h1 h2
    have heven : ¬n % 2 = 1 := by
      intro hn
      obtain ⟨hlow, hhigh⟩ := hodd hn
      have h3 : (m : ℚ) < n := by linarith
      have h4 : (n : ℚ) < m + 1 := by linarith
      norm_cast at h3 h4
      omega
    omega
  · -- above the half
    change m + 1 = n
    have h1 : (m : ℚ) < n := by linarith
    have h2 : (n : ℚ) < m + 2 := by linarith
    norm_cast at h1 h2
    omega

/-! ### Rounding -/

/-- How far below the number that a mantissa and an exponent denote, in quarters of the last binary
place, the numbers begin that are rounded to it. -/
def gapBelow (m : Nat) (e : Int) : Nat := if m = 0x10000000000000 ∧ e ≠ -1074 then 1 else 2

/-- The number `v` is rounded to the double `m · 2 ^ e`. -/
structure ReadsAs (m : Nat) (e : Int) (v : ℚ) : Prop where
  /-- It is not farther away than half the gap to the next double. -/
  within : (4 * m - gapBelow m e : ℚ) * 2 ^ (e - 2) ≤ v ∧ v ≤ (4 * m + 2) * 2 ^ (e - 2)
  /-- If the mantissa is odd, it is nearer than that. -/
  odd : m % 2 = 1 → (4 * m - gapBelow m e : ℚ) * 2 ^ (e - 2) < v ∧ v < (4 * m + 2) * 2 ^ (e - 2)

/-- A mantissa of 53 bits is aimed at, unless its exponent would be too small. -/
theorem targetExponent_eq (e : Int) : Format.binary64.targetExponent e = max (e - 53) (-1074) := rfl

variable {n m' : Nat} {t e' : Int}

/-- The shift that brings a mantissa to its target exponent. -/
theorem shiftToTargetExponent_eq {m : Nat} {e : Int} (accuracy : Accuracy)
    (hn : (max (m.log2 + e - 52) (-1074) - e).toNat = n) :
    shiftToTargetExponent Format.binary64 m e accuracy =
      (ExtendedMantissa.ofMantissaAndAccuracy m accuracy >>> n, e + n) := by
  have htarget : Format.binary64.targetExponent (totalExponent m e) =
      max (m.log2 + e - 52) (-1074) := by
    rw [targetExponent_eq, totalExponent]
    omega
  rw [← htarget] at hn
  simp only [shiftToTargetExponent, shiftToExponent, hn]

theorem shift_of_fits {m : Nat} {e : Int} (hm : m < 0x20000000000000) (he : -1074 ≤ e) :
    shiftToTargetExponent Format.binary64 m e .exact = (⟨m, false, false⟩, e) := by
  have hlog : m.log2 ≤ 52 := by
    by_cases hzero : m = 0
    · subst hzero
      decide
    · have := (Nat.log2_lt hzero).2 (show m < 2 ^ 53 from hm)
      omega
  rw [shiftToTargetExponent_eq .exact (n := 0) (by omega)]
  simp only [Nat.cast_zero, add_zero]
  rfl

theorem shift_of_carry {e : Int} (he : -1074 ≤ e) :
    shiftToTargetExponent Format.binary64 0x20000000000000 e .exact =
      (⟨0x10000000000000, false, false⟩, e + 1) := by
  have hlog : Nat.log2 0x20000000000000 = 53 := by decide
  rw [shiftToTargetExponent_eq .exact (n := 1) (by rw [hlog]; omega)]
  rfl

/-- The first shift and rounding give the nearest mantissa at the target exponent. -/
theorem shift_of_nearest {m : Nat} {e : Int} {accuracy : Accuracy}
    (h : Shows (.ofMantissaAndAccuracy m accuracy) x) (ht : max (m.log2 + e - 52) (-1074) = t)
    (hle : e ≤ t) (hn : Nearest (x * 2 ^ (e - t)) n) :
    ((shiftToTargetExponent Format.binary64 m e accuracy).1.roundedMantissa,
      (shiftToTargetExponent Format.binary64 m e accuracy).2) = (n, t) := by
  obtain ⟨k, hk⟩ : ∃ k : Nat, t - e = k := ⟨(t - e).toNat, by omega⟩
  have hshows := h.shiftRight k
  have hpow : x / 2 ^ k = x * 2 ^ (e - t) := by
    rw [show e - t = -(k : Int) by omega, zpow_neg, zpow_natCast, div_eq_mul_inv]
  rw [hpow] at hshows
  rw [shiftToTargetExponent_eq accuracy (n := k) (by omega), hshows.roundedMantissa hn]
  exact Prod.ext rfl (by change e + k = t; omega)

theorem mantissa_ofMantissaAndAccuracy (m : Nat) (accuracy : Accuracy) :
    (ExtendedMantissa.ofMantissaAndAccuracy m accuracy).mantissa = m := by
  cases accuracy with
  | exact => rfl
  | inexact order => cases order <;> rfl

/-- The place of the first digit of a mantissa is that of the number. -/
theorem Shows.log2_bounds {m : Nat} {accuracy : Accuracy}
    (h : Shows (.ofMantissaAndAccuracy m accuracy) x) (hm : m ≠ 0) (e : Int) :
    (2 : ℚ) ^ (m.log2 + e) ≤ x * 2 ^ e ∧ x * 2 ^ e < 2 ^ (m.log2 + e + 1) := by
  have hbounds := h.bounds
  rw [mantissa_ofMantissaAndAccuracy] at hbounds
  have hlow : ((2 : ℚ) ^ m.log2) ≤ m := by exact_mod_cast Nat.log2_self_le hm
  have hhigh : (m : ℚ) + 1 ≤ 2 ^ (m.log2 + 1) := by exact_mod_cast Nat.lt_log2_self
  have hpos : (0 : ℚ) < 2 ^ e := zpow_pos two_pos e
  constructor
  · rw [zpow_add₀ two_ne_zero, zpow_natCast]
    exact mul_le_mul_of_nonneg_right (hlow.trans hbounds.1) hpos.le
  · rw [show (m.log2 : Int) + e + 1 = ((m.log2 + 1 : Nat) : Int) + e by push_cast; ring,
      zpow_add₀ two_ne_zero, zpow_natCast]
    exact mul_lt_mul_of_pos_right (hbounds.2.trans_le hhigh) hpos

theorem zpow_two_lt {a b : Int} (h : (2 : ℚ) ^ a < 2 ^ b) : a < b :=
  (zpow_lt_zpow_iff_right₀ one_lt_two).1 h

/-- A mantissa has a first digit, or the number is below every normal one. -/
theorem Shows.lt_of_zero {accuracy : Accuracy} (h : Shows (.ofMantissaAndAccuracy 0 accuracy) x)
    (e : Int) :
    x * 2 ^ e < 2 ^ e := by
  have hbounds := h.bounds
  rw [mantissa_ofMantissaAndAccuracy] at hbounds
  have hpos : (0 : ℚ) < 2 ^ e := zpow_pos two_pos e
  have hlt : x < 1 := by simpa using hbounds.2
  calc x * 2 ^ e < 1 * 2 ^ e := mul_lt_mul_of_pos_right hlt hpos
    _ = 2 ^ e := one_mul _

section Round

variable {m : Nat} {e : Int} {accuracy : Accuracy}

/-- The target exponent of a normal number is known from its place. -/
theorem Shows.target_of_normal (h : Shows (.ofMantissaAndAccuracy m accuracy) x)
    (hlow : e ≤ -1074 ∨ 0x10000000000000 ≤ m) (ht : -1074 ≤ t)
    (hge : (2 : ℚ) ^ (t + 52) ≤ x * 2 ^ e) (hlt : x * 2 ^ e < 2 ^ (t + 53)) :
    max (m.log2 + e - 52) (-1074) = t := by
  have hm : m ≠ 0 := by
    rintro rfl
    have hsmall := h.lt_of_zero e
    have := zpow_two_lt (hge.trans_lt hsmall)
    omega
  obtain ⟨hfirst, hnext⟩ := h.log2_bounds hm e
  have h1 := zpow_two_lt (hfirst.trans_lt hlt)
  have h2 := zpow_two_lt (hge.trans_lt hnext)
  omega

/-- Below the normal numbers the target exponent is the least one. -/
theorem Shows.target_of_small (h : Shows (.ofMantissaAndAccuracy m accuracy) x)
    (hlow : e ≤ -1074 ∨ 0x10000000000000 ≤ m) (hlt : x * 2 ^ e < 2 ^ (-1022 : Int)) :
    max (m.log2 + e - 52) (-1074) = -1074 := by
  by_cases hm : m = 0
  · subst hm
    have hlog : Nat.log2 0 = 0 := by decide
    rw [hlog]
    omega
  · have h1 := zpow_two_lt ((h.log2_bounds hm e).1.trans_lt hlt)
    omega

/-- A mantissa with enough bits, or a small enough exponent, is never short of its target. -/
theorem le_target (hlow : e ≤ -1074 ∨ 0x10000000000000 ≤ m) :
    e ≤ max (m.log2 + e - 52) (-1074) := by
  rcases hlow with he | hm
  · omega
  · have hlog : 52 ≤ m.log2 := (Nat.le_log2 (by omega)).2 hm
    omega

/-- A number is rounded by two shifts, the second for a carry of the first. -/
theorem roundWithAccuracy_of_shifts (s : Sign) {last : ExtendedMantissa × Int}
    (hfirst : ((shiftToTargetExponent Format.binary64 m e accuracy).1.roundedMantissa,
      (shiftToTargetExponent Format.binary64 m e accuracy).2) = (n, t))
    (hsecond : shiftToTargetExponent Format.binary64 n t .exact = last) :
    roundWithAccuracy Format.binary64 s m e accuracy =
      if h : last.1.mantissa = 0 then .zero s
      else .finite s last.1.mantissa last.2 (Nat.pos_of_ne_zero h) := by
  cases hfirst
  subst hsecond
  rfl

/-- What a number is rounded to is zero or has the exponent of the second shift. -/
theorem roundWithAccuracy_cases (s : Sign) {last : ExtendedMantissa × Int}
    (hfirst : ((shiftToTargetExponent Format.binary64 m e accuracy).1.roundedMantissa,
      (shiftToTargetExponent Format.binary64 m e accuracy).2) = (n, t))
    (hsecond : shiftToTargetExponent Format.binary64 n t .exact = last) :
    roundWithAccuracy Format.binary64 s m e accuracy = .zero s ∨
      ∃ hpos, roundWithAccuracy Format.binary64 s m e accuracy =
        .finite s last.1.mantissa last.2 hpos := by
  rw [roundWithAccuracy_of_shifts s hfirst hsecond]
  by_cases hzero : last.1.mantissa = 0
  · exact .inl (dif_pos hzero)
  · exact .inr ⟨_, dif_neg hzero⟩

theorem roundWithAccuracy_of_nearest (s : Sign) (h : Shows (.ofMantissaAndAccuracy m accuracy) x)
    (ht : max (m.log2 + e - 52) (-1074) = t) (hle : e ≤ t) (hpos : 0 < n)
    (hn : Nearest (x * 2 ^ (e - t)) n) (hfits : n < 0x20000000000000) :
    roundWithAccuracy Format.binary64 s m e accuracy = .finite s n t hpos := by
  have hfirst := shift_of_nearest h ht hle hn
  have hsecond := shift_of_fits hfits (show -1074 ≤ t by omega)
  exact (roundWithAccuracy_of_shifts s hfirst hsecond).trans (dif_neg (show n ≠ 0 by omega))

theorem roundWithAccuracy_of_carry (s : Sign) (h : Shows (.ofMantissaAndAccuracy m accuracy) x)
    (ht : max (m.log2 + e - 52) (-1074) = t - 1) (hle : e ≤ t - 1)
    (hn : Nearest (x * 2 ^ (e - (t - 1))) 0x20000000000000) :
    roundWithAccuracy Format.binary64 s m e accuracy =
      .finite s 0x10000000000000 t (by decide) := by
  have hfirst := shift_of_nearest h ht hle hn
  have hsecond := shift_of_carry (show -1074 ≤ t - 1 by omega)
  rw [sub_add_cancel] at hsecond
  exact (roundWithAccuracy_of_shifts s hfirst hsecond).trans
    (dif_neg (show (0x10000000000000 : Nat) ≠ 0 by decide))

theorem ReadsAs.scaled (h : ReadsAs m' e' (x * 2 ^ e)) :
    ((m' - gapBelow m' e' / 4 : ℚ) ≤ x * 2 ^ (e - e') ∧ x * 2 ^ (e - e') ≤ m' + 1 / 2) ∧
      (m' % 2 = 1 → (m' - gapBelow m' e' / 4 : ℚ) < x * 2 ^ (e - e') ∧
        x * 2 ^ (e - e') < m' + 1 / 2) := by
  have hpos : (0 : ℚ) < 2 ^ (e' - 2) := zpow_pos two_pos _
  have hval : x * 2 ^ e = 4 * (x * 2 ^ (e - e')) * 2 ^ (e' - 2) := by
    have hsplit : (2 : ℚ) ^ e = 2 ^ (e - e') * (2 ^ (e' - 2) * 2 ^ (2 : Int)) := by
      rw [← zpow_add₀ two_ne_zero, ← zpow_add₀ two_ne_zero]
      congr 1
      ring
    rw [hsplit]
    norm_num
    ring
  obtain ⟨⟨hlow, hhigh⟩, hodd⟩ := h
  rw [hval] at hlow hhigh hodd
  have hlow' := le_of_mul_le_mul_right hlow hpos
  have hhigh' := le_of_mul_le_mul_right hhigh hpos
  refine ⟨⟨by linarith, by linarith⟩, fun hm => ?_⟩
  have hlow'' := lt_of_mul_lt_mul_right (hodd hm).1 hpos.le
  have hhigh'' := lt_of_mul_lt_mul_right (hodd hm).2 hpos.le
  exact ⟨by linarith, by linarith⟩

theorem gapBelow_le (m : Nat) (e : Int) : (gapBelow m e : ℚ) ≤ 2 := by
  unfold gapBelow
  split <;> norm_num

theorem ReadsAs.nearest (h : ReadsAs m' e' (x * 2 ^ e)) : Nearest (x * 2 ^ (e - e')) m' := by
  have hgap := gapBelow_le m' e'
  obtain ⟨⟨hlow, hhigh⟩, hodd⟩ := h.scaled
  refine ⟨⟨by linarith, hhigh⟩, fun hm => ⟨?_, (hodd hm).2⟩⟩
  have := (hodd hm).1
  linarith

theorem scaled_lt {k : Int} : x * 2 ^ e < 2 ^ (e' + k) ↔ x * 2 ^ (e - e') < 2 ^ k := by
  have hpos : (0 : ℚ) < 2 ^ e' := zpow_pos two_pos _
  have hleft : x * 2 ^ e = x * 2 ^ (e - e') * 2 ^ e' := by
    rw [mul_assoc, ← zpow_add₀ two_ne_zero]
    congr 2
    ring
  rw [hleft, add_comm e' k, zpow_add₀ two_ne_zero, mul_lt_mul_iff_left₀ hpos]

/-- **What is nearest to a double is rounded to it.** -/
theorem roundWithAccuracy_eq (s : Sign) (h : Shows (.ofMantissaAndAccuracy m accuracy) x)
    (hbits : e ≤ -1074 ∨ 0x10000000000000 ≤ m) (hcanonical : Canonical m' e') (hpos : 0 < m')
    (hreads : ReadsAs m' e' (x * 2 ^ e)) :
    roundWithAccuracy Format.binary64 s m e accuracy = .finite s m' e' hpos := by
  have hle := le_target hbits
  obtain ⟨⟨hlow, hhigh⟩, -⟩ := hreads.scaled
  have hleast := hcanonical.least
  have hmantissa : (m' : ℚ) + 1 ≤ 2 ^ (53 : Int) := by exact_mod_cast hcanonical.mantissa
  by_cases hnormal : x * 2 ^ e < 2 ^ (e' + 52)
  · by_cases hmin : e' = -1074
    · -- a number with the least exponent, possibly not normal
      subst hmin
      have ht := h.target_of_small hbits hnormal
      exact roundWithAccuracy_of_nearest s h ht (ht ▸ hle) hpos hreads.nearest hcanonical.mantissa
    · -- just below a power of two the next number has a smaller exponent
      have hge : 0x10000000000000 ≤ m' := hcanonical.normal.resolve_right hmin
      have hbelow := scaled_lt.1 hnormal
      have hgap := gapBelow_le m' e'
      have heq : m' = 0x10000000000000 := by
        have hlt : (m' : ℚ) < 0x10000000000001 := by
          norm_num at hbelow
          linarith
        have hlt' : m' < 0x10000000000001 := by exact_mod_cast hlt
        omega
      subst heq
      have hone : gapBelow 0x10000000000000 e' = 1 := if_pos ⟨rfl, hmin⟩
      rw [hone] at hlow
      have hdouble : x * 2 ^ (e - (e' - 1)) = 2 * (x * 2 ^ (e - e')) := by
        rw [show e - (e' - 1) = e - e' + 1 by ring, zpow_add₀ two_ne_zero]
        ring
      have hnearest : Nearest (x * 2 ^ (e - (e' - 1))) 0x20000000000000 := by
        rw [hdouble]
        norm_num at hlow hbelow
        refine ⟨⟨?_, ?_⟩, fun hodd => absurd hodd (by decide)⟩
        · norm_num
          linarith
        · norm_num
          linarith
      have ht : max (m.log2 + e - 52) (-1074) = e' - 1 := by
        refine h.target_of_normal hbits (by omega) ?_ ?_
        · refine le_of_not_gt fun hlt => ?_
          have hlt' := scaled_lt.1 (show x * 2 ^ e < 2 ^ (e' + 51) by
            rwa [show e' - 1 + 52 = e' + 51 by ring] at hlt)
          norm_num at hlt' hlow
          linarith
        · rwa [show e' - 1 + 53 = e' + 52 by ring]
      exact roundWithAccuracy_of_carry s h ht (ht ▸ hle) hnearest
  · have ht : max (m.log2 + e - 52) (-1074) = e' := by
      refine h.target_of_normal hbits hleast (le_of_not_gt hnormal) (scaled_lt.2 ?_)
      linarith
    exact roundWithAccuracy_of_nearest s h ht (ht ▸ hle) hpos hreads.nearest hcanonical.mantissa

end Round

/-! ### Products and quotients -/

section Operations

variable {s₁ s₂ : Sign} {m₁ m₂ : Nat} {e₁ e₂ : Int} {hm₁ : 0 < m₁} {hm₂ : 0 < m₂}

theorem mul_eq (hbits : e₁ + e₂ ≤ -1074 ∨ 0x10000000000000 ≤ m₁ * m₂) {m : Nat} {e : Int}
    (hcanonical : Canonical m e) (hpos : 0 < m)
    (hreads : ReadsAs m e (m₁ * 2 ^ e₁ * (m₂ * 2 ^ e₂))) :
    UnpackedFloat.mul Format.binary64 (.finite s₁ m₁ e₁ hm₁) (.finite s₂ m₂ e₂ hm₂) =
      .finite (s₁ * s₂) m e hpos := by
  have hval : ((m₁ * m₂ : Nat) : ℚ) * 2 ^ (e₁ + e₂) = m₁ * 2 ^ e₁ * (m₂ * 2 ^ e₂) := by
    rw [zpow_add₀ two_ne_zero]
    push_cast
    ring
  rw [← hval] at hreads
  exact roundWithAccuracy_eq _ (shows_exact _) hbits hcanonical hpos hreads

theorem le_shiftLeft_div (hm₁ : 0 < m₁) (hm₂ : 0 < m₂) {k : Nat}
    (hk : m₂.log2 + 53 ≤ m₁.log2 + k) : 0x10000000000000 ≤ m₁ <<< k / m₂ := by
  have hone : 2 ^ m₁.log2 ≤ m₁ := Nat.log2_self_le (by omega)
  have htwo : m₂ < 2 ^ (m₂.log2 + 1) := Nat.lt_log2_self
  rw [Nat.le_div_iff_mul_le hm₂, Nat.shiftLeft_eq]
  calc 0x10000000000000 * m₂ ≤ 2 ^ 52 * 2 ^ (m₂.log2 + 1) := Nat.mul_le_mul (le_refl _) htwo.le
    _ = 2 ^ (m₂.log2 + 53) := by rw [← Nat.pow_add]; congr 1; omega
    _ ≤ 2 ^ (m₁.log2 + k) := Nat.pow_le_pow_right two_pos (by omega)
    _ = 2 ^ m₁.log2 * 2 ^ k := Nat.pow_add ..
    _ ≤ m₁ * 2 ^ k := Nat.mul_le_mul hone (le_refl _)

/-- The exponent of a quotient is the least one, or leaves room for 53 bits. -/
theorem divCore_eq (hm₁ : 0 < m₁) (hm₂ : 0 < m₂) (e₁ e₂ : Int) : ∃ (t : Int) (k : Nat),
    divCore Format.binary64 m₁ e₁ m₂ e₂ =
      (m₁ <<< k / m₂, t, accuracyOfFraction (m₁ <<< k % m₂) m₂) ∧ e₁ - e₂ - t = k ∧
      (t ≤ -1074 ∨ 0x10000000000000 ≤ m₁ <<< k / m₂) := by
  have htarget : Format.binary64.targetExponent (totalExponent m₁ e₁ - totalExponent m₂ e₂) =
      max (m₁.log2 + e₁ - (m₂.log2 + e₂) - 53) (-1074) := by
    rw [targetExponent_eq, totalExponent, totalExponent]
    omega
  obtain ⟨t, ht⟩ : ∃ t, min (e₁ - e₂) (max (m₁.log2 + e₁ - (m₂.log2 + e₂) - 53) (-1074)) = t :=
    ⟨_, rfl⟩
  obtain ⟨k, hk⟩ : ∃ k : Nat, e₁ - e₂ - t = k := ⟨(e₁ - e₂ - t).toNat, by omega⟩
  refine ⟨t, k, ?_, hk, ?_⟩
  · simp only [divCore, htarget, ht, hk, Int.toNat_natCast]
  · by_cases hmin : t ≤ -1074
    · exact .inl hmin
    · exact .inr (le_shiftLeft_div hm₁ hm₂ (by omega))

theorem div_eq {m : Nat} {e : Int} (hcanonical : Canonical m e) (hpos : 0 < m)
    (hreads : ReadsAs m e (m₁ * 2 ^ e₁ / (m₂ * 2 ^ e₂))) :
    UnpackedFloat.div Format.binary64 (.finite s₁ m₁ e₁ hm₁) (.finite s₂ m₂ e₂ hm₂) =
      .finite (s₁ / s₂) m e hpos := by
  obtain ⟨t, k, hcore, hk, hbits⟩ := divCore_eq hm₁ hm₂ e₁ e₂
  have hval : ((m₁ <<< k : Nat) : ℚ) / m₂ * 2 ^ t = m₁ * 2 ^ e₁ / (m₂ * 2 ^ e₂) := by
    have hpow : (2 : ℚ) ^ e₁ = 2 ^ k * 2 ^ t * 2 ^ e₂ := by
      rw [← zpow_natCast, ← zpow_add₀ two_ne_zero, ← zpow_add₀ two_ne_zero]
      congr 1
      omega
    have hne : (m₂ : ℚ) ≠ 0 := by exact_mod_cast hm₂.ne'
    rw [Nat.shiftLeft_eq, hpow]
    push_cast
    field_simp
  rw [← hval] at hreads
  have hround := roundWithAccuracy_eq (s₁ / s₂) (shows_div (m₁ <<< k) hm₂)
    hbits hcanonical hpos hreads
  have hdiv : UnpackedFloat.div Format.binary64 (.finite s₁ m₁ e₁ hm₁) (.finite s₂ m₂ e₂ hm₂) =
      roundWithAccuracy Format.binary64 (s₁ / s₂) (divCore Format.binary64 m₁ e₁ m₂ e₂).1
        (divCore Format.binary64 m₁ e₁ m₂ e₂).2.1 (divCore Format.binary64 m₁ e₁ m₂ e₂).2.2 := rfl
  rw [hdiv, hcore]
  exact hround

end Operations

end BindScript.Decimal
