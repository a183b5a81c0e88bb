/-
**A decimal number is read as the nearest double.**

Short digits and small powers of ten are doubles themselves, so their product or quotient is rounded
once; all other decimal numbers are computed from exact products and quotients of integers.  Either
way the result is the double nearest to the decimal number.

Main results:

* `Decimal.floatOfDigits_eq` — **the double of a decimal number is the nearest one**.
-/

import BindScript.Proofs.Decimal.Rounding

namespace BindScript.Decimal

open Float.Model Float.Model.UnpackedFloat

/-! ### Integers and powers of ten that are doubles -/

theorem readsAs_self (m : Nat) (e : Int) : ReadsAs m e (m * 2 ^ e) := by
  have hpos : (0 : ℚ) < 2 ^ (e - 2) := zpow_pos two_pos _
  have hval : (m : ℚ) * 2 ^ e = 4 * m * 2 ^ (e - 2) := by
    rw [zpow_sub₀ two_ne_zero]
    norm_num
    ring
  have hgap : (1 : ℚ) ≤ gapBelow m e := by
    unfold gapBelow
    split <;> norm_num
  have hlow : (4 * m - gapBelow m e : ℚ) * 2 ^ (e - 2) < m * 2 ^ e := by
    rw [hval]
    exact mul_lt_mul_of_pos_right (by linarith) hpos
  have hhigh : (m : ℚ) * 2 ^ e < (4 * m + 2) * 2 ^ (e - 2) := by
    rw [hval]
    exact mul_lt_mul_of_pos_right (by linarith) hpos
  exact ⟨⟨hlow.le, hhigh.le⟩, fun _ => ⟨hlow, hhigh⟩⟩

/-- A positive number that is a double, in normal form. -/
def IsDouble (v : ℚ) (u : UnpackedFloat) : Prop :=
  ∃ m e hm, u = .finite .positive m e hm ∧ 0x10000000000000 ≤ m ∧ (m : ℚ) * 2 ^ e = v

theorem ofNat_eq_round {n : Nat} (hpos : 0 < n) :
    UnpackedFloat.ofNat Format.binary64 n = UnpackedFloat.round Format.binary64 .positive n 0 := by
  have hgt : compare (n : Int) 0 = .gt := by
    rw [Int.compare_eq_gt]
    omega
  rw [UnpackedFloat.ofNat, UnpackedFloat.ofInt, UnpackedFloat.normalize, hgt]
  rfl

theorem isDouble_toFloat {n : Nat} (hpos : 0 < n) (hn : n < 0x20000000000000) :
    IsDouble n n.toUInt64.toFloat.toModel.unpack := by
  have hlog : n.log2 < 53 := (Nat.log2_lt (by omega)).2 hn
  obtain ⟨k, hk⟩ : ∃ k, n.log2 + k = 52 := ⟨52 - n.log2, by omega⟩
  have hnat : n.toUInt64.toNat = n := by
    simp only [Nat.toUInt64, UInt64.toNat_ofNat']
    omega
  -- shifted to 53 bits the number is a mantissa, and nothing is rounded
  have hlow : 0x10000000000000 ≤ n <<< k := by
    have hself : 2 ^ n.log2 ≤ n := Nat.log2_self_le (by omega)
    rw [Nat.shiftLeft_eq]
    calc 0x10000000000000 = 2 ^ n.log2 * 2 ^ k := by rw [← Nat.pow_add, hk]
      _ ≤ n * 2 ^ k := Nat.mul_le_mul hself (le_refl _)
  have hhigh : n <<< k < 0x20000000000000 := by
    have hself : n < 2 ^ (n.log2 + 1) := Nat.lt_log2_self
    rw [Nat.shiftLeft_eq]
    calc n * 2 ^ k < 2 ^ (n.log2 + 1) * 2 ^ k := Nat.mul_lt_mul_of_pos_right hself (by positivity)
      _ = 0x20000000000000 := by rw [← Nat.pow_add, show n.log2 + 1 + k = 53 by omega]
  have hcanonical : Canonical (n <<< k) (-k) := ⟨hhigh, by omega, by omega, .inl hlow⟩
  have hround : UnpackedFloat.round Format.binary64 .positive n 0 =
      .finite .positive (n <<< k) (-k) (by omega) := by
    have htarget : Format.binary64.targetExponent (totalExponent n 0) = -(k : Int) := by
      rw [targetExponent_eq, totalExponent]
      omega
    have hshift : decreaseExponent n 0 (-(k : Int)) = (n <<< k, -(k : Int)) := by
      simp [decreaseExponent]
    have hsame : UnpackedFloat.round Format.binary64 .positive n 0 =
        roundWithAccuracy Format.binary64 .positive (n <<< k) (-k) .exact := by
      simp only [UnpackedFloat.round, htarget, hshift]
    rw [hsame]
    exact roundWithAccuracy_eq _ (shows_exact _) (.inr hlow) hcanonical _ (readsAs_self _ _)
  have hfloat : n.toUInt64.toFloat.toModel =
      Float.Model.pack (.finite .positive (n <<< k) (-k) (by omega)) := by
    change Float.Model.pack (UnpackedFloat.ofNat Format.binary64 n.toUInt64.toNat) = _
    rw [hnat, ofNat_eq_round hpos, hround]
  refine ⟨n <<< k, -k, by omega, ?_, hlow, ?_⟩
  · rw [hfloat, unpack_pack hcanonical]
  · rw [Nat.shiftLeft_eq, zpow_neg, zpow_natCast]
    push_cast
    field_simp

theorem ofFloat_powerOfTen : ∀ e : Fin 23,
    Binary64.ofFloat (Float.exactlyRepresentablePowersOfTen[e]) =
      .finite false (10 ^ e.val * 2 ^ 52 / 2 ^ (10 ^ e.val).log2) ((10 ^ e.val).log2 - 52) ∧
    2 ^ (10 ^ e.val).log2 ∣ 10 ^ e.val * 2 ^ 52 := by
  decide +kernel

theorem isDouble_powerOfTen (e : Fin 23) :
    IsDouble (10 ^ e.val) (Float.exactlyRepresentablePowersOfTen[e]).toModel.unpack := by
  obtain ⟨hread, q, hq⟩ := ofFloat_powerOfTen e
  have hpow : 0 < 2 ^ (10 ^ e.val).log2 := by positivity
  rw [hq, Nat.mul_div_cancel_left q hpow] at hread
  have hlow : 0x10000000000000 ≤ q := by
    have hself : 2 ^ (10 ^ e.val).log2 ≤ 10 ^ e.val := Nat.log2_self_le (by positivity)
    have hle : 2 ^ (10 ^ e.val).log2 * 2 ^ 52 ≤ 2 ^ (10 ^ e.val).log2 * q := by
      rw [← hq]
      exact Nat.mul_le_mul hself (le_refl _)
    exact Nat.le_of_mul_le_mul_left hle hpow
  have hpos : 0 < q := by omega
  refine ⟨q, _, hpos, Binary64.unpack_of_ofFloat hpos hread, hlow, ?_⟩
  have hq' : (10 : ℚ) ^ e.val * 2 ^ 52 = 2 ^ (10 ^ e.val).log2 * q := by exact_mod_cast hq
  rw [zpow_sub₀ two_ne_zero, zpow_natCast, ← mul_div_assoc, mul_comm (q : ℚ), ← hq']
  norm_num

/-! ### Digits and a power of ten -/

theorem IsDouble.mul {v w : ℚ} {u u' : UnpackedFloat} (hu : IsDouble v u) (hu' : IsDouble w u')
    {m : Nat} {e : Int} (hcanonical : Canonical m e) (hpos : 0 < m) (hreads : ReadsAs m e (v * w)) :
    UnpackedFloat.mul Format.binary64 u u' = .finite .positive m e hpos := by
  obtain ⟨m₁, e₁, hm₁, rfl, hlow, rfl⟩ := hu
  obtain ⟨m₂, e₂, hm₂, rfl, -, rfl⟩ := hu'
  refine mul_eq (.inr ?_) hcanonical hpos hreads
  exact hlow.trans (Nat.le_mul_of_pos_right m₁ hm₂)

theorem IsDouble.div {v w : ℚ} {u u' : UnpackedFloat} (hu : IsDouble v u) (hu' : IsDouble w u')
    {m : Nat} {e : Int} (hcanonical : Canonical m e) (hpos : 0 < m) (hreads : ReadsAs m e (v / w)) :
    UnpackedFloat.div Format.binary64 u u' = .finite .positive m e hpos := by
  obtain ⟨m₁, e₁, hm₁, rfl, -, rfl⟩ := hu
  obtain ⟨m₂, e₂, hm₂, rfl, -, rfl⟩ := hu'
  exact div_eq hcanonical hpos hreads

section Scientific

variable {n : Nat} {k : Int} {m : Nat} {e : Int}

/-- The exact computation, where the power of ten is not out of all bounds. -/
theorem unpacked_ofScientific_eq (hn : 0 < n) (hhigh : k ≤ 2048) (hlow : -(2048 + n.log2 : Int) ≤ k)
    (hcanonical : Canonical m e) (hpos : 0 < m) (hreads : ReadsAs m e (n * 10 ^ k)) :
    UnpackedFloat.ofScientific Format.binary64 n k = .finite .positive m e hpos := by
  have hbits : (2 : Int) ^ Format.binary64.exponentBits = 2048 := rfl
  rw [UnpackedFloat.ofScientific, dif_neg (by omega), if_neg (by rw [hbits]; omega),
    if_neg (by rw [hbits]; omega)]
  by_cases hk : 0 ≤ k
  · obtain ⟨j, rfl⟩ : ∃ j : Nat, k = j := ⟨k.toNat, by omega⟩
    rw [if_pos hk]
    refine mul_eq (.inr ?_) hcanonical hpos ?_
    · rw [Nat.shiftLeft_eq]
      calc 0x10000000000000 ≤ n * 2 ^ 53 := by omega
        _ ≤ n * 2 ^ 53 * 10 ^ j := Nat.le_mul_of_pos_right _ (by positivity)
    · have hval : ((n <<< Format.mantissaBits Format.binary64 : Nat) : ℚ) *
          2 ^ (-(Format.mantissaBits Format.binary64 : Int)) *
          (((10 ^ (j : Int).toNat : Nat) : ℚ) * 2 ^ (0 : Int)) = n * 10 ^ (j : Int) := by
        have hfifty : Format.mantissaBits Format.binary64 = 53 := rfl
        rw [hfifty, Nat.shiftLeft_eq, zpow_neg, zpow_natCast, zpow_natCast, Int.toNat_natCast]
        push_cast
        field_simp
        norm_num
      rwa [hval]
  · obtain ⟨j, rfl⟩ : ∃ j : Nat, k = -(j : Int) := ⟨(-k).toNat, by omega⟩
    rw [if_neg hk]
    refine div_eq hcanonical hpos ?_
    have hval : (n : ℚ) * 2 ^ (0 : Int) /
        (((10 ^ (- -(j : Int)).toNat : Nat) : ℚ) * 2 ^ (0 : Int)) =
        n * 10 ^ (-(j : Int)) := by
      rw [neg_neg, Int.toNat_natCast, zpow_neg, zpow_natCast]
      push_cast
      norm_num
      rfl
    rwa [hval]

theorem ofScientific_eq (hn : 0 < n) (hhigh : k ≤ 2048) (hlow : -(2048 + n.log2 : Int) ≤ k)
    (hcanonical : Canonical m e) (hpos : 0 < m) (hreads : ReadsAs m e (n * 10 ^ k)) :
    Float.ofScientific n (decide (k < 0)) k.natAbs =
      .ofModel (Float.Model.pack (.finite .positive m e hpos)) := by
  generalize hu : UnpackedFloat.finite .positive m e hpos = u
  unfold Float.ofScientific
  by_cases hfast : n < 2 ^ 53 ∧ k.natAbs ≤ 22
  · -- digits and power are both doubles, so there is only one rounding
    have hten := isDouble_powerOfTen ⟨k.natAbs, by omega⟩
    have hdigits := isDouble_toFloat hn hfast.1
    rw [dif_pos hfast]
    by_cases hk : k < 0
    · have hval : (n : ℚ) * 10 ^ k = n / 10 ^ k.natAbs := by
        have hneg : k = -(k.natAbs : Int) := by omega
        rw [div_eq_mul_inv, ← zpow_natCast, ← zpow_neg, ← hneg]
      rw [hval] at hreads
      rw [if_pos (by simpa using hk)]
      exact congrArg (fun u => Float.ofModel (Float.Model.pack u))
        ((hdigits.div hten hcanonical hpos hreads).trans hu)
    · have hval : (n : ℚ) * 10 ^ k = n * 10 ^ k.natAbs := by
        rw [← zpow_natCast (10 : ℚ) k.natAbs, show (k.natAbs : Int) = k by omega]
      rw [hval] at hreads
      rw [if_neg (by simpa using hk)]
      exact congrArg (fun u => Float.ofModel (Float.Model.pack u))
        ((hdigits.mul hten hcanonical hpos hreads).trans hu)
  · rw [dif_neg hfast]
    have hsigned : (if decide (k < 0) = true then Int.negOfNat k.natAbs
      else Int.ofNat k.natAbs) = k := by
      by_cases hk : k < 0
      · rw [if_pos (by simpa using hk), Int.negOfNat_eq, Int.ofNat_eq_natCast]
        omega
      · rw [if_neg (by simpa using hk), Int.ofNat_eq_natCast]
        omega
    simp only [hsigned]
    exact congrArg (fun u => Float.ofModel (Float.Model.pack u))
      ((unpacked_ofScientific_eq hn hhigh hlow hcanonical hpos hreads).trans hu)

/-- The number of digits of a positive number is known from the powers of ten next to it. -/
theorem length_digitsOf_bounds (hn : 0 < n) :
    10 ^ ((digitsOf n).length - 1) ≤ n ∧ n < 10 ^ (digitsOf n).length ∧
    0 < (digitsOf n).length := by
  have hpos : 0 < (digitsOf n).length := List.length_pos_of_ne_nil (digitsOf_ne_nil n)
  refine ⟨?_, (Nat.length_toDigits_le_iff (by decide) hpos).1 (le_refl _), hpos⟩
  by_cases hone : (digitsOf n).length = 1
  · rw [hone]
    exact hn
  · refine Nat.le_of_not_lt fun hlt => ?_
    have := (Nat.length_toDigits_le_iff (by decide) (by omega)).2 hlt
    change (digitsOf n).length ≤ _ at this
    omega

theorem zpow_ten_lt {a b : Int} (h : (10 : ℚ) ^ a < 10 ^ b) : a < b :=
  (zpow_lt_zpow_iff_right₀ (by norm_num)).1 h

/-- What is rounded to a double has its first digit at a place in the range of doubles. -/
theorem ReadsAs.place (hn : 0 < n) (hcanonical : Canonical m e) (hpos : 0 < m)
    (hreads : ReadsAs m e (n * 10 ^ k)) :
    -324 < (digitsOf n).length + k ∧ (digitsOf n).length + k ≤ 309 := by
  obtain ⟨hlow, hhigh, hlen⟩ := length_digitsOf_bounds hn
  obtain ⟨L, hL⟩ : ∃ L, (digitsOf n).length = L + 1 := ⟨(digitsOf n).length - 1, by omega⟩
  rw [hL] at hlow hhigh ⊢
  have hten : (0 : ℚ) < 10 ^ k := zpow_pos (by norm_num) k
  have hlow' : (10 : ℚ) ^ (L + k) ≤ n * 10 ^ k := by
    rw [zpow_add₀ (by norm_num), zpow_natCast]
    exact mul_le_mul_of_nonneg_right (by exact_mod_cast hlow) hten.le
  have hhigh' : n * 10 ^ k < (10 : ℚ) ^ (L + 1 + k) := by
    rw [zpow_add₀ (by norm_num), show (L : Int) + 1 = ((L + 1 : Nat) : Int) by push_cast; ring,
      zpow_natCast]
    exact mul_lt_mul_of_pos_right (by exact_mod_cast hhigh) hten
  have hleast := hcanonical.least
  have hgreatest := hcanonical.greatest
  have hgap := gapBelow_le m e
  have hm : (1 : ℚ) ≤ m := by exact_mod_cast hpos
  have hm' : (m : ℚ) + 1 ≤ 2 ^ 53 := by exact_mod_cast hcanonical.mantissa
  -- doubles end at `2 ^ 1024`, and half of the least one is `2 ^ -1075`
  have htop : (n : ℚ) * 10 ^ k < 10 ^ (309 : Int) := by
    have hpow : (2 : ℚ) ^ (1024 : Int) < 10 ^ (309 : Int) := by
      exact_mod_cast (by decide +kernel : 2 ^ 1024 < 10 ^ 309)
    calc (n : ℚ) * 10 ^ k ≤ (4 * m + 2) * 2 ^ (e - 2) := hreads.within.2
      _ ≤ 2 ^ (55 : Int) * 2 ^ (969 : Int) := by
          refine mul_le_mul ?_ ?_ (zpow_pos two_pos _).le (by positivity)
          · norm_num at hm' ⊢
            linarith
          · exact zpow_le_zpow_right₀ (by norm_num) (by omega)
      _ = 2 ^ (1024 : Int) := by rw [← zpow_add₀ two_ne_zero]; norm_num
      _ < 10 ^ (309 : Int) := hpow
  have hbottom : (10 : ℚ) ^ (-324 : Int) ≤ n * 10 ^ k := by
    have hpow : (10 : ℚ) ^ (-324 : Int) ≤ 2 ^ (-1075 : Int) := by
      rw [zpow_neg, zpow_neg]
      exact inv_anti₀ (by positivity) (by exact_mod_cast (by decide +kernel : 2 ^ 1075 ≤ 10 ^ 324))
    calc (10 : ℚ) ^ (-324 : Int) ≤ 2 ^ (-1075 : Int) := hpow
      _ = 2 ^ (1 : Int) * 2 ^ (-1076 : Int) := by rw [← zpow_add₀ two_ne_zero]; norm_num
      _ ≤ (4 * m - gapBelow m e) * 2 ^ (e - 2) := by
          refine mul_le_mul ?_ ?_ (zpow_pos two_pos _).le (by linarith)
          · norm_num
            linarith
          · exact zpow_le_zpow_right₀ (by norm_num) (by omega)
      _ ≤ n * 10 ^ k := hreads.within.1
  have h1 := zpow_ten_lt (hlow'.trans_lt htop)
  have h2 := zpow_ten_lt (hbottom.trans_lt hhigh')
  push_cast
  omega

/-- **The double of a decimal number is the nearest one.** -/
theorem floatOfDigits_eq (hn : 0 < n) (hcanonical : Canonical m e) (hpos : 0 < m)
    (hreads : ReadsAs m e (n * 10 ^ k)) :
    Binary64.ofFloat (floatOfDigits n k) = .finite false m e := by
  obtain ⟨hlow, hhigh⟩ := hreads.place hn hcanonical hpos
  have hlog : (digitsOf n).length ≤ n.log2 + 1 := by
    have hlt : n < 10 ^ (n.log2 + 1) :=
      Nat.lt_log2_self.trans_le (Nat.pow_le_pow_left (by decide) _)
    exact (Nat.length_toDigits_le_iff (by decide) (by omega)).2 hlt
  have hlen : 0 < (digitsOf n).length := (length_digitsOf_bounds hn).2.2
  unfold floatOfDigits
  simp only
  rw [if_neg (by omega), if_neg (by omega),
    ofScientific_eq hn (by omega) (by omega) hcanonical hpos hreads]
  exact Binary64.ofFloat_pack hcanonical .positive hpos

end Scientific

/-! ### Integers -/

theorem mantissa_shiftRight_le (em : ExtendedMantissa) (n : Nat) :
    (em >>> n).mantissa ≤ em.mantissa := by
  induction n with
  | zero => exact le_refl _
  | succ n ih => exact (Nat.div_le_self _ 2).trans ih

theorem roundedMantissa_le (em : ExtendedMantissa) : em.roundedMantissa ≤ em.mantissa + 1 := by
  obtain ⟨m, round, sticky⟩ := em
  cases round <;> cases sticky <;>
    simp only [ExtendedMantissa.roundedMantissa, ExtendedMantissa.accuracy,
      Accuracy.roundToNearestEven] <;>
    omega

theorem isFinite_pack {s : Sign} {m : Nat} {e : Int} {hm : 0 < m} (he : e ≤ 971) :
    (Float.ofModel (Float.Model.pack (.finite s m e hm))).isFinite = true := by
  -- whatever is packed, its exponent is not all ones
  have hparts : ∃ exponent mantissa, exponent.toNat ≠ 2047 ∧
      UnpackedFloat.pack Format.binary64 (.finite s m e hm) =
        packComponents Format.binary64 s exponent mantissa := by
    rw [pack_finite, if_neg (by omega)]
    split
    · refine ⟨_, _, ?_, rfl⟩
      rw [BitVec.toNat_ofNat]
      norm_num
      omega
    · exact ⟨_, _, by decide, rfl⟩
  obtain ⟨exponent, mantissa, hne, hpack⟩ := hparts
  have hbits : (Float.ofModel (Float.Model.pack (.finite s m e hm))).toBits.toNat =
      Binary64.signBit (isNegative s) + exponent.toNat * 0x10000000000000 + mantissa.toNat :=
    (congrArg BitVec.toNat hpack).trans (toNat_packComponents s exponent mantissa)
  have hexponent : exponent.toNat < 2 ^ 11 := exponent.isLt
  have hmantissa : mantissa.toNat < 2 ^ 52 := mantissa.isLt
  refine Binary64.isFinite_of_bits ?_
  rw [hbits]
  cases s with
  | negative =>
    change (0x8000000000000000 + _ + _) / _ % _ ≠ _
    omega
  | positive =>
    change (0 + _ + _) / _ % _ ≠ _
    omega

/-- Rounding an integer of 64 bits does not raise its exponent much. -/
theorem isFinite_roundWithAccuracy (s : Sign) {m : Nat} {e : Int} (hm : m < 0x10000000000000000)
    (he : e ≤ 0) :
    (Float.ofModel (Float.Model.pack (roundWithAccuracy Format.binary64 s m e .exact))).isFinite =
      true := by
  have hlog : m.log2 < 64 := by
    by_cases hzero : m = 0
    · subst hzero
      decide
    · exact (Nat.log2_lt hzero).2 hm
  have hmantissa := mantissa_shiftRight_le (.ofMantissaAndAccuracy m .exact)
    (max (m.log2 + e - 52) (-1074) - e).toNat
  change _ ≤ m at hmantissa
  have hrounded := roundedMantissa_le (ExtendedMantissa.ofMantissaAndAccuracy m .exact >>>
    (max (m.log2 + e - 52) (-1074) - e).toNat)
  obtain ⟨r, hr⟩ : ∃ r, (ExtendedMantissa.ofMantissaAndAccuracy m .exact >>>
    (max (m.log2 + e - 52) (-1074) - e).toNat).roundedMantissa = r := ⟨_, rfl⟩
  rw [hr] at hrounded
  have hlog' : r.log2 ≤ 64 := by
    by_cases hzero : r = 0
    · subst hzero
      decide
    · have := (Nat.log2_lt hzero).2 (show r < 2 ^ 65 by omega)
      omega
  obtain hzero | ⟨hpos, hround⟩ := roundWithAccuracy_cases s
    (by rw [shiftToTargetExponent_eq .exact rfl, hr]) (shiftToTargetExponent_eq .exact rfl)
  · rw [hzero]
    cases s <;> decide
  · rw [hround]
    exact isFinite_pack (by omega)

/-- No integer of 64 bits is too great for a double. -/
theorem floatOfInt_isFinite (n : Int) : (floatOfInt n).isFinite = true := by
  have hnat : ∀ k : UInt64, k.toFloat.isFinite = true := by
    intro k
    have hlt : k.toNat < 0x10000000000000000 := k.toNat_lt
    change (Float.ofModel
      (Float.Model.pack (UnpackedFloat.ofNat Format.binary64 k.toNat))).isFinite = true
    generalize k.toNat = j at hlt ⊢
    by_cases hzero : j = 0
    · subst hzero
      decide
    · rw [ofNat_eq_round (by omega)]
      simp only [UnpackedFloat.round, decreaseExponent]
      refine isFinite_roundWithAccuracy _ ?_ (by omega)
      have hshift : (0 - Format.binary64.targetExponent (totalExponent j 0)).toNat =
          52 - j.log2 := by
        rw [targetExponent_eq, totalExponent]
        omega
      rw [hshift, Nat.shiftLeft_eq]
      by_cases hlog : 52 ≤ j.log2
      · simpa [Nat.sub_eq_zero_of_le hlog] using hlt
      · calc j * 2 ^ (52 - j.log2) ≤ 2 ^ (j.log2 + 1) * 2 ^ (52 - j.log2) :=
              Nat.mul_le_mul Nat.lt_log2_self.le (le_refl _)
          _ = 2 ^ 53 := by rw [← Nat.pow_add, show j.log2 + 1 + (52 - j.log2) = 53 by omega]
          _ < 0x10000000000000000 := by decide
  unfold floatOfInt
  split
  · obtain ⟨negative, m, e, hread⟩ := Binary64.ofFloat_eq_finite.2 (hnat (UInt64.ofNat n.natAbs))
    exact Binary64.ofFloat_eq_finite.1 ⟨_, _, _, Binary64.ofFloat_neg hread⟩
  · exact hnat _

/-! ### Numbers without a sign -/

variable {u : UnpackedFloat} {cs : List Char} {x : Float}

/-- Only what is no number is packed into what is no number. -/
theorem isNaN_pack (hu : u ≠ .notANumber) : (Float.ofModel (Float.Model.pack u)).isNaN = false := by
  cases u with
  | notANumber => exact absurd rfl hu
  | infinity s => cases s <;> decide
  | zero s => cases s <;> decide
  | finite s m e hm =>
    by_cases he : e ≤ 971
    · have hfinite : (Float.ofModel (Float.Model.pack (.finite s m e hm))).isFinite = true :=
        isFinite_pack he
      obtain ⟨negative, m', e', hread⟩ := Binary64.ofFloat_eq_finite.2 hfinite
      refine Bool.eq_false_iff.2 fun hnan => ?_
      rw [Binary64.ofFloat_eq_nan.2 hnan] at hread
      cases hread
    · -- the exponent overflows
      change (UnpackedFloat.unpack Format.binary64
        (UnpackedFloat.pack Format.binary64 (.finite s m e hm))).isNaN = false
      rw [pack_finite, if_pos (by omega)]
      cases s <;> decide

/-- A number without a minus sign. -/
def IsPositive : UnpackedFloat → Prop
  | .notANumber => False
  | .infinity s => s = .positive
  | .zero s => s = .positive
  | .finite s _ _ _ => s = .positive

/-- A number without a minus sign is packed with a sign bit of zero. -/
theorem toBits_pack_lt (hu : IsPositive u) :
    (Float.ofModel (Float.Model.pack u)).toBits.toNat < 0x8000000000000000 := by
  cases u with
  | notANumber => exact hu.elim
  | infinity s =>
    obtain rfl : s = .positive := hu
    decide
  | zero s =>
    obtain rfl : s = .positive := hu
    decide
  | finite s m e hm =>
    obtain rfl : s = .positive := hu
    -- whatever the size of the number, it is packed from three components
    have hparts : ∃ exponent mantissa,
        UnpackedFloat.pack Format.binary64 (.finite .positive m e hm) =
        packComponents Format.binary64 .positive exponent mantissa := by
      rw [pack_finite]
      split
      · exact ⟨_, _, rfl⟩
      · split
        · exact ⟨_, _, rfl⟩
        · exact ⟨_, _, rfl⟩
    obtain ⟨exponent, mantissa, hpack⟩ := hparts
    have hbits : (Float.ofModel (Float.Model.pack (.finite .positive m e hm))).toBits.toNat =
        0 + exponent.toNat * 0x10000000000000 + mantissa.toNat :=
      (congrArg BitVec.toNat hpack).trans (toNat_packComponents .positive exponent mantissa)
    have hexponent : exponent.toNat < 2 ^ 11 := exponent.isLt
    have hmantissa : mantissa.toNat < 2 ^ 52 := mantissa.isLt
    omega

theorem isPositive_round (m : Nat) (e : Int) (accuracy : Accuracy) :
    IsPositive (roundWithAccuracy Format.binary64 .positive m e accuracy) := by
  obtain hzero | ⟨_, hround⟩ := roundWithAccuracy_cases .positive rfl rfl
  · rw [hzero]
    rfl
  · rw [hround]
    rfl

theorem IsDouble.isPositive_mul {v w : ℚ} {u' : UnpackedFloat} (hu : IsDouble v u)
    (hu' : IsDouble w u') :
    IsPositive (UnpackedFloat.mul Format.binary64 u u') := by
  obtain ⟨m₁, e₁, hm₁, rfl, -⟩ := hu
  obtain ⟨m₂, e₂, hm₂, rfl, -⟩ := hu'
  exact isPositive_round _ _ _

theorem IsDouble.isPositive_div {v w : ℚ} {u' : UnpackedFloat} (hu : IsDouble v u)
    (hu' : IsDouble w u') :
    IsPositive (UnpackedFloat.div Format.binary64 u u') := by
  obtain ⟨m₁, e₁, hm₁, rfl, -⟩ := hu
  obtain ⟨m₂, e₂, hm₂, rfl, -⟩ := hu'
  exact isPositive_round _ _ _

theorem isPositive_ofScientific (n : Nat) (k : Int) :
    IsPositive (UnpackedFloat.ofScientific Format.binary64 n k) := by
  rw [UnpackedFloat.ofScientific]
  by_cases hzero : n = 0
  · rw [dif_pos hzero]
    rfl
  by_cases hlarge : k > 2 ^ Format.binary64.exponentBits
  · rw [dif_neg hzero, if_pos hlarge]
    rfl
  by_cases hsmall : k < -(2 ^ Format.binary64.exponentBits + n.log2)
  · rw [dif_neg hzero, if_neg hlarge, if_pos hsmall]
    rfl
  rw [dif_neg hzero, if_neg hlarge, if_neg hsmall]
  by_cases hk : 0 ≤ k
  · rw [if_pos hk]
    exact isPositive_round _ _ _
  · rw [if_neg hk]
    exact isPositive_round _ _ _

/-- **A decimal number is read as a number without a minus sign.** -/
theorem floatOfDigits_eq_pack (n : Nat) (k : Int) :
    ∃ u, IsPositive u ∧ floatOfDigits n k = Float.ofModel (Float.Model.pack u) := by
  unfold floatOfDigits
  simp only
  split
  · exact ⟨.zero .positive, rfl, Binary64.ofFloat_injective (by decide)⟩
  rename_i hn
  split
  · exact ⟨.infinity .positive, rfl, Binary64.ofFloat_injective (by decide)⟩
  have hpos : 0 < n := by omega
  unfold Float.ofScientific
  split
  · rename_i hfast
    have hdigits := isDouble_toFloat hpos hfast.1
    have hten := isDouble_powerOfTen ⟨k.natAbs, by omega⟩
    split
    · exact ⟨_, hdigits.isPositive_div hten, rfl⟩
    · exact ⟨_, hdigits.isPositive_mul hten, rfl⟩
  · exact ⟨_, isPositive_ofScientific _ _, rfl⟩

/-- Digits with a point are read as the double of a decimal number. -/
theorem exists_digits_of_readMagnitude? (h : readMagnitude? cs = some x) :
    ∃ n k, x = floatOfDigits n k := by
  unfold readMagnitude? at h
  simp only at h
  split at h <;> split at h
  · cases h
  · obtain ⟨e, -, rfl⟩ := Option.map_eq_some_iff.1 h
    exact ⟨_, _, rfl⟩
  · cases h
  · obtain ⟨e, -, rfl⟩ := Option.map_eq_some_iff.1 h
    exact ⟨_, _, rfl⟩

/-- Digits with a point are never read as what is no number. -/
theorem isNaN_of_readMagnitude? (h : readMagnitude? cs = some x) : x.isNaN = false := by
  obtain ⟨n, k, rfl⟩ := exists_digits_of_readMagnitude? h
  obtain ⟨u, hu, heq⟩ := floatOfDigits_eq_pack n k
  rw [heq]
  refine isNaN_pack ?_
  rintro rfl
  exact hu

/-- A finite number that is read from digits has no minus sign. -/
theorem ofFloat_of_readMagnitude? (h : readMagnitude? cs = some x) (hfinite : x.isFinite = true) :
    ∃ m e, Binary64.ofFloat x = .finite false m e := by
  obtain ⟨n, k, rfl⟩ := exists_digits_of_readMagnitude? h
  obtain ⟨u, hu, heq⟩ := floatOfDigits_eq_pack n k
  have hsign : (floatOfDigits n k).toBits.toNat < 0x8000000000000000 := by
    rw [heq]
    exact toBits_pack_lt hu
  obtain ⟨negative, m, e, hread⟩ := Binary64.ofFloat_eq_finite.2 hfinite
  obtain rfl : negative = false := by
    unfold Binary64.ofFloat at hread
    simp only [decide_eq_false (Nat.not_le.2 hsign)] at hread
    split at hread
    · split at hread <;> exact absurd hread (by simp)
    · split at hread
      · exact (Binary64.finite.inj hread).1.symm
      · exact (Binary64.finite.inj hread).1.symm
  exact ⟨m, e, hread⟩

end BindScript.Decimal
