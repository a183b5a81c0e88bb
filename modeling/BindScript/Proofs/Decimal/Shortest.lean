/-
**The shortest digits read back.**

The comparisons on a grid of decimal numbers are made between natural numbers.  Divided by a common
factor they compare a decimal number with the ends of the interval of numbers that are rounded to
the double.  With seventeen digits the grid is finer than that interval, so the search ends.

Main results:

* `Decimal.shortest_readsAs` — **the shortest digits denote a number that is rounded to the
  double**.
-/

import BindScript.Proofs.Decimal.Nearest

namespace BindScript.Decimal

/-! ### Grids -/

/-- The size of a quarter of the last binary place, in natural numbers. -/
def gridScale (e unit : Int) : Nat := Nat.pow 2 (e - 2).toNat * Nat.pow 10 (-unit).toNat

/-- The size of a decimal unit, in the same measure. -/
def gridUnit (e unit : Int) : Nat := Nat.pow 2 (2 - e).toNat * Nat.pow 10 unit.toNat

section Grid

variable {tie : Tie} {m : Nat} {e unit : Int}

theorem zpow_mul_pow_toNat {b : ℚ} (hb : b ≠ 0) (k : Int) :
    b ^ k * b ^ (-k).toNat = b ^ k.toNat := by
  rw [← zpow_natCast, ← zpow_natCast, ← zpow_add₀ hb]
  congr 1
  omega

theorem exists_gridFactor (e unit : Int) : ∃ c : ℚ, 0 < c ∧
    (gridScale e unit : ℚ) = 2 ^ (e - 2) * c ∧ (gridUnit e unit : ℚ) = 10 ^ unit * c := by
  refine ⟨2 ^ (2 - e).toNat * 10 ^ (-unit).toNat, by positivity, ?_, ?_⟩
  · have htwo := zpow_mul_pow_toNat (two_ne_zero (α := ℚ)) (e - 2)
    rw [neg_sub] at htwo
    rw [← mul_assoc, htwo]
    simp [gridScale]
  · have hten := zpow_mul_pow_toNat (show (10 : ℚ) ≠ 0 by norm_num) unit
    rw [mul_left_comm, hten]
    simp [gridUnit]

theorem grid_lt {a b : Nat} :
    a * gridScale e unit < b * gridUnit e unit ↔ (a : ℚ) * 2 ^ (e - 2) < b * 10 ^ unit := by
  obtain ⟨c, hc, hscale, hunit⟩ := exists_gridFactor e unit
  rw [← Nat.cast_lt (α := ℚ), Nat.cast_mul, Nat.cast_mul, hscale, hunit, ← mul_assoc, ← mul_assoc,
    mul_lt_mul_iff_left₀ hc]

theorem grid_gt {a b : Nat} :
    b * gridUnit e unit < a * gridScale e unit ↔ (b : ℚ) * 10 ^ unit < a * 2 ^ (e - 2) := by
  obtain ⟨c, hc, hscale, hunit⟩ := exists_gridFactor e unit
  rw [← Nat.cast_lt (α := ℚ), Nat.cast_mul, Nat.cast_mul, hscale, hunit, ← mul_assoc, ← mul_assoc,
    mul_lt_mul_iff_left₀ hc]

theorem gapBelow_cases (m : Nat) (e : Int) :
    gapBelow m e = 2 ∨ gapBelow m e = 1 ∧ m = 0x10000000000000 := by
  unfold gapBelow
  split
  · rename_i h
    exact .inr ⟨rfl, h.1⟩
  · exact .inl rfl

/-- The interval of numbers that are rounded to a double, in natural numbers. -/
theorem readsAs_of_grid (hm : 0 < m) {n : Nat}
    (hlow : (4 * m - gapBelow m e) * gridScale e unit ≤ n * gridUnit e unit)
    (hhigh : n * gridUnit e unit ≤ (4 * m + 2) * gridScale e unit)
    (hodd : m % 2 = 1 → (4 * m - gapBelow m e) * gridScale e unit < n * gridUnit e unit ∧
      n * gridUnit e unit < (4 * m + 2) * gridScale e unit) :
    ReadsAs m e (n * 10 ^ unit) := by
  have hgap : gapBelow m e ≤ 4 * m := by
    rcases gapBelow_cases m e with h | ⟨h, -⟩ <;> omega
  have hcast : ((4 * m - gapBelow m e : Nat) : ℚ) = 4 * m - gapBelow m e := by
    rw [Nat.cast_sub hgap]
    push_cast
    ring
  have hcast' : ((4 * m + 2 : Nat) : ℚ) = 4 * m + 2 := by push_cast; ring
  refine ⟨⟨?_, ?_⟩, fun hm => ⟨?_, ?_⟩⟩
  · rw [← hcast]
    exact le_of_not_gt fun hlt => absurd (grid_gt.2 hlt) (by omega)
  · rw [← hcast']
    exact le_of_not_gt fun hlt => absurd (grid_lt.2 hlt) (by omega)
  · rw [← hcast]
    exact grid_lt.1 (hodd hm).1
  · rw [← hcast']
    exact grid_gt.1 (hodd hm).2

theorem pick_cases {α : Type} {lower upper prefers : Prop} [Decidable lower] [Decidable upper]
    [Decidable prefers] (a b : α) :
    let picked := if lower ∧ (prefers ∨ ¬upper) then some a else if upper then some b else none
    (picked = some a ∧ lower) ∨ (picked = some b ∧ upper) ∨ (picked = none ∧ ¬lower ∧ ¬upper) := by
  by_cases hl : lower <;> by_cases hu : upper <;> by_cases hp : prefers <;> simp [hl, hu, hp]

/-- The two neighbours on a grid: the lower one fits and is taken, the upper one fits and is taken,
or none fits. -/
theorem onGrid?_cases (tie : Tie) (gap m : Nat) (e unit : Int) :
    let floor := 4 * m * gridScale e unit / gridUnit e unit
    let low := (4 * m - gap) * gridScale e unit
    let high := (4 * m + 2) * gridScale e unit
    let lower := low < floor * gridUnit e unit ∨ m % 2 = 0 ∧ low = floor * gridUnit e unit
    let upper := (floor + 1) * gridUnit e unit < high ∨ m % 2 = 0 ∧
      (floor + 1) * gridUnit e unit = high
    (onGrid? tie gap m e unit = some ⟨floor, unit⟩ ∧ lower) ∨
      (onGrid? tie gap m e unit = some ⟨floor + 1, unit⟩ ∧ upper) ∨
      (onGrid? tie gap m e unit = none ∧ ¬lower ∧ ¬upper) :=
  pick_cases _ _

theorem onGrid?_readsAs (hm : 0 < m) {d : Digits}
    (hd : onGrid? tie (gapBelow m e) m e unit = some d) :
    ReadsAs m e (d.digits * 10 ^ d.exponent) := by
  have hunit : 0 < gridUnit e unit := Nat.mul_pos (Nat.pow_pos two_pos) (Nat.pow_pos (by decide))
  have hscale : 0 < gridScale e unit := Nat.mul_pos (Nat.pow_pos two_pos) (Nat.pow_pos (by decide))
  have hgap : 0 < gapBelow m e := by
    rcases gapBelow_cases m e with h | ⟨h, -⟩ <;> omega
  have hlow : (4 * m - gapBelow m e) * gridScale e unit < 4 * m * gridScale e unit :=
    Nat.mul_lt_mul_of_pos_right (by omega) hscale
  have hhigh : 4 * m * gridScale e unit < (4 * m + 2) * gridScale e unit :=
    Nat.mul_lt_mul_of_pos_right (by omega) hscale
  have hfloor := Nat.div_mul_le_self (4 * m * gridScale e unit) (gridUnit e unit)
  have hnext := Nat.lt_div_mul_add hunit (a := 4 * m * gridScale e unit)
  rw [← Nat.succ_mul] at hnext
  rcases onGrid?_cases tie (gapBelow m e) m e unit with ⟨heq, hfits⟩ | ⟨heq, hfits⟩ | ⟨heq, -⟩
  · obtain rfl : _ = d := Option.some.inj (heq.symm.trans hd)
    refine readsAs_of_grid hm ?_ (hfloor.trans hhigh.le) fun hodd => ⟨?_, hfloor.trans_lt hhigh⟩
    · rcases hfits with h | ⟨-, h⟩
      · exact h.le
      · exact h.le
    · rcases hfits with h | ⟨heven, -⟩
      · exact h
      · omega
  · obtain rfl : _ = d := Option.some.inj (heq.symm.trans hd)
    refine readsAs_of_grid hm (hlow.trans hnext).le ?_ fun hodd => ⟨hlow.trans hnext, ?_⟩
    · rcases hfits with h | ⟨-, h⟩
      · exact h.le
      · exact h.le
    · rcases hfits with h | ⟨heven, -⟩
      · exact h
      · omega
  · exact absurd (heq.symm.trans hd) (by simp)

/-- On a grid that is finer than the interval there is a number that fits. -/
theorem onGrid?_isSome (hm : 0 < m) (hfine : (10 : ℚ) ^ unit < (gapBelow m e + 2) * 2 ^ (e - 2)) :
    (onGrid? tie (gapBelow m e) m e unit).isSome = true := by
  have hgap : gapBelow m e ≤ 4 * m := by
    rcases gapBelow_cases m e with h | ⟨h, -⟩ <;> omega
  have hfine' : 1 * gridUnit e unit < (gapBelow m e + 2) * gridScale e unit := by
    apply grid_gt.2
    push_cast
    linarith
  rcases onGrid?_cases tie (gapBelow m e) m e unit with ⟨heq, -⟩ | ⟨heq, -⟩ | ⟨-, hlower, hupper⟩
  · rw [heq]
    rfl
  · rw [heq]
    rfl
  · -- the interval lies between two neighbours, so it is shorter than the unit
    simp only [not_or, not_lt] at hlower hupper
    have hwide : (4 * m - gapBelow m e) * gridScale e unit + (gapBelow m e + 2) * gridScale e unit =
        (4 * m + 2) * gridScale e unit := by
      rw [← Nat.add_mul]
      congr 1
      omega
    have hsucc := Nat.succ_mul (4 * m * gridScale e unit / gridUnit e unit) (gridUnit e unit)
    rw [Nat.succ_eq_add_one] at hsucc
    omega

end Grid

/-! ### The search -/

section Search

variable {tie : Tie} {m : Nat} {e top : Int}

theorem shortestFrom_readsAs (hm : 0 < m) {fuel count : Nat} {d : Digits}
    (hd : shortestFrom tie (gapBelow m e) m e top fuel count = some d) :
    ReadsAs m e (d.digits * 10 ^ d.exponent) := by
  induction fuel generalizing count with
  | zero => simp [shortestFrom] at hd
  | succ fuel ih =>
    rw [shortestFrom] at hd
    split at hd
    · rename_i heq
      cases hd
      exact onGrid?_readsAs hm heq
    · exact ih hd

/-- Something is found if there is something on one of the grids. -/
theorem shortestFrom_isSome {gap : Nat} {fuel count i : Nat} (hi : i < fuel)
    (h : (onGrid? tie gap m e (top - (count + i : Nat))).isSome = true) :
    (shortestFrom tie gap m e top fuel count).isSome = true := by
  induction fuel generalizing count i with
  | zero => omega
  | succ fuel ih =>
    rw [shortestFrom]
    split
    · rfl
    · rename_i heq
      cases i with
      | zero =>
        rw [Nat.add_zero, heq] at h
        cases h
      | succ i =>
        refine ih (i := i) (by omega) ?_
        rwa [show count + 1 + i = count + (i + 1) by omega]

theorem two_pow_le_ten_pow {j k : Nat} (h : j ≤ 3 * k) : Nat.pow 2 j ≤ Nat.pow 10 k :=
  calc 2 ^ j ≤ 2 ^ (3 * k) := Nat.pow_le_pow_right two_pos h
    _ = 8 ^ k := Nat.pow_mul 2 3 k
    _ ≤ 10 ^ k := Nat.pow_le_pow_left (by decide) k

/-- The first digit of a number stands where its magnitude says, or before. -/
theorem pow_magnitude_le (hcanonical : Canonical m e) (hm : 0 < m) :
    (10 : ℚ) ^ (magnitude m e - 1) ≤ m * 2 ^ e := by
  have hleast := hcanonical.least
  have hden : 0 < Nat.pow 2 (-e).toNat := Nat.pow_pos two_pos
  obtain ⟨scaled, hscaled⟩ : ∃ scaled,
      m * Nat.pow 2 e.toNat * Nat.pow 10 400 / Nat.pow 2 (-e).toNat = scaled := ⟨_, rfl⟩
  -- scaled by `10 ^ 400` the number is at least one
  have hpos : 0 < scaled := by
    have hbig : Nat.pow 2 (-e).toNat ≤ m * Nat.pow 2 e.toNat * Nat.pow 10 400 :=
      calc Nat.pow 2 (-e).toNat ≤ Nat.pow 10 400 := @two_pow_le_ten_pow _ 400 (by omega)
        _ ≤ m * Nat.pow 2 e.toNat * Nat.pow 10 400 :=
          Nat.le_mul_of_pos_left _ (Nat.mul_pos hm (Nat.pow_pos two_pos))
    rw [← hscaled]
    exact Nat.div_pos hbig hden
  obtain ⟨hdigits, -, hlen⟩ := length_digitsOf_bounds hpos
  have hle : (scaled : ℚ) ≤ m * 2 ^ e * 10 ^ (400 : Int) := by
    have hmul : scaled * Nat.pow 2 (-e).toNat ≤ m * Nat.pow 2 e.toNat * Nat.pow 10 400 := by
      rw [← hscaled]
      exact Nat.div_mul_le_self _ _
    have hmul' : (scaled : ℚ) * 2 ^ (-e).toNat ≤ m * 2 ^ e.toNat * 10 ^ 400 := by
      exact_mod_cast hmul
    have htwo := zpow_mul_pow_toNat (two_ne_zero (α := ℚ)) e
    refine le_of_mul_le_mul_right (hmul'.trans_eq ?_) (show (0 : ℚ) < 2 ^ (-e).toNat by positivity)
    rw [← htwo]
    norm_cast
    ring
  have hexp : magnitude m e - 1 = ((digitsOf scaled).length - 1 : Nat) - (400 : Int) := by
    simp only [magnitude, hscaled]
    omega
  rw [hexp, zpow_sub₀ (by norm_num), zpow_natCast, div_le_iff₀ (by positivity)]
  exact le_trans (by exact_mod_cast hdigits) hle

/-- With seventeen digits the grid is finer than the interval. -/
theorem seventeen_digits (hcanonical : Canonical m e) (hm : 0 < m) :
    (10 : ℚ) ^ (magnitude m e - 17) < (gapBelow m e + 2) * 2 ^ (e - 2) := by
  have hplace := pow_magnitude_le hcanonical hm
  have hmantissa : (m : ℚ) < 0x20000000000000 := by exact_mod_cast hcanonical.mantissa
  have hpos : (0 : ℚ) < 2 ^ (e - 2) := zpow_pos two_pos _
  have hval : (m : ℚ) * 2 ^ e = 4 * m * 2 ^ (e - 2) := by
    rw [zpow_sub₀ two_ne_zero]
    norm_num
    ring
  have hgap : 4 * (m : ℚ) / 10 ^ 16 < gapBelow m e + 2 := by
    rcases gapBelow_cases m e with h | ⟨h, hpower⟩
    · rw [h]
      norm_num
      linarith
    · rw [h, hpower]
      norm_num
  calc (10 : ℚ) ^ (magnitude m e - 17) = 10 ^ (magnitude m e - 1) / 10 ^ 16 := by
        rw [show magnitude m e - 17 = magnitude m e - 1 - (16 : Nat) by push_cast; ring,
          zpow_sub₀ (by norm_num), zpow_natCast]
    _ ≤ m * 2 ^ e / 10 ^ 16 := by gcongr
    _ = 4 * m / 10 ^ 16 * 2 ^ (e - 2) := by rw [hval]; ring
    _ < (gapBelow m e + 2) * 2 ^ (e - 2) := mul_lt_mul_of_pos_right hgap hpos

theorem Digits.stripZeros_value (fuel : Nat) (d : Digits) (hd : 0 < d.digits) :
    0 < (d.stripZeros fuel).digits ∧
      ((d.stripZeros fuel).digits : ℚ) * 10 ^ (d.stripZeros fuel).exponent =
        d.digits * 10 ^ d.exponent := by
  induction fuel generalizing d with
  | zero => exact ⟨hd, rfl⟩
  | succ fuel ih =>
    rw [stripZeros]
    split
    · rename_i hzero
      obtain ⟨q, hq⟩ : ∃ q, d.digits = 10 * q := ⟨d.digits / 10, by omega⟩
      have hdiv : d.digits / 10 = q := by omega
      obtain ⟨hpos, hval⟩ := ih ⟨d.digits / 10, d.exponent + 1⟩ (by change 0 < d.digits / 10; omega)
      refine ⟨hpos, hval.trans ?_⟩
      simp only [hdiv]
      rw [hq, zpow_add₀ (by norm_num)]
      push_cast
      ring
    · exact ⟨hd, rfl⟩

/-- **The shortest digits denote a number that is rounded to the double.** -/
theorem shortest_readsAs (tie : Tie) (hcanonical : Canonical m e) (hm : 0 < m) :
    0 < (shortest tie m e).digits ∧
      ReadsAs m e ((shortest tie m e).digits * 10 ^ (shortest tie m e).exponent) := by
  have hsome : (shortestFrom tie (gapBelow m e) m e (magnitude m e) 17 1).isSome = true :=
    shortestFrom_isSome (i := 16) (by decide) (onGrid?_isSome hm (seventeen_digits hcanonical hm))
  obtain ⟨d, hd⟩ := Option.isSome_iff_exists.1 hsome
  have hreads := shortestFrom_readsAs hm hd
  have hdigits : 0 < d.digits := by
    -- zero is below the interval
    have hgap := gapBelow_le m e
    have hm' : (1 : ℚ) ≤ m := by exact_mod_cast hm
    have hlow : (0 : ℚ) < (4 * m - gapBelow m e) * 2 ^ (e - 2) :=
      mul_pos (by linarith) (zpow_pos two_pos _)
    refine Nat.pos_of_ne_zero fun hzero => ?_
    have hle := hreads.within.1
    rw [hzero] at hle
    norm_num at hle
    linarith
  have hshortest : shortest tie m e = d.stripZeros 20 := by
    change ((shortestFrom tie (gapBelow m e) m e (magnitude m e) 17 1).getD
      ⟨m, 0⟩).stripZeros 20 = _
    rw [hd]
    rfl
  obtain ⟨hpos, hval⟩ := d.stripZeros_value 20 hdigits
  rw [hshortest]
  exact ⟨hpos, hval ▸ hreads⟩

end Search

end BindScript.Decimal
