/-
**Doubles and their readings.**

The reading of a double as an exact dyadic number is taken off its bits, while the operations on
doubles unpack them first.  Both say the same, so a double is known by its reading, and a dyadic
number in canonical form is the reading of the double that it is packed into.

Main results:

* `Decimal.Binary64.ofFloat_injective` — **a double is known by its reading**.
-/

import BindScript.Decimal.Binary64
import Mathlib.Tactic.NormNum

namespace BindScript.Decimal

open Float.Model Float.Model.UnpackedFloat

/-! ### The three parts of the bits -/

section Parts

variable (b : BitVec Format.binary64.numBits)

theorem toNat_unpackMantissa : (unpackMantissa b).toNat = b.toNat % 0x10000000000000 := by
  simp [unpackMantissa]

theorem toNat_unpackExponent : (unpackExponent b).toNat = b.toNat / 0x10000000000000 % 0x800 := by
  simp [unpackExponent, Nat.shiftRight_eq_div_pow]

theorem toNat_unpackSign : (unpackSign b).toNat = b.toNat / 0x8000000000000000 := by
  have hlt : b.toNat < 0x10000000000000000 := b.isLt
  change (BitVec.extractLsb 63 63 b).toNat = _
  rw [BitVec.extractLsb_toNat, Nat.shiftRight_eq_div_pow]
  omega

/-- The mantissa of a normal number has one more bit in front. -/
theorem toNat_one_append :
    (1#1 ++ unpackMantissa b).toNat = 0x10000000000000 + b.toNat % 0x10000000000000 := by
  have hlt : b.toNat % 0x10000000000000 < 2 ^ 52 := Nat.mod_lt _ (by decide)
  rw [BitVec.toNat_append, toNat_unpackMantissa]
  change 1 <<< 52 ||| _ = _
  rw [← Nat.shiftLeft_add_eq_or_of_lt hlt]
  rfl

theorem unpackMantissa_eq_zero : unpackMantissa b = 0#_ ↔ b.toNat % 0x10000000000000 = 0 := by
  rw [← BitVec.toNat_inj, toNat_unpackMantissa]
  rfl

theorem unpackExponent_eq_zero :
    unpackExponent b = 0#_ ↔ b.toNat / 0x10000000000000 % 0x800 = 0 := by
  rw [← BitVec.toNat_inj, toNat_unpackExponent]
  rfl

theorem unpackExponent_eq_ones :
    unpackExponent b = -1#_ ↔ b.toNat / 0x10000000000000 % 0x800 = 2047 := by
  rw [← BitVec.toNat_inj, toNat_unpackExponent]
  rfl

end Parts

def isNegative : Sign → Bool
  | .negative => true
  | .positive => false

theorem isNegative_ofBitVec (b : BitVec Format.binary64.numBits) :
    isNegative (Sign.ofBitVec (unpackSign b)) = decide (0x8000000000000000 ≤ b.toNat) := by
  have hsign := toNat_unpackSign b
  by_cases hb : 0x8000000000000000 ≤ b.toNat
  · have hne : unpackSign b ≠ 0#1 := by
      intro heq
      rw [heq] at hsign
      change 0 = _ at hsign
      omega
    simp [Sign.ofBitVec, hne, isNegative, hb]
  · have heq : unpackSign b = 0#1 := by
      apply BitVec.eq_of_toNat_eq
      rw [hsign]
      change _ = 0
      omega
    simp [Sign.ofBitVec, heq, isNegative, hb]

variable {x : Float} {negative : Bool} {m : Nat} {e : Int}

namespace Binary64

/-- What an unpacked double stands for. -/
def ofUnpacked : UnpackedFloat → Binary64
  | .notANumber => .nan
  | .infinity s => .infinite (isNegative s)
  | .zero s => .finite (isNegative s) 0 (-1074)
  | .finite s m e _ => .finite (isNegative s) m e

section Readings

variable (s : Sign)

@[simp] theorem ofUnpacked_notANumber : ofUnpacked .notANumber = .nan := rfl

@[simp] theorem ofUnpacked_infinity : ofUnpacked (.infinity s) = .infinite (isNegative s) := rfl

@[simp] theorem ofUnpacked_zero : ofUnpacked (.zero s) = .finite (isNegative s) 0 (-1074) := rfl

@[simp] theorem ofUnpacked_finite (m : Nat) (e : Int) (hm : 0 < m) :
    ofUnpacked (.finite s m e hm) = .finite (isNegative s) m e := rfl

end Readings

/-- **The reading of the bits is the reading of the unpacked double.** -/
theorem ofFloat_eq (x : Float) : ofFloat x = ofUnpacked x.toModel.unpack := by
  have hbits : x.toBits.toNat = x.toModel.toBits.toBitVec.toNat := rfl
  have hbias : (Format.exponentBias Format.binary64 : Int) = 1023 := rfl
  unfold ofFloat Float.Model.unpack
  rw [hbits]
  generalize x.toModel.toBits.toBitVec = b
  change _ = ofUnpacked (ite _ _ _)
  have hsign := isNegative_ofBitVec b
  -- an exponent of ones is not finite, and one of zeros has no hidden bit
  by_cases hones : b.toNat / 0x10000000000000 % 0x800 = 2047
  · rw [if_pos hones, if_pos ((unpackExponent_eq_ones b).2 hones)]
    by_cases hzero : b.toNat % 0x10000000000000 = 0
    · rw [if_pos hzero, if_pos ((unpackMantissa_eq_zero b).2 hzero)]
      rw [ofUnpacked_infinity, hsign]
    · rw [if_neg hzero, if_neg fun h => hzero ((unpackMantissa_eq_zero b).1 h)]
      rfl
  rw [if_neg hones, if_neg fun h => hones ((unpackExponent_eq_ones b).1 h)]
  by_cases hsmall : b.toNat / 0x10000000000000 % 0x800 = 0
  · rw [if_pos hsmall, if_pos ((unpackExponent_eq_zero b).2 hsmall)]
    by_cases hzero : b.toNat % 0x10000000000000 = 0
    · rw [dif_pos ((unpackMantissa_eq_zero b).2 hzero)]
      rw [ofUnpacked_zero, hsign, hzero]
    · rw [dif_neg fun h => hzero ((unpackMantissa_eq_zero b).1 h)]
      rw [ofUnpacked_finite, hsign, toNat_unpackMantissa, toNat_unpackExponent, hsmall, hbias]
      rfl
  · rw [if_neg hsmall, if_neg fun h => hsmall ((unpackExponent_eq_zero b).1 h)]
    rw [ofUnpacked_finite, hsign, toNat_one_append, toNat_unpackExponent, hbias]
    rfl

theorem ofFloat_eq_nan : ofFloat x = .nan ↔ x.isNaN = true := by
  rw [ofFloat_eq]
  change _ ↔ x.toModel.unpack.isNaN = true
  cases x.toModel.unpack with
  | notANumber => exact iff_of_true rfl rfl
  | infinity | zero | finite => exact iff_of_false nofun nofun

theorem ofFloat_eq_finite :
    (∃ negative m e, ofFloat x = .finite negative m e) ↔ x.isFinite = true := by
  rw [ofFloat_eq]
  change _ ↔ x.toModel.unpack.isFinite = true
  cases x.toModel.unpack with
  | zero | finite => exact iff_of_true ⟨_, _, _, rfl⟩ rfl
  | notANumber | infinity => exact iff_of_false nofun nofun

/-- A double is finite unless the bits of its exponent are all set. -/
theorem isFinite_of_bits (h : x.toBits.toNat / 0x10000000000000 % 0x800 ≠ 2047) :
    x.isFinite = true := by
  refine ofFloat_eq_finite.1 ?_
  unfold ofFloat
  simp only [if_neg h]
  split
  · exact ⟨_, _, _, rfl⟩
  · exact ⟨_, _, _, rfl⟩

/-! ### A double is known by its reading -/

def signBit (negative : Bool) : Nat := if negative then 0x8000000000000000 else 0

/-- The bits of the double that is read like this. -/
def bits : Binary64 → Nat
  | .nan => 0x7FF8000000000000
  | .infinite negative => signBit negative + 0x7FF0000000000000
  | .finite negative m e =>
    if m < 0x10000000000000 then signBit negative + m
    else signBit negative + (e + 1074).toNat * 0x10000000000000 + m

theorem signBit_decide (n : Nat) :
    signBit (decide (0x8000000000000000 ≤ n)) = if 0x8000000000000000 ≤ n then 0x8000000000000000
      else 0 := by
  simp [signBit]

theorem toBits_of_nan (hones : x.toBits.toNat / 0x10000000000000 % 0x800 = 2047)
    (hrest : x.toBits.toNat % 0x10000000000000 ≠ 0) : x.toBits.toNat = 0x7FF8000000000000 := by
  have hbits : x.toBits.toNat = x.toModel.toBits.toBitVec.toNat := rfl
  rw [hbits] at hones hrest ⊢
  have hpacked := x.toModel.valid.eq_packedNaN ((unpackExponent_eq_ones _).2 hones)
    fun h => hrest ((unpackMantissa_eq_zero _).1 h)
  rw [hpacked]
  rfl

theorem bits_ofFloat (x : Float) : (ofFloat x).bits = x.toBits.toNat := by
  have hlt : x.toBits.toNat < 0x10000000000000000 := x.toBits.toNat_lt
  have hnan := @toBits_of_nan x
  unfold ofFloat
  generalize x.toBits.toNat = n at hlt hnan ⊢
  have hsign := signBit_decide n
  by_cases hones : n / 0x10000000000000 % 0x800 = 2047
  · by_cases hzero : n % 0x10000000000000 = 0
    · simp only [if_pos hones, if_pos hzero, bits, hsign]
      split <;> omega
    · simp only [if_pos hones, if_neg hzero, bits]
      exact (hnan hones hzero).symm
  by_cases hsmall : n / 0x10000000000000 % 0x800 = 0
  · have hlow : n % 0x10000000000000 < 0x10000000000000 := Nat.mod_lt _ (by decide)
    simp only [if_neg hones, if_pos hsmall, bits, if_pos hlow, hsign]
    split <;> omega
  · have hnormal : ¬0x10000000000000 + n % 0x10000000000000 < 0x10000000000000 := by omega
    simp only [if_neg hones, if_neg hsmall, bits, if_neg hnormal, hsign]
    split <;> omega

/-- **A double is known by its reading.** -/
theorem ofFloat_injective {y : Float} (h : ofFloat x = ofFloat y) : x = y := by
  have hbits : x.toBits.toNat = y.toBits.toNat := by rw [← bits_ofFloat, ← bits_ofFloat, h]
  obtain ⟨⟨a, ha⟩⟩ := x
  obtain ⟨⟨b, hb⟩⟩ := y
  obtain rfl : a = b := UInt64.toNat_inj.1 hbits
  rfl

end Binary64

/-! ### Canonical numbers -/

/-- The mantissa and the exponent of a finite double: the mantissa has 53 bits, unless the exponent
is the least one. -/
structure Canonical (m : Nat) (e : Int) : Prop where
  /-- The mantissa has at most 53 bits. -/
  mantissa : m < 0x20000000000000
  /-- The exponent is not too small. -/
  least : -1074 ≤ e
  /-- The exponent is not too great. -/
  greatest : e ≤ 971
  /-- The mantissa has at least 53 bits, or the exponent is the least one. -/
  normal : 0x10000000000000 ≤ m ∨ e = -1074

theorem Binary64.canonical_of_ofFloat (hx : ofFloat x = .finite negative m e) : Canonical m e := by
  unfold ofFloat at hx
  generalize x.toBits.toNat = bits at hx
  by_cases hones : bits / 0x10000000000000 % 0x800 = 2047
  · simp only [if_pos hones] at hx
    split at hx <;> exact absurd hx (by simp)
  by_cases hsmall : bits / 0x10000000000000 % 0x800 = 0
  · simp only [if_neg hones, if_pos hsmall, Binary64.finite.injEq] at hx
    obtain ⟨-, rfl, rfl⟩ := hx
    constructor <;> omega
  · simp only [if_neg hones, if_neg hsmall, Binary64.finite.injEq] at hx
    obtain ⟨-, rfl, rfl⟩ := hx
    constructor <;> omega

theorem toNat_toBitVec (s : Sign) :
    s.toBitVec.toNat * 0x8000000000000000 = Binary64.signBit (isNegative s) := by
  cases s <;> rfl

theorem toNat_packComponents (s : Sign) (e : BitVec Format.binary64.exponentBits)
    (m : BitVec Format.binary64.mantissaBitsWithoutImplicit) :
    (packComponents Format.binary64 s e m).toNat =
      Binary64.signBit (isNegative s) + e.toNat * 0x10000000000000 + m.toNat := by
  have he : e.toNat < 2 ^ 11 := e.isLt
  have hm : m.toNat < 2 ^ 52 := m.isLt
  have hor : (packComponents Format.binary64 s e m).toNat =
      (s.toBitVec.toNat <<< 11 ||| e.toNat) <<< 52 ||| m.toNat := by
    rw [packComponents, BitVec.toNat_append, BitVec.toNat_append]
  rw [hor, ← Nat.shiftLeft_add_eq_or_of_lt he, ← Nat.shiftLeft_add_eq_or_of_lt hm, Nat.shiftLeft_eq,
    Nat.shiftLeft_eq, ← toNat_toBitVec]
  omega

theorem log2_eq_52 (hlow : 0x10000000000000 ≤ m) (hhigh : m < 0x20000000000000) : m.log2 = 52 :=
  (Nat.log2_eq_iff (by omega)).2 ⟨hlow, hhigh⟩

/-- How a positive number is packed: it becomes infinite if its exponent is too great, and a
mantissa of 53 bits loses the first of them. -/
theorem pack_finite (s : Sign) (m : Nat) (e : Int) (hm : 0 < m) :
    UnpackedFloat.pack Format.binary64 (.finite s m e hm) =
      if 2048 ≤ (e + 1023 + 52).toNat + 1 then packedInfinity Format.binary64 s
      else if m.log2 + 1 = 53 then
        packComponents Format.binary64 s (BitVec.ofNat _ (e + 1023 + 52).toNat) (BitVec.ofNat _ m)
      else packComponents Format.binary64 s 0#_ (BitVec.ofNat _ m) := rfl

theorem toNat_pack (h : Canonical m e) (s : Sign) (hm : 0 < m) :
    (UnpackedFloat.pack Format.binary64 (.finite s m e hm)).toNat =
      (Binary64.finite (isNegative s) m e).bits := by
  have hleast := h.least
  have hgreatest := h.greatest
  have hmantissa := h.mantissa
  rw [pack_finite, if_neg (by omega)]
  by_cases hnormal : 0x10000000000000 ≤ m
  · rw [if_pos (by rw [log2_eq_52 hnormal hmantissa]), toNat_packComponents, BitVec.toNat_ofNat,
      BitVec.toNat_ofNat, Binary64.bits, if_neg (by omega)]
    norm_num
    omega
  · have hlog : m.log2 < 52 := (Nat.log2_lt (by omega)).2 (by omega)
    rw [if_neg (by omega), toNat_packComponents, BitVec.toNat_ofNat, Binary64.bits,
      if_pos (by omega)]
    norm_num
    omega

theorem Binary64.ofFloat_of_bits (h : Canonical m e)
    (hx : x.toBits.toNat = (Binary64.finite negative m e).bits) :
    ofFloat x = .finite negative m e := by
  have hleast := h.least
  have hgreatest := h.greatest
  have hmantissa := h.mantissa
  have hsign : signBit negative = 0 ∧ negative = false ∨
      signBit negative = 0x8000000000000000 ∧ negative = true := by
    cases negative with
    | false => exact .inl ⟨rfl, rfl⟩
    | true => exact .inr ⟨rfl, rfl⟩
  unfold ofFloat
  rw [bits] at hx
  generalize x.toBits.toNat = n at hx ⊢
  by_cases hsmall : m < 0x10000000000000
  · rw [if_pos hsmall] at hx
    have he : e = -1074 := h.normal.resolve_left (by omega)
    have hfraction : n % 0x10000000000000 = m := by omega
    have hnegative : decide (0x8000000000000000 ≤ n) = negative := by
      rcases hsign with ⟨h0, rfl⟩ | ⟨h1, rfl⟩
      · exact decide_eq_false (by omega)
      · exact decide_eq_true (by omega)
    simp only [hnegative, hfraction, he]
    rw [if_neg (by omega), if_pos (by omega)]
  · rw [if_neg hsmall] at hx
    have hfraction : 0x10000000000000 + n % 0x10000000000000 = m := by omega
    have hexponent : ((n / 0x10000000000000 % 0x800 : Nat) : Int) - 1075 = e := by omega
    have hnegative : decide (0x8000000000000000 ≤ n) = negative := by
      rcases hsign with ⟨h0, rfl⟩ | ⟨h1, rfl⟩
      · exact decide_eq_false (by omega)
      · exact decide_eq_true (by omega)
    simp only [hnegative, hfraction, hexponent]
    rw [if_neg (by omega), if_neg (by omega)]

/-- **A canonical number is what its double is read as.** -/
theorem Binary64.ofFloat_pack (h : Canonical m e) (s : Sign) (hm : 0 < m) :
    ofFloat (.ofModel (Float.Model.pack (.finite s m e hm))) = .finite (isNegative s) m e :=
  ofFloat_of_bits h (toNat_pack h s hm)

theorem isNegative_injective {s t : Sign} (h : isNegative s = isNegative t) : s = t := by
  cases s <;> cases t <;> first | rfl | exact absurd h (by decide)

theorem Binary64.unpack_of_ofFloat {s : Sign} (hm : 0 < m)
    (hx : ofFloat x = .finite (isNegative s) m e) :
    x.toModel.unpack = .finite s m e hm := by
  rw [ofFloat_eq] at hx
  cases hunpack : x.toModel.unpack with
  | notANumber | infinity => simp [hunpack] at hx
  | zero t =>
    rw [hunpack, ofUnpacked_zero, Binary64.finite.injEq] at hx
    omega
  | finite t m' e' hm' =>
    rw [hunpack, ofUnpacked_finite, Binary64.finite.injEq] at hx
    obtain ⟨hs, rfl, rfl⟩ := hx
    rw [isNegative_injective hs]

theorem unpack_pack (h : Canonical m e) (s : Sign) (hm : 0 < m) :
    (Float.Model.pack (.finite s m e hm)).unpack = .finite s m e hm :=
  Binary64.unpack_of_ofFloat hm (Binary64.ofFloat_pack h s hm)

theorem isNegative_neg (s : Sign) : isNegative (-s) = !isNegative s := by cases s <;> rfl

theorem Binary64.ofFloat_neg (hx : ofFloat x = .finite negative m e) :
    ofFloat (-x) = .finite (!negative) m e := by
  have hcanonical := canonical_of_ofFloat hx
  have hneg : -x = .ofModel (Float.Model.pack x.toModel.unpack.neg) := rfl
  obtain ⟨s, rfl⟩ : ∃ s, isNegative s = negative := by
    cases negative with
    | false => exact ⟨.positive, rfl⟩
    | true => exact ⟨.negative, rfl⟩
  by_cases hm : 0 < m
  · rw [hneg, unpack_of_ofFloat hm hx]
    change ofFloat (.ofModel (Float.Model.pack (.finite (-s) m e hm))) = _
    rw [ofFloat_pack hcanonical, isNegative_neg]
  · -- zero has the least exponent
    obtain rfl : m = 0 := by omega
    obtain rfl : e = -1074 := hcanonical.normal.resolve_left (by omega)
    rw [ofFloat_eq] at hx
    cases hunpack : x.toModel.unpack with
    | notANumber | infinity => simp [hunpack] at hx
    | zero t =>
      rw [hunpack, ofUnpacked_zero, Binary64.finite.injEq] at hx
      rw [hneg, hunpack, ← isNegative_neg, ← isNegative_injective hx.1]
      cases t <;> decide
    | finite t m' e' hm' =>
      rw [hunpack, ofUnpacked_finite, Binary64.finite.injEq] at hx
      omega

end BindScript.Decimal
