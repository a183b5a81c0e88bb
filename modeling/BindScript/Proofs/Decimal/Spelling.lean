/-
**Every spelling of a double is read as the double.**

A spelling only moves the point and the exponent: however the shortest digits are written, the
reader finds digits and a power of ten that denote the same number.

Main results:

* `Decimal.readFloat?_write` — **the text of a double is read as that double**, in any spelling,
  infinities and what is no number included.
-/

import BindScript.Decimal.Spelling
import BindScript.Proofs.Decimal.Shortest
import Mathlib.Data.List.TakeWhile

namespace BindScript.Decimal

/-! ### Reading a magnitude -/

/-- A text that begins neither with a digit nor with a point. -/
def EndsNumber (tail : List Char) : Prop := ∀ c rest, tail = c :: rest → c.isDigit = false ∧ c ≠ '.'

theorem endsNumber_nil : EndsNumber [] := fun _ _ h => absurd h (by simp)

/-- An exponent with the sign that a spelling gives it. -/
def exponentText (plus : Bool) (lead : Int) : List Char :=
  'e' :: ((if lead < 0 then ['-'] else if plus then ['+'] else []) ++ digitsOf lead.natAbs)

theorem endsNumber_exponentText (plus : Bool) (lead : Int) :
    EndsNumber (exponentText plus lead) := by
  rintro c rest h
  obtain ⟨rfl, -⟩ := List.cons.inj h
  exact ⟨by decide, by decide⟩

/-- A run of characters is taken up to the first that does not belong to it. -/
theorem takeWhile_run {p : Char → Bool} {run tail : List Char} (hrun : ∀ c ∈ run, p c = true)
    (htail : ∀ c rest, tail = c :: rest → p c = false) :
    (run ++ tail).takeWhile p = run ∧ (run ++ tail).dropWhile p = tail := by
  rw [List.takeWhile_append_of_pos hrun, List.dropWhile_append_of_pos hrun]
  cases tail with
  | nil => simp
  | cons c rest => simp [htail c rest rfl]

theorem readMagnitude?_whole {whole : List Char} (tail : List Char)
    (hwhole : ∀ c ∈ whole, c.isDigit = true) (hne : whole ≠ []) (htail : EndsNumber tail) :
    readMagnitude? (whole ++ tail) =
      (readExponent? tail).map fun e => floatOfDigits (natOfDigits whole) e := by
  obtain ⟨htake, hdrop⟩ := takeWhile_run hwhole fun c rest h => (htail c rest h).1
  unfold readMagnitude?
  rw [htake, hdrop]
  cases tail with
  | nil => simp [hne]
  | cons c rest =>
    have hc : c ≠ '.' := (htail c rest rfl).2
    simp [hne, hc]

theorem readMagnitude?_point (whole part tail : List Char) (hwhole : ∀ c ∈ whole, c.isDigit = true)
    (hne : whole ≠ [] ∨ part ≠ []) (hpart : ∀ c ∈ part, c.isDigit = true)
    (htail : EndsNumber tail) :
    readMagnitude? (whole ++ '.' :: (part ++ tail)) =
      (readExponent? tail).map fun e =>
        floatOfDigits (natOfDigits (whole ++ part)) (e - part.length) := by
  have hdot : ∀ c rest, '.' :: (part ++ tail) = c :: rest → c.isDigit = false := by
    rintro c rest h
    obtain ⟨rfl, -⟩ := List.cons.inj h
    decide
  obtain ⟨htake, hdrop⟩ := takeWhile_run hwhole hdot
  obtain ⟨htake', hdrop'⟩ := takeWhile_run hpart fun c rest h => (htail c rest h).1
  unfold readMagnitude?
  have hsome : (whole.isEmpty && part.isEmpty) = false := by
    rcases hne with hne | hne <;> simp [hne]
  simp only [htake, hdrop, htake', hdrop', hsome]
  rfl

theorem readExponent?_exponentText (plus : Bool) (lead : Int) :
    readExponent? (exponentText plus lead) = some lead := by
  have hsign : takeSign ((if lead < 0 then ['-'] else if plus then ['+'] else []) ++
      digitsOf lead.natAbs) = (decide (lead < 0), digitsOf lead.natAbs) := by
    by_cases hneg : lead < 0
    · rw [if_pos hneg, decide_eq_true hneg]
      rfl
    · rw [if_neg hneg, decide_eq_false hneg]
      cases plus with
      | true => rfl
      | false => exact takeSign_digitsOf _
  have hread : readExponent? (exponentText plus lead) =
      some (if decide (lead < 0) = true then -(lead.natAbs : Int) else lead.natAbs) := by
    rw [exponentText, readExponent?, if_pos (.inl rfl), readInt?, hsign]
    simp only [readNat?_digitsOf]
    rfl
  rw [hread, Option.some.injEq]
  by_cases hneg : lead < 0
  · rw [if_pos (by simpa using hneg)]
    omega
  · rw [if_neg (by simpa using hneg)]
    omega

/-! ### The two forms of text -/

namespace Spelling

variable (s : Spelling) {n : Nat} {k : Int}

theorem isDigit_of_mem_zeros {c : Char} {j : Nat} (h : c ∈ List.replicate j '0') :
    c.isDigit = true := by
  rw [List.eq_of_mem_replicate h]
  decide

/-- Positional text is the digits with zeros after them, or two runs of digits with a point between
them. These denote the same number. -/
theorem plain_cases {digits : List Char} (hne : digits ≠ [])
    (hdigits : ∀ c ∈ digits, c.isDigit = true) (k : Int) :
    (∃ j : Nat, s.pointZero = false ∧ k = j ∧ s.plain digits k = digits ++ List.replicate j '0') ∨
      ∃ whole part, s.plain digits k = whole ++ '.' :: part ∧ whole ≠ [] ∧ part ≠ [] ∧
        (∀ c ∈ whole ++ part, c.isDigit = true) ∧
        (natOfDigits (whole ++ part) : ℚ) * 10 ^ (-part.length : Int) =
          natOfDigits digits * 10 ^ k := by
  have hzeros : ∀ j, ∀ c ∈ List.replicate j '0', c.isDigit = true := fun _ _ => isDigit_of_mem_zeros
  unfold plain
  by_cases hk : 0 ≤ k
  · obtain ⟨j, rfl⟩ : ∃ j : Nat, k = j := ⟨k.toNat, by omega⟩
    rw [if_pos hk, Int.toNat_natCast]
    cases s.pointZero with
    | false => exact .inl ⟨j, rfl, rfl, List.append_nil _⟩
    | true =>
      -- one zero comes after the point
      refine .inr ⟨digits ++ List.replicate j '0', ['0'], rfl, by simp [hne], by simp, ?_, ?_⟩
      · exact List.forall_mem_append.2 ⟨List.forall_mem_append.2 ⟨hdigits, hzeros j⟩, hzeros 1⟩
      · have hzero : natOfDigits ['0'] = 0 := natOfDigits_zeros 1
        rw [natOfDigits_append, natOfDigits_append, natOfDigits_zeros, hzero, List.length_replicate,
          zpow_natCast]
        push_cast
        rw [List.length_singleton, Nat.cast_one, zpow_neg_one]
        field_simp
        ring
  · rw [if_neg hk]
    by_cases hpoint : 0 < (digits.length : Int) + k
    · -- the point is among the digits
      refine .inr ⟨digits.take (digits.length + k).toNat, digits.drop (digits.length + k).toNat,
        by simp only [if_pos hpoint], ?_, ?_, ?_, ?_⟩
      · refine List.ne_nil_of_length_pos ?_
        rw [List.length_take]
        omega
      · refine List.ne_nil_of_length_pos ?_
        rw [List.length_drop]
        omega
      · rwa [List.take_append_drop]
      · rw [List.take_append_drop, List.length_drop]
        congr 2
        omega
    · -- zeros come between the point and the digits
      refine .inr ⟨['0'], List.replicate (-(digits.length + k)).toNat '0' ++ digits,
        by simp only [if_neg hpoint]; rfl, by simp, by simp [hne], ?_, ?_⟩
      · exact List.forall_mem_append.2 ⟨hzeros 1, List.forall_mem_append.2 ⟨hzeros _, hdigits⟩⟩
      · have hzero : natOfDigits ['0'] = 0 := natOfDigits_zeros 1
        rw [← List.append_assoc, natOfDigits_append, natOfDigits_append, natOfDigits_zeros, hzero,
          Nat.mul_zero, Nat.add_zero, Nat.mul_zero, Nat.zero_add, List.length_append,
          List.length_replicate]
        congr 2
        omega

theorem readMagnitude?_plain (n : Nat) (k : Int) : ∃ (n' : Nat) (k' : Int),
    readMagnitude? (s.plain (digitsOf n) k) = some (floatOfDigits n' k') ∧
      (n' : ℚ) * 10 ^ k' = n * 10 ^ k := by
  have hdigits : ∀ c ∈ digitsOf n, c.isDigit = true := fun c => isDigit_of_mem_digitsOf
  rcases s.plain_cases (digitsOf_ne_nil n) hdigits k with
    ⟨j, -, rfl, htext⟩ | ⟨whole, part, htext, hwhole, -, hall, hvalue⟩
  · refine ⟨10 ^ j * n, 0, ?_, ?_⟩
    · have hread := readMagnitude?_whole []
        (List.forall_mem_append.2 ⟨hdigits, fun c => isDigit_of_mem_zeros (j := j)⟩)
          (by simp [digitsOf_ne_nil]) endsNumber_nil
      rw [natOfDigits_append, natOfDigits_digitsOf, natOfDigits_zeros, List.length_replicate,
        List.append_nil] at hread
      rw [htext, hread]
      rfl
    · push_cast
      rw [zpow_natCast]
      ring
  · obtain ⟨hw, hp⟩ := List.forall_mem_append.1 hall
    have hread := readMagnitude?_point whole part [] hw (.inl hwhole) hp endsNumber_nil
    rw [List.append_nil, ← htext] at hread
    refine ⟨_, _, hread.trans (by rw [readExponent?, Option.map_some]), ?_⟩
    rw [zero_sub, hvalue, natOfDigits_digitsOf]

/-- Text with an exponent denotes the number. -/
theorem readMagnitude?_scientific (n : Nat) (k : Int) :
    readMagnitude? (s.scientific (digitsOf n) ((digitsOf n).length - 1 + k)) =
      some (floatOfDigits n k) := by
  have hdigits : ∀ c ∈ digitsOf n, c.isDigit = true := fun c => isDigit_of_mem_digitsOf
  have hlen : 0 < (digitsOf n).length := List.length_pos_of_ne_nil (digitsOf_ne_nil n)
  have hexponent := readExponent?_exponentText s.plusSign ((digitsOf n).length - 1 + k)
  have hends := endsNumber_exponentText s.plusSign ((digitsOf n).length - 1 + k)
  have htext : s.scientific (digitsOf n) ((digitsOf n).length - 1 + k) =
      (if (digitsOf n).length ≤ 1 then digitsOf n
        else (digitsOf n).take 1 ++ '.' :: (digitsOf n).drop 1) ++
        exponentText s.plusSign ((digitsOf n).length - 1 + k) := by
    simp only [scientific, exponentText, List.append_assoc, List.cons_append]
  rw [htext]
  by_cases hone : (digitsOf n).length ≤ 1
  · rw [if_pos hone, readMagnitude?_whole _ hdigits (digitsOf_ne_nil n) hends, hexponent,
      natOfDigits_digitsOf, Option.map_some]
    congr 2
    omega
  · have hne : (digitsOf n).take 1 ≠ [] := by
      refine List.ne_nil_of_length_pos ?_
      rw [List.length_take]
      omega
    have hread := readMagnitude?_point ((digitsOf n).take 1) ((digitsOf n).drop 1) _
      (fun c hc => hdigits c (List.mem_of_mem_take hc)) (.inl hne)
      (fun c hc => hdigits c (List.mem_of_mem_drop hc)) hends
    rw [hexponent, List.take_append_drop, natOfDigits_digitsOf, Option.map_some,
      List.length_drop] at hread
    rw [if_neg hone, List.append_assoc, List.cons_append, hread]
    congr 2
    omega

theorem readMagnitude?_writeMagnitude {m : Nat} {e : Int} (hcanonical : Canonical m e) :
    ∃ x, readMagnitude? (s.writeMagnitude m e) = some x ∧
      Binary64.ofFloat x = .finite false m e := by
  unfold writeMagnitude
  by_cases hm : m = 0
  · -- zero has the least exponent
    subst hm
    obtain rfl : e = -1074 := hcanonical.normal.resolve_left (by omega)
    obtain ⟨n', k', hread, hval⟩ := s.readMagnitude?_plain 0 0
    have hzero : n' = 0 := by
      have hten : (10 : ℚ) ^ k' ≠ 0 := zpow_ne_zero _ (by norm_num)
      simpa [hten] using hval
    refine ⟨_, hread, ?_⟩
    rw [hzero, floatOfDigits, if_pos (.inl rfl)]
    decide
  · obtain ⟨hpos, hreads⟩ := shortest_readsAs s.tie hcanonical (Nat.pos_of_ne_zero hm)
    rw [if_neg hm]
    generalize shortest s.tie m e = d at hpos hreads
    simp only
    split
    · obtain ⟨n', k', hread, hval⟩ := s.readMagnitude?_plain d.digits d.exponent
      have hpos' : 0 < n' := by
        refine Nat.pos_of_ne_zero fun hzero => ?_
        have hdigits : (0 : ℚ) < d.digits * 10 ^ d.exponent :=
          mul_pos (by exact_mod_cast hpos) (zpow_pos (by norm_num) _)
        rw [← hval, hzero] at hdigits
        norm_num at hdigits
      rw [← hval] at hreads
      exact ⟨_, hread, floatOfDigits_eq hpos' hcanonical (Nat.pos_of_ne_zero hm) hreads⟩
    · exact ⟨_, s.readMagnitude?_scientific d.digits d.exponent,
        floatOfDigits_eq hpos hcanonical (Nat.pos_of_ne_zero hm) hreads⟩

end Spelling

/-! ### Reading a double -/

variable {x : Float}

theorem takeSign_of_readMagnitude? {cs : List Char} (h : readMagnitude? cs = some x) :
    takeSign cs = (false, cs) := by
  unfold takeSign
  split
  · simp [readMagnitude?] at h
  · simp [readMagnitude?] at h
  · rfl

/-- **The text of a double is read as that double.** -/
theorem readFloat?_write (s : Spelling) (x : Float) : readFloat? (s.write x) = some x := by
  unfold Spelling.write
  cases hx : Binary64.ofFloat x with
  | nan =>
    have hread : readFloat? "NaN".toList = some (0.0 / 0.0) := by decide
    exact hread.trans (congrArg some (Binary64.ofFloat_injective (by rw [hx]; decide)))
  | infinite negative =>
    cases negative with
    | false =>
      have hread : readFloat? "inf".toList = some (1.0 / 0.0) := by decide
      exact hread.trans (congrArg some (Binary64.ofFloat_injective (by rw [hx]; decide)))
    | true =>
      have hread : readFloat? "-inf".toList = some (-(1.0 / 0.0)) := by decide
      exact hread.trans (congrArg some (Binary64.ofFloat_injective (by rw [hx]; decide)))
  | finite negative m e =>
    obtain ⟨y, hread, hy⟩ := s.readMagnitude?_writeMagnitude (Binary64.canonical_of_ofFloat hx)
    cases negative with
    | false =>
      have htext : readFloat? (s.writeMagnitude m e) = some y := by
        rw [readFloat?, takeSign_of_readMagnitude? hread]
        simp only [hread]
        rfl
      exact htext.trans (congrArg some (Binary64.ofFloat_injective (hy.trans hx.symm)))
    | true =>
      have htext : readFloat? ('-' :: s.writeMagnitude m e) = some (-y) := by
        rw [readFloat?,
          show takeSign ('-' :: s.writeMagnitude m e) = (true, s.writeMagnitude m e) from rfl]
        simp only [hread]
        rfl
      have hneg := (Binary64.ofFloat_neg hy).trans hx.symm
      exact htext.trans (congrArg some (Binary64.ofFloat_injective hneg))

theorem Spelling.write_injective (s : Spelling) {y : Float} (h : s.write x = s.write y) :
    x = y := by
  have hread := readFloat?_write s x
  rw [h, readFloat?_write] at hread
  exact (Option.some.inj hread).symm

theorem dot_mem_plain_literal (digits : List Char) (k : Int) :
    '.' ∈ Spelling.literal.plain digits k := by
  unfold Spelling.plain
  split
  · simp [Spelling.literal]
  · simp only
    split <;> simp

theorem exists_not_digit_writeMagnitude (m : Nat) (e : Int) :
    ∃ c ∈ Spelling.literal.writeMagnitude m e, c.isDigit = false := by
  have hscientific : ∀ digits lead, 'e' ∈ Spelling.literal.scientific digits lead := by
    intro digits lead
    simp [Spelling.scientific]
  unfold Spelling.writeMagnitude
  by_cases hm : m = 0
  · rw [if_pos hm]
    exact ⟨'.', dot_mem_plain_literal _ _, by decide⟩
  · rw [if_neg hm]
    generalize shortest Spelling.literal.tie m e = d
    simp only
    split
    · exact ⟨'.', dot_mem_plain_literal _ _, by decide⟩
    · exact ⟨'e', hscientific _ _, by decide⟩

/-- A literal is never written as an integer: after its sign there is something that is no digit. -/
theorem exists_not_digit_write_literal (x : Float) :
    ∃ c ∈ (takeSign (Spelling.literal.write x)).2, c.isDigit = false := by
  cases hx : Binary64.ofFloat x with
  | nan =>
    rw [Spelling.write, hx]
    exact ⟨'N', by decide, by decide⟩
  | infinite negative =>
    rw [Spelling.write, hx]
    cases negative with
    | false => exact ⟨'i', by decide, by decide⟩
    | true => exact ⟨'i', by decide, by decide⟩
  | finite negative m e =>
    obtain ⟨y, hread, -⟩ :=
      Spelling.literal.readMagnitude?_writeMagnitude (Binary64.canonical_of_ofFloat hx)
    have hmagnitude := exists_not_digit_writeMagnitude m e
    cases negative with
    | false =>
      have hwrite : Spelling.literal.write x = Spelling.literal.writeMagnitude m e := by
        rw [Spelling.write, hx]
      rw [hwrite, takeSign_of_readMagnitude? hread]
      exact hmagnitude
    | true =>
      have hwrite : Spelling.literal.write x = '-' :: Spelling.literal.writeMagnitude m e := by
        rw [Spelling.write, hx]
      rw [hwrite]
      exact hmagnitude

/-! ### Digits with a point among them -/

/-- Numbers as digits with a point among them, whatever their size. -/
def Spelling.positional : Spelling := ⟨none, none, true, false, .up⟩

theorem positional_plain {digits : List Char} (hne : digits ≠ [])
    (hdigits : ∀ c ∈ digits, c.isDigit = true) (k : Int) :
    ∃ whole part, Spelling.positional.plain digits k = whole ++ '.' :: part ∧
      whole ≠ [] ∧ part ≠ [] ∧ ∀ c ∈ whole ++ part, c.isDigit = true := by
  rcases Spelling.positional.plain_cases hne hdigits k with
    ⟨_, hzero, -⟩ | ⟨whole, part, htext, hwhole, hpart, hall, -⟩
  · cases hzero
  · exact ⟨whole, part, htext, hwhole, hpart, hall⟩

/-- A finite number without a minus sign is written as digits with a point among them. -/
theorem positional_write {m : Nat} {e : Int} (hx : Binary64.ofFloat x = .finite false m e) :
    ∃ whole part, Spelling.positional.write x = whole ++ '.' :: part ∧ whole ≠ [] ∧ part ≠ [] ∧
      (∀ c ∈ whole ++ part, c.isDigit = true) ∧
      floatOfDigits (natOfDigits (whole ++ part)) (-part.length) = x := by
  have hwrite : Spelling.positional.write x = Spelling.positional.writeMagnitude m e := by
    rw [Spelling.write, hx]
  obtain ⟨whole, part, htext, hwhole, hpart, hall⟩ : ∃ whole part,
      Spelling.positional.writeMagnitude m e = whole ++ '.' :: part ∧ whole ≠ [] ∧ part ≠ [] ∧
        ∀ c ∈ whole ++ part, c.isDigit = true := by
    unfold Spelling.writeMagnitude
    split
    · exact positional_plain (by simp) (List.all_eq_true.1 (by decide)) 0
    · have hplain : ∀ lead, Spelling.positional.isPlain lead = true := fun _ => rfl
      simp only [hplain, if_true]
      exact positional_plain (digitsOf_ne_nil _) (fun c => isDigit_of_mem_digitsOf) _
  refine ⟨whole, part, hwrite.trans htext, hwhole, hpart, hall, ?_⟩
  obtain ⟨hw, hp⟩ := List.forall_mem_append.1 hall
  have hmagnitude := readMagnitude?_point whole part [] hw (.inl hwhole) hp endsNumber_nil
  obtain ⟨y, hread, hy⟩ :=
    Spelling.positional.readMagnitude?_writeMagnitude (Binary64.canonical_of_ofFloat hx)
  rw [htext] at hread
  rw [List.append_nil, hread] at hmagnitude
  obtain rfl : y = x := Binary64.ofFloat_injective (hy.trans hx.symm)
  simpa [readExponent?] using hmagnitude.symm

end BindScript.Decimal
