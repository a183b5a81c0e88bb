/-
**Numerals that are tested and converted.**

The tests accept the numerals of every script: a sign or none, digits, and for numbers also a point
and an exponent.  The converters read ASCII digits, and they stop before an exponent.  So a text
that passes a test is always a numeral and denotes a number, and a converter gives this number if
the digits are ASCII digits and there is no exponent; with an exponent it gives what the text before
the exponent denotes.

Main results:

* `Builtin.converters_agree` — **the converters give what a tested text denotes**, its exponent
  apart.
-/

import BindScript.Builtin.Call
import BindScript.Proofs.Decimal.Spelling

namespace BindScript

/-! ### Digits -/

/-- The value of a decimal digit: its distance from the zero of its script. -/
def Text.digitValue? (c : Char) : Option Nat :=
  (digitZeros.find? fun z => z ≤ c.toNat && c.toNat ≤ z + 9).map fun z => c.toNat - z

variable {cs sign body : List Char} {c : Char}

namespace Numeral

/-- A decimal digit as an ASCII digit; any other character as it is. -/
def asciiDigit (c : Char) : Char := ((Text.digitValue? c).map Nat.digitChar).getD c

/-- The text with ASCII digits in the place of those of other scripts. -/
def inAscii (cs : List Char) : List Char := cs.map asciiDigit

/-- All decimal digits of the text are ASCII digits. -/
def IsAscii (cs : List Char) : Prop := ∀ c ∈ cs, Text.isDecimalDigit c = true → c.isDigit = true

theorem IsAscii.of_all (h : cs.all (fun c => !Text.isDecimalDigit c || c.isDigit) = true) :
    IsAscii cs := by
  intro c hc hdigit
  have hc := List.all_eq_true.1 h c hc
  simpa [hdigit] using hc

theorem isSome_digitValue? (c : Char) : (Text.digitValue? c).isSome = Text.isDecimalDigit c := by
  rw [Text.digitValue?, Option.isSome_map, List.isSome_find?]
  rfl

theorem isDigit_asciiDigit (h : Text.isDecimalDigit c = true) : (asciiDigit c).isDigit = true := by
  rw [← isSome_digitValue?] at h
  obtain ⟨k, hk⟩ := Option.isSome_iff_exists.1 h
  obtain ⟨z, hz, rfl⟩ := Option.map_eq_some_iff.1 hk
  have hrange := List.find?_some hz
  have hdigits : ∀ k < 10, k.digitChar.isDigit = true := by decide
  rw [asciiDigit, hk]
  refine hdigits _ ?_
  simp only [Bool.and_eq_true, decide_eq_true_eq] at hrange
  omega

theorem asciiDigit_of_not_digit (h : Text.isDecimalDigit c = false) : asciiDigit c = c := by
  rw [← isSome_digitValue?, Option.isSome_eq_false_iff, Option.isNone_iff_eq_none] at h
  rw [asciiDigit, h]
  rfl

theorem forall_isDigit {P : Char → Prop} (h : ∀ k < 10, P (Char.ofNat (48 + k)))
    (hc : c.isDigit = true) :
    P c := by
  have hrange : 48 ≤ c.toNat ∧ c.toNat ≤ 57 := by
    simpa [Char.isDigit, UInt32.le_iff_toNat_le] using hc
  have hk := h (c.toNat - 48) (by omega)
  rwa [Nat.add_sub_cancel' hrange.1, Char.ofNat_toNat] at hk

theorem asciiDigit_of_isDigit (h : c.isDigit = true) : asciiDigit c = c :=
  forall_isDigit (P := fun c => asciiDigit c = c) (by decide) h

theorem isBlank_of_isDigit (h : c.isDigit = true) : Text.isBlank c = false :=
  forall_isDigit (P := fun c => Text.isBlank c = false) (by decide) h

theorem inAscii_of_isAscii (h : IsAscii cs) : inAscii cs = cs := by
  refine (List.map_congr_left (g := id) ?_).trans (List.map_id cs)
  intro c hc
  cases hdigit : Text.isDecimalDigit c with
  | true => exact asciiDigit_of_isDigit (h c hc hdigit)
  | false => exact asciiDigit_of_not_digit hdigit

/-! ### The parts of a numeral -/

/-- A sign, or nothing. -/
def IsSign (cs : List Char) : Prop := cs = [] ∨ cs = ['+'] ∨ cs = ['-']

/-- Digits, with a point before, between or after them or with none. -/
inductive IsMagnitude (digit : Char → Bool) : List Char → Prop
  | whole {ds : List Char} : ds ≠ [] → (∀ c ∈ ds, digit c = true) → IsMagnitude digit ds
  | point {ds es : List Char} : (ds ≠ [] ∨ es ≠ []) → (∀ c ∈ ds, digit c = true) →
      (∀ c ∈ es, digit c = true) →
      IsMagnitude digit (ds ++ '.' :: es)

/-- The text before an exponent. -/
def mantissa (cs : List Char) : List Char := cs.takeWhile fun c => !(c == 'e' || c == 'E')

theorem exists_sign (cs : List Char) : ∃ sign, IsSign sign ∧ cs = sign ++ dropSign cs := by
  unfold dropSign
  split
  · exact ⟨['+'], .inr (.inl rfl), rfl⟩
  · exact ⟨['-'], .inr (.inr rfl), rfl⟩
  · exact ⟨[], .inl rfl, rfl⟩

theorem isDigits_eq_true (h : isDigits cs = true) :
    cs ≠ [] ∧ ∀ c ∈ cs, Text.isDecimalDigit c = true := by
  obtain ⟨hne, hall⟩ := Bool.and_eq_true_iff.1 h
  exact ⟨by simpa using hne, List.all_eq_true.1 hall⟩

theorem split_of_isInteger (h : isInteger cs = true) :
    ∃ sign ds, cs = sign ++ ds ∧ IsSign sign ∧ ds ≠ [] ∧
      ∀ c ∈ ds, Text.isDecimalDigit c = true := by
  obtain ⟨sign, hsign, hcs⟩ := exists_sign cs
  exact ⟨sign, dropSign cs, hcs, hsign, isDigits_eq_true h⟩

/-- A number is a sign or none, digits with or without a point, and an exponent or none. -/
theorem split_of_isNumeric (h : isNumeric cs = true) :
    ∃ sign body exponent, cs = sign ++ (body ++ exponent) ∧ IsSign sign ∧
      IsMagnitude Text.isDecimalDigit body ∧ isExponent exponent = true := by
  obtain ⟨sign, hsign, hcs⟩ := exists_sign cs
  have hsplit := List.takeWhile_append_dropWhile (p := Text.isDecimalDigit) (l := dropSign cs)
  have hwhole := List.all_eq_true.1
    (List.all_takeWhile (p := Text.isDecimalDigit) (l := dropSign cs))
  simp only [isNumeric] at h
  generalize (dropSign cs).takeWhile Text.isDecimalDigit = whole at h hsplit hwhole
  split at h
  · rename_i rest hrest
    have hpart := List.all_eq_true.1 (List.all_takeWhile (p := Text.isDecimalDigit) (l := rest))
    have hafter := List.takeWhile_append_dropWhile (p := Text.isDecimalDigit) (l := rest)
    obtain ⟨hne, hexponent⟩ := Bool.and_eq_true_iff.1 h
    refine ⟨sign, whole ++ '.' :: rest.takeWhile Text.isDecimalDigit, _, ?_, hsign, ?_, hexponent⟩
    · rw [List.append_assoc, List.cons_append, hafter, ← hrest, hsplit]
      exact hcs
    · refine .point ?_ hwhole hpart
      by_contra hnone
      obtain ⟨hw, hp⟩ := not_or.1 hnone
      simp [not_not.1 hw, not_not.1 hp] at hne
  · obtain ⟨hne, hexponent⟩ := Bool.and_eq_true_iff.1 h
    refine ⟨sign, whole, _, ?_, hsign, .whole (by simpa using hne) hwhole, hexponent⟩
    rw [hsplit]
    exact hcs

/-! ### The same in ASCII digits -/

theorem inAscii_append (cs ds : List Char) : inAscii (cs ++ ds) = inAscii cs ++ inAscii ds :=
  List.map_append

theorem isDigit_of_mem_inAscii (h : ∀ c ∈ cs, Text.isDecimalDigit c = true) :
    ∀ c ∈ inAscii cs, c.isDigit = true := by
  intro c hc
  obtain ⟨d, hd, rfl⟩ := List.mem_map.1 hc
  exact isDigit_asciiDigit (h d hd)

theorem inAscii_ne_nil (h : cs ≠ []) : inAscii cs ≠ [] := by
  simpa [inAscii] using h

theorem inAscii_of_isSign (h : IsSign cs) : inAscii cs = cs := by
  rcases h with rfl | rfl | rfl <;> decide

theorem IsMagnitude.inAscii {cs : List Char} (h : IsMagnitude Text.isDecimalDigit cs) :
    IsMagnitude Char.isDigit (Numeral.inAscii cs) := by
  cases h with
  | whole hne hds => exact .whole (inAscii_ne_nil hne) (isDigit_of_mem_inAscii hds)
  | @point ds es hne hds hes =>
    have hpoint : Numeral.inAscii ('.' :: es) = '.' :: Numeral.inAscii es := rfl
    rw [inAscii_append, hpoint]
    exact .point (hne.imp inAscii_ne_nil inAscii_ne_nil) (isDigit_of_mem_inAscii hds)
      (isDigit_of_mem_inAscii hes)

/-! ### Reading -/

/-- Digits with or without a point denote a number. -/
theorem IsMagnitude.read (h : IsMagnitude Char.isDigit cs) :
    ∃ x, Decimal.readMagnitude? cs = some x := by
  cases h with
  | whole hne hds =>
    have hread := Decimal.readMagnitude?_whole [] hds hne Decimal.endsNumber_nil
    rw [List.append_nil] at hread
    exact ⟨_, hread⟩
  | @point ds es hne hds hes =>
    have hread := Decimal.readMagnitude?_point ds es [] hds hne hes Decimal.endsNumber_nil
    rw [List.append_nil] at hread
    exact ⟨_, hread⟩

theorem takeSign_append (hsign : IsSign sign) (hbody : Decimal.takeSign body = (false, body)) :
    Decimal.takeSign (sign ++ body) = (decide (sign = ['-']), body) := by
  rcases hsign with rfl | rfl | rfl
  · exact hbody
  · rfl
  · rfl

theorem trimStart_append {rest : List Char} (hsign : IsSign sign) (hc : Text.isBlank c = false) :
    Text.trimStart (sign ++ c :: rest) = sign ++ c :: rest := by
  rcases hsign with rfl | rfl | rfl
  · exact List.dropWhile_cons_of_neg (by simp [hc])
  · rfl
  · rfl

theorem leadingInt_eq {ds : List Char} (hsign : IsSign sign) (hne : ds ≠ [])
    (hds : ∀ c ∈ ds, c.isDigit = true) :
    ∃ n, Decimal.readInt? (sign ++ ds) = some n ∧ leadingInt (sign ++ ds) = n := by
  obtain ⟨c, rest, rfl⟩ := List.exists_cons_of_ne_nil hne
  have hc : c.isDigit = true := hds c (by simp)
  have htrim : Text.trimStart (sign ++ c :: rest) = sign ++ c :: rest :=
    trimStart_append hsign (isBlank_of_isDigit hc)
  have htake := takeSign_append hsign (Decimal.takeSign_of_isDigit hc rest)
  have hread := Decimal.readNat?_digits hne hds
  have hall : (c :: rest).takeWhile Char.isDigit = c :: rest := List.takeWhile_eq_self_iff.2 hds
  refine ⟨_, ?_, rfl⟩
  rw [leadingInt, htrim, htake, Decimal.readInt?, htake]
  simp only [hread, hall]
  rfl

/-- The digits that a text begins with are those before an exponent. -/
theorem IsMagnitude.leadingDigits {body exponent : List Char} (h : IsMagnitude Char.isDigit body)
    (hexponent : Decimal.EndsNumber exponent) :
    Numeral.leadingDigits (body ++ exponent) = body := by
  unfold Numeral.leadingDigits
  cases h with
  | whole hne hds =>
    obtain ⟨htake, hdrop⟩ := Decimal.takeWhile_run hds fun c rest h => (hexponent c rest h).1
    rw [htake, hdrop]
    split
    · exact absurd rfl (hexponent _ _ rfl).2
    · rfl
  | @point ds es hne hds hes =>
    have hpoint : ∀ c rest, '.' :: (es ++ exponent) = c :: rest → c.isDigit = false := by
      rintro c rest h
      obtain ⟨rfl, -⟩ := List.cons.inj h
      decide
    obtain ⟨htake, hdrop⟩ := Decimal.takeWhile_run hds hpoint
    obtain ⟨htake', -⟩ := Decimal.takeWhile_run hes fun c rest h => (hexponent c rest h).1
    rw [List.append_assoc, List.cons_append, htake, hdrop]
    simp only [htake']

/-- It begins with a digit or a point, neither a blank nor a sign. -/
theorem IsMagnitude.head (h : IsMagnitude Char.isDigit body) :
    ∃ c rest, body = c :: rest ∧ Text.isBlank c = false ∧
      ∀ cs, Decimal.takeSign (c :: cs) = (false, c :: cs) := by
  have hdigit : ∀ c : Char, c.isDigit = true → Text.isBlank c = false ∧
      ∀ cs, Decimal.takeSign (c :: cs) = (false, c :: cs) :=
    fun c hc => ⟨isBlank_of_isDigit hc, Decimal.takeSign_of_isDigit hc⟩
  cases h with
  | @whole ds hne hds =>
    obtain ⟨c, rest, rfl⟩ := List.exists_cons_of_ne_nil hne
    exact ⟨c, rest, rfl, hdigit c (hds c (by simp))⟩
  | @point ds es hne hds hes =>
    cases ds with
    | nil => exact ⟨'.', es, rfl, by decide, fun _ => rfl⟩
    | cons c rest => exact ⟨c, _, rfl, hdigit c (hds c (by simp))⟩

/-- The converter of numbers stops before an exponent. -/
theorem leadingFloat_eq {exponent : List Char} (hsign : IsSign sign)
    (hbody : IsMagnitude Char.isDigit body) (hexponent : Decimal.EndsNumber exponent) :
    ∃ x, Decimal.readFloat? (sign ++ body) = some x ∧
      leadingFloat (sign ++ (body ++ exponent)) = x := by
  obtain ⟨y, hread⟩ := hbody.read
  have hdigits := hbody.leadingDigits hexponent
  obtain ⟨c, rest, rfl, hblank, hplain⟩ := hbody.head
  have htrim : Text.trimStart (sign ++ (c :: rest ++ exponent)) = sign ++ (c :: rest ++ exponent) :=
    trimStart_append hsign hblank
  have hsigned : Decimal.takeSign (sign ++ (c :: rest ++ exponent)) =
      (decide (sign = ['-']), c :: rest ++ exponent) :=
        takeSign_append hsign (hplain (rest ++ exponent))
  refine ⟨_, ?_, rfl⟩
  rw [leadingFloat, htrim, hsigned, Decimal.readFloat?, takeSign_append hsign (hplain rest)]
  simp only [hdigits, hread, Option.some_or, Option.map_some]

theorem endsNumber_of_isExponent (h : isExponent cs = true) : Decimal.EndsNumber cs := by
  rintro c rest rfl
  obtain ⟨hmark, -⟩ := Bool.and_eq_true_iff.1 h
  rcases Bool.or_eq_true_iff.1 hmark with hc | hc
  · obtain rfl := eq_of_beq hc
    exact ⟨by decide, by decide⟩
  · obtain rfl := eq_of_beq hc
    exact ⟨by decide, by decide⟩

/-! ### Mantissas -/

theorem ne_of_isDecimalDigit {d : Char} (h : Text.isDecimalDigit c = true)
    (hd : Text.isDecimalDigit d = false) :
    c ≠ d := by
  rintro rfl
  exact absurd (h.symm.trans hd) (by decide)

theorem no_mark_of_isDecimalDigit (h : Text.isDecimalDigit c = true) :
    (!(c == 'e' || c == 'E')) = true := by
  have he : c ≠ 'e' := ne_of_isDecimalDigit h (by decide)
  have hE : c ≠ 'E' := ne_of_isDecimalDigit h (by decide)
  simp [he, hE]

/-- What stands before an exponent is the sign and the digits. -/
theorem mantissa_eq {exponent : List Char} (hsign : IsSign sign)
    (hbody : IsMagnitude Text.isDecimalDigit body) (hexponent : isExponent exponent = true) :
    mantissa (sign ++ (body ++ exponent)) = sign ++ body := by
  have hstart : ∀ c ∈ sign ++ body, (!(c == 'e' || c == 'E')) = true := by
    refine List.forall_mem_append.2 ⟨?_, ?_⟩
    · rcases hsign with rfl | rfl | rfl <;> simp
    · cases hbody with
      | whole hne hds => exact fun c hc => no_mark_of_isDecimalDigit (hds c hc)
      | point hne hds hes =>
        refine List.forall_mem_append.2 ⟨fun c hc => no_mark_of_isDecimalDigit (hds c hc), ?_⟩
        exact List.forall_mem_cons.2 ⟨by decide, fun c hc => no_mark_of_isDecimalDigit (hes c hc)⟩
  rw [mantissa, ← List.append_assoc, List.takeWhile_append_of_pos hstart]
  cases exponent with
  | nil => simp
  | cons c rest =>
    obtain ⟨hmark, -⟩ := Bool.and_eq_true_iff.1 hexponent
    rw [List.takeWhile_cons_of_neg (by simp [hmark]), List.append_nil]

end Numeral

/-! ### The functions of the catalog -/

namespace Builtin

open Numeral

theorem bool_of_call {b t : Bool} {console : Console}
    (h : ((.ok (.bool b), console) : Except RuntimeError Value × Console) =
      (.ok (.bool t), console)) : b = t := by
  simpa using h

/-- The converter of integers gives the integer that it finds, if this fits 64 bits. -/
theorem stringToInt_eq {s : String} {n : Int} (h : leadingInt s.toList = n) :
    ((-2 ^ 63 ≤ n ∧ n < 2 ^ 63) → ∃ k : Int64, k.toInt = n ∧ stringToInt s = .ok (.int k)) ∧
    (¬(-2 ^ 63 ≤ n ∧ n < 2 ^ 63) →
      stringToInt s = .error (.invalidArgument strToInt.name (.outOfRange s))) := by
  unfold stringToInt
  rw [h]
  refine ⟨?_, ?_⟩
  · intro hrange
    obtain ⟨k, hk, hword⟩ := Decimal.toInt64?_eq_some hrange
    exact ⟨k, hk, by rw [hword]⟩
  · intro hrange
    rw [Decimal.toInt64?_eq_none hrange]

/-- **The converters give what a tested text denotes**, its exponent apart. A text that passes a
test denotes a number, in the digits of any script; if these are ASCII digits, then the converter of
integers gives this number or says that it is out of range, and the converter of numbers gives what
the text before the exponent denotes. -/
theorem converters_agree (s : String) (console : Console) :
    (isInteger.call [.string s] console = (.ok (.bool true), console) →
      ∃ n, Decimal.readInt? (inAscii s.toList) = some n ∧ (IsAscii s.toList →
        ((-2 ^ 63 ≤ n ∧ n < 2 ^ 63) → ∃ k : Int64, k.toInt = n ∧
          strToInt.call [.string s] console = (.ok (.int k), console)) ∧
        (¬(-2 ^ 63 ≤ n ∧ n < 2 ^ 63) → strToInt.call [.string s] console =
          (.error (.invalidArgument strToInt.name (.outOfRange s)), console)))) ∧
    (isNumeric.call [.string s] console = (.ok (.bool true), console) →
      ∃ x, Decimal.readFloat? (inAscii (mantissa s.toList)) = some x ∧
        (IsAscii (mantissa s.toList) → strToFloat.call [.string s] console =
          (.ok (.float x), console)) ∧
        ((∀ c ∈ s.toList, c ≠ 'e' ∧ c ≠ 'E') →
          Decimal.readFloat? (inAscii s.toList) = some x)) := by
  refine ⟨?_, ?_⟩
  · intro htest
    obtain ⟨sign, ds, hs, hsign, hne, hds⟩ := split_of_isInteger (bool_of_call htest)
    -- in ASCII digits the text denotes an integer
    obtain ⟨n, hread, hleading⟩ :=
      leadingInt_eq hsign (inAscii_ne_nil hne) (isDigit_of_mem_inAscii hds)
    have hascii : inAscii s.toList = sign ++ inAscii ds := by
      rw [hs, inAscii_append, inAscii_of_isSign hsign]
    rw [← hascii] at hread hleading
    refine ⟨n, hread, ?_⟩
    intro hsame
    rw [inAscii_of_isAscii hsame] at hleading
    obtain ⟨hfits, hlarge⟩ := stringToInt_eq hleading
    refine ⟨?_, ?_⟩
    · intro hrange
      obtain ⟨k, hk, hcall⟩ := hfits hrange
      exact ⟨k, hk, congrArg (·, console) hcall⟩
    · intro hrange
      exact congrArg (·, console) (hlarge hrange)
  · intro htest
    obtain ⟨sign, body, exponent, hs, hsign, hbody, hexponent⟩ :=
      split_of_isNumeric (bool_of_call htest)
    have hends := endsNumber_of_isExponent hexponent
    obtain ⟨x, hread, hleading⟩ := leadingFloat_eq hsign hbody.inAscii hends
    have hmantissa : mantissa s.toList = sign ++ body := by
      rw [hs, mantissa_eq hsign hbody hexponent]
    have hascii : inAscii (mantissa s.toList) = sign ++ inAscii body := by
      rw [hmantissa, inAscii_append, inAscii_of_isSign hsign]
    rw [← hascii] at hread
    refine ⟨x, hread, ?_, ?_⟩
    · intro hsame
      have hbodyAscii : inAscii body = body := by
        have heq := (hascii.symm.trans (inAscii_of_isAscii hsame)).trans hmantissa
        exact List.append_cancel_left heq
      rw [hbodyAscii, ← hs] at hleading
      exact congrArg (fun y => ((.ok (.float y), console) : Except RuntimeError Value × Console))
        hleading
    · intro hno
      have hall : mantissa s.toList = s.toList := by
        refine List.takeWhile_eq_self_iff.2 ?_
        intro c hc
        simpa using hno c hc
      rw [hall] at hread
      exact hread

/-- An integer and one that is too large, and a number with an exponent. -/
theorem converters_agree_samples :
    (∃ k : Int64, k.toInt = -42 ∧ strToInt.call [.string "-42"] Console.empty =
      (.ok (.int k), Console.empty)) ∧
    strToInt.call [.string "9223372036854775808"] Console.empty =
      (.error (.invalidArgument "StrToInt" (.outOfRange "9223372036854775808")), Console.empty) ∧
    ∃ x, Decimal.readFloat? "+.5".toList = some x ∧
      strToFloat.call [.string "+.5E7"] Console.empty = (.ok (.float x), Console.empty) := by
  refine ⟨?_, ?_, ?_⟩
  · obtain ⟨n, hread, hconvert⟩ := (converters_agree "-42" Console.empty).1 rfl
    obtain rfl : -42 = n := Option.some.inj hread
    exact (hconvert (.of_all (by decide))).1 (by decide)
  · obtain ⟨n, hread, hconvert⟩ := (converters_agree "9223372036854775808" Console.empty).1 rfl
    obtain rfl : 9223372036854775808 = n := Option.some.inj hread
    exact (hconvert (.of_all (by decide))).2 (by decide)
  · obtain ⟨x, hread, hconvert, -⟩ := (converters_agree "+.5E7" Console.empty).2 rfl
    exact ⟨x, hread, hconvert (.of_all (by decide))⟩

/-- With an exponent, or in the digits of another script, a text that passes a test is converted to
another number than it denotes. -/
theorem converters_disagree :
    (isNumeric.call [.string "1e3"] Console.empty = (.ok (.bool true), Console.empty) ∧
      Decimal.readFloat? (inAscii "1e3".toList) = some 1000.0 ∧
      strToFloat.call [.string "1e3"] Console.empty = (.ok (.float 1.0), Console.empty) ∧
      (1.0 : Float) ≠ 1000.0) ∧
    isInteger.call [.string "\u0663"] Console.empty = (.ok (.bool true), Console.empty) ∧
      Decimal.readInt? (inAscii "\u0663".toList) = some 3 ∧
      strToInt.call [.string "\u0663"] Console.empty = (.ok (.int 0), Console.empty) := by
  have hone : leadingFloat "1e3".toList = 1.0 := by decide +kernel
  refine ⟨⟨rfl, by decide +kernel, ?_, by decide +kernel⟩, rfl, rfl, rfl⟩
  exact congrArg (fun y =>
    ((.ok (.float y), Console.empty) : Except RuntimeError Value × Console)) hone

end Builtin

end BindScript
