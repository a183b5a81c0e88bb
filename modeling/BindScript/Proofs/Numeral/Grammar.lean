/-
**The grammars of numerals.**

The tests and the converter of integers go through a text once, from the left.  Here the texts that
they are about are given as languages instead, built from classes of characters by joining, choice
and repetition.  A test accepts exactly the texts of its language, in the digits of any script.  The
converter takes the longest beginning of a text, after blanks, that is a sign or none and ASCII
digits; what this denotes is said in positional notation.

Main results:

* `Builtin.tests_accept` — **the tests accept exactly their languages**, and integers are numbers;
* `Builtin.strToInt_reads` — **the converter reads the longest integer that a text begins with**,
  and so the text of every integer.
-/

import BindScript.Proofs.Numeral
import Mathlib.Computability.Language
import Mathlib.Data.Nat.Digits.Defs

namespace BindScript

open Computability

namespace Numeral

variable {cs sign rest : List Char} {c : Char} {digit : Char → Bool}

/-! ### Languages -/

/-- The texts of one character from a class. -/
def oneOf (p : Char → Bool) : Language Char := {cs | ∃ c, p c = true ∧ cs = [c]}

def signs : Language Char := oneOf fun c => c == '+' || c == '-'

def digits (digit : Char → Bool) : Language Char := oneOf digit * (oneOf digit)∗

/-- A sign or none, and digits. -/
def integers (digit : Char → Bool) : Language Char := (1 + signs) * digits digit

/-- Digits with a point after or between them or with none, or digits after a point. -/
def magnitudes (digit : Char → Bool) : Language Char :=
  digits digit * (1 + oneOf (· == '.') * (oneOf digit)∗) + oneOf (· == '.') * digits digit

/-- A sign or none, a magnitude, and an exponent or none. -/
def numbers (digit : Char → Bool) : Language Char :=
  (1 + signs) * magnitudes digit * (1 + oneOf (fun c => c == 'e' || c == 'E') * integers digit)

theorem mem_kstar_oneOf {p : Char → Bool} : cs ∈ (oneOf p)∗ ↔ ∀ c ∈ cs, p c = true := by
  rw [Language.mem_kstar]
  constructor
  · rintro ⟨texts, rfl, htexts⟩ c hc
    obtain ⟨text, htext, hc⟩ := List.mem_flatten.1 hc
    obtain ⟨d, hd, rfl⟩ := htexts text htext
    rwa [List.mem_singleton.1 hc]
  · intro h
    refine ⟨cs.map ([·]), by rw [← List.flatMap_def, List.flatMap_singleton'], ?_⟩
    intro text htext
    obtain ⟨c, hc, rfl⟩ := List.mem_map.1 htext
    exact ⟨c, h c hc, rfl⟩

theorem mem_oneOf_mul {p : Char → Bool} {l : Language Char} :
    cs ∈ oneOf p * l ↔ ∃ c rest, p c = true ∧ rest ∈ l ∧ cs = c :: rest := by
  rw [Language.mem_mul]
  constructor
  · rintro ⟨_, ⟨c, hc, rfl⟩, rest, hrest, rfl⟩
    exact ⟨c, rest, hc, hrest, rfl⟩
  · rintro ⟨c, rest, hc, hrest, rfl⟩
    exact ⟨[c], ⟨c, hc, rfl⟩, rest, hrest, rfl⟩

theorem mem_digits : cs ∈ digits digit ↔ cs ≠ [] ∧ ∀ c ∈ cs, digit c = true := by
  rw [digits, mem_oneOf_mul]
  constructor
  · rintro ⟨c, rest, hc, hrest, rfl⟩
    exact ⟨by simp, List.forall_mem_cons.2 ⟨hc, mem_kstar_oneOf.1 hrest⟩⟩
  · rintro ⟨hne, hall⟩
    obtain ⟨c, rest, rfl⟩ := List.exists_cons_of_ne_nil hne
    obtain ⟨hc, hrest⟩ := List.forall_mem_cons.1 hall
    exact ⟨c, rest, hc, mem_kstar_oneOf.2 hrest, rfl⟩

theorem mem_signs : cs ∈ 1 + signs ↔ IsSign cs := by
  rw [Language.mem_add, Language.mem_one, IsSign]
  refine or_congr_right ⟨?_, ?_⟩
  · rintro ⟨c, hc, rfl⟩
    simpa using hc
  · rintro (rfl | rfl)
    · exact ⟨'+', rfl, rfl⟩
    · exact ⟨'-', rfl, rfl⟩

theorem mem_integers : cs ∈ integers digit ↔
    ∃ sign ds, cs = sign ++ ds ∧ IsSign sign ∧ ds ≠ [] ∧ ∀ c ∈ ds, digit c = true := by
  rw [integers, Language.mem_mul]
  constructor
  · rintro ⟨sign, hsign, ds, hds, rfl⟩
    exact ⟨sign, ds, rfl, mem_signs.1 hsign, mem_digits.1 hds⟩
  · rintro ⟨sign, ds, rfl, hsign, hds⟩
    exact ⟨sign, mem_signs.2 hsign, ds, mem_digits.2 hds, rfl⟩

theorem mem_magnitudes : cs ∈ magnitudes digit ↔ IsMagnitude digit cs := by
  rw [magnitudes, Language.mem_add, Language.mem_mul, mem_oneOf_mul]
  constructor
  · rintro (⟨ds, hds, after, hafter, rfl⟩ | ⟨c, es, hc, hes, rfl⟩)
    · obtain ⟨hne, hds⟩ := mem_digits.1 hds
      rcases (Language.mem_add _ _ _).1 hafter with hnil | hpart
      · rw [(Language.mem_one _).1 hnil, List.append_nil]
        exact .whole hne hds
      · obtain ⟨c, es, hc, hes, rfl⟩ := mem_oneOf_mul.1 hpart
        obtain rfl := eq_of_beq hc
        exact .point (.inl hne) hds (mem_kstar_oneOf.1 hes)
    · obtain ⟨hne, hes⟩ := mem_digits.1 hes
      obtain rfl := eq_of_beq hc
      exact .point (.inr hne) (fun _ h => absurd h List.not_mem_nil) hes
  · intro h
    cases h with
    | whole hne hds =>
      exact .inl ⟨cs, mem_digits.2 ⟨hne, hds⟩, [], .inl rfl, List.append_nil cs⟩
    | @point ds es hne hds hes =>
      by_cases hnone : ds = []
      · subst hnone
        exact .inr ⟨'.', es, rfl, mem_digits.2 ⟨hne.resolve_left (by simp), hes⟩, rfl⟩
      · refine .inl ⟨ds, mem_digits.2 ⟨hnone, hds⟩, '.' :: es, .inr ?_, rfl⟩
        exact mem_oneOf_mul.2 ⟨'.', es, rfl, mem_kstar_oneOf.2 hes, rfl⟩

/-! ### The tests -/

theorem dropSign_append (hsign : IsSign sign) (hplus : c ≠ '+') (hminus : c ≠ '-') :
    dropSign (sign ++ c :: rest) = c :: rest := by
  rcases hsign with rfl | rfl | rfl
  · unfold dropSign
    split
    · rename_i heq
      exact absurd (List.cons.inj heq).1 hplus
    · rename_i heq
      exact absurd (List.cons.inj heq).1 hminus
    · rfl
  · rfl
  · rfl

theorem dropSign_digit (hsign : IsSign sign) (hc : Text.isDecimalDigit c = true) :
    dropSign (sign ++ c :: rest) = c :: rest :=
  dropSign_append hsign (ne_of_isDecimalDigit hc (by decide)) (ne_of_isDecimalDigit hc (by decide))

theorem isInteger_iff : isInteger cs = true ↔ cs ∈ integers Text.isDecimalDigit := by
  rw [mem_integers]
  constructor
  · exact split_of_isInteger
  · rintro ⟨sign, ds, rfl, hsign, hne, hds⟩
    obtain ⟨c, ds, rfl⟩ := List.exists_cons_of_ne_nil hne
    rw [isInteger, dropSign_digit hsign (hds c List.mem_cons_self), isDigits,
      List.all_eq_true.2 hds]
    rfl

theorem isExponent_iff : isExponent cs = true ↔
    cs ∈ 1 + oneOf (fun c => c == 'e' || c == 'E') * integers Text.isDecimalDigit := by
  rw [Language.mem_add, Language.mem_one, mem_oneOf_mul]
  cases cs with
  | nil => simp [isExponent]
  | cons c cs =>
    rw [isExponent, Bool.and_eq_true_iff, isInteger_iff]
    constructor
    · rintro ⟨hc, hcs⟩
      exact .inr ⟨c, cs, hc, hcs, rfl⟩
    · rintro (hnil | ⟨d, ds, hd, hds, heq⟩)
      · cases hnil
      · cases heq
        exact ⟨hd, hds⟩

/-- The test of numbers passes digits with or without a point, and then asks for an exponent. -/
theorem isNumeric_append {body exponent : List Char} (hsign : IsSign sign)
    (hbody : IsMagnitude Text.isDecimalDigit body) (hexponent : isExponent exponent = true) :
    isNumeric (sign ++ (body ++ exponent)) = true := by
  -- an exponent begins with a letter, so the digits before it end there
  have hmark : ∀ c rest, exponent = c :: rest → Text.isDecimalDigit c = false ∧ c ≠ '.' := by
    rintro c rest rfl
    obtain ⟨hmark, -⟩ := Bool.and_eq_true_iff.1 hexponent
    rcases Bool.or_eq_true_iff.1 hmark with hc | hc <;> rw [eq_of_beq hc] <;> decide
  have hstop : ∀ c rest, exponent = c :: rest → Text.isDecimalDigit c = false :=
    fun c rest h => (hmark c rest h).1
  have hdrop : dropSign (sign ++ (body ++ exponent)) = body ++ exponent := by
    cases hbody with
    | whole hne hds =>
      obtain ⟨c, ds, rfl⟩ := List.exists_cons_of_ne_nil hne
      exact dropSign_digit hsign (hds c List.mem_cons_self)
    | @point ds es hne hds hes =>
      cases ds with
      | nil => exact dropSign_append hsign (by decide) (by decide)
      | cons c ds => exact dropSign_digit hsign (hds c List.mem_cons_self)
  rw [isNumeric, hdrop]
  cases hbody with
  | whole hne hds =>
    obtain ⟨htake, hrest⟩ := Decimal.takeWhile_run hds hstop
    rw [htake, hrest]
    split
    · exact absurd rfl (hmark _ _ rfl).2
    · simpa [hexponent] using hne
  | @point ds es hne hds hes =>
    have hpoint : ∀ c rest, '.' :: (es ++ exponent) = c :: rest →
        Text.isDecimalDigit c = false := by
      rintro c rest h
      rw [← (List.cons.inj h).1]
      decide
    obtain ⟨htake, hrest⟩ := Decimal.takeWhile_run hds hpoint
    obtain ⟨htake', hrest'⟩ := Decimal.takeWhile_run hes hstop
    rw [List.append_assoc, List.cons_append, htake, hrest]
    simp only [htake', hrest', hexponent, Bool.and_true, Bool.not_eq_true', Bool.and_eq_false_iff,
      List.isEmpty_eq_false_iff]
    exact hne

theorem isNumeric_iff : isNumeric cs = true ↔ cs ∈ numbers Text.isDecimalDigit := by
  rw [numbers, Language.mem_mul]
  constructor
  · intro h
    obtain ⟨sign, body, exponent, rfl, hsign, hbody, hexponent⟩ := split_of_isNumeric h
    refine ⟨sign ++ body, ?_, exponent, isExponent_iff.1 hexponent, List.append_assoc _ _ _⟩
    exact Language.append_mem_mul (mem_signs.2 hsign) (mem_magnitudes.2 hbody)
  · rintro ⟨_, ⟨sign, hsign, body, hbody, rfl⟩, exponent, hexponent, rfl⟩
    rw [List.append_assoc]
    exact isNumeric_append (mem_signs.1 hsign) (mem_magnitudes.1 hbody) (isExponent_iff.2 hexponent)

theorem mem_numbers_of_mem_integers (hcs : cs ∈ integers digit) : cs ∈ numbers digit := by
  obtain ⟨sign, ds, rfl, hsign, hne, hds⟩ := mem_integers.1 hcs
  have hsigned : sign ++ ds ∈ (1 + signs) * magnitudes digit :=
    Language.append_mem_mul (mem_signs.2 hsign) (mem_magnitudes.2 (.whole hne hds))
  exact ⟨sign ++ ds, hsigned, [], .inl rfl, List.append_nil _⟩

/-! ### The converter of integers -/

/-- The number that ASCII digits denote in positional notation. -/
def positional (ds : List Char) : Nat :=
  Nat.ofDigits 10 (ds.map fun c => c.toNat - '0'.toNat).reverse

/-- The integer that a sign and ASCII digits denote. -/
def denoted (cs : List Char) : Int :=
  if cs.head? = some '-' then -(positional (cs.filter Char.isDigit) : Int)
    else positional (cs.filter Char.isDigit)

/-- The longest beginning of a text that belongs to a language. -/
structure IsLongest (l : Language Char) (text beginning : List Char) : Prop where
  begins : beginning <+: text
  mem : beginning ∈ l
  longest : ∀ other, other <+: text → other ∈ l → other <+: beginning

/-- The text begins with a sign or none and an ASCII digit. -/
def BeginsInteger (text : List Char) : Prop :=
  ∃ sign c rest, IsSign sign ∧ c.isDigit = true ∧ text = sign ++ c :: rest

theorem IsLongest.unique {l : Language Char} {text p q : List Char} (hp : IsLongest l text p)
    (hq : IsLongest l text q) : p = q := by
  have hpq := hq.longest p hp.begins hp.mem
  exact hpq.eq_of_length_le (hp.longest q hq.begins hq.mem).length_le

theorem natOfDigits_eq_positional (ds : List Char) : Decimal.natOfDigits ds = positional ds := by
  induction ds using List.reverseRecOn with
  | nil => rfl
  | append_singleton ds c ih =>
    rw [positional, List.map_append, List.map_singleton, List.reverse_append,
      List.reverse_singleton, List.singleton_append, Nat.ofDigits_cons, ← positional, ← ih,
      Decimal.natOfDigits, List.foldl_append]
    exact Nat.add_comm _ _

theorem denoted_append {ds : List Char} (hsign : IsSign sign) (hne : ds ≠ [])
    (hds : ∀ c ∈ ds, c.isDigit = true) :
    denoted (sign ++ ds) = if sign = ['-'] then -(positional ds : Int) else positional ds := by
  have hfilter : (sign ++ ds).filter Char.isDigit = ds := by
    rw [List.filter_append, List.filter_eq_self.2 hds]
    rcases hsign with rfl | rfl | rfl <;> rfl
  rw [denoted, hfilter]
  rcases hsign with rfl | rfl | rfl
  · obtain ⟨c, ds, rfl⟩ := List.exists_cons_of_ne_nil hne
    have hc : c ≠ '-' := by
      rintro rfl
      exact absurd (hds '-' List.mem_cons_self) (by decide)
    simp [hc]
  · simp
  · simp

theorem isDecimalDigit_of_isDigit (h : c.isDigit = true) : Text.isDecimalDigit c = true :=
  forall_isDigit (P := fun c => Text.isDecimalDigit c = true) (by decide) h

/-- A text that begins with a sign or none and a digit has one sign only, and no other. -/
theorem sign_unique {sign' rest' : List Char} {c' : Char} (hsign : IsSign sign)
    (hsign' : IsSign sign') (hc : c.isDigit = true) (hc' : c'.isDigit = true)
    (h : sign ++ c :: rest = sign' ++ c' :: rest') :
    sign = sign' ∧ c :: rest = c' :: rest' := by
  have hrest : c :: rest = c' :: rest' := by
    rw [← dropSign_digit hsign (isDecimalDigit_of_isDigit hc), h,
      dropSign_digit hsign' (isDecimalDigit_of_isDigit hc')]
  rw [hrest] at h
  exact ⟨List.append_cancel_right h, hrest⟩

/-- The longest integer that a text begins with: its sign and all digits after it. -/
theorem longest_leading (hsign : IsSign sign) (hc : c.isDigit = true) :
    IsLongest (integers Char.isDigit) (sign ++ c :: rest)
      (sign ++ (c :: rest).takeWhile Char.isDigit) where
  begins := (List.prefix_append_right_inj sign).2 (List.takeWhile_prefix _)
  mem := by
    refine mem_integers.2 ⟨sign, _, rfl, hsign, ?_, ?_⟩
    · simp [hc]
    · exact List.all_eq_true.1 List.all_takeWhile
  longest := by
    rintro other ⟨after, hafter⟩ hother
    obtain ⟨sign', ds, rfl, hsign', hne, hds⟩ := mem_integers.1 hother
    obtain ⟨d, ds, rfl⟩ := List.exists_cons_of_ne_nil hne
    rw [List.append_assoc, List.cons_append] at hafter
    obtain ⟨rfl, hrest⟩ := sign_unique hsign' hsign (hds d List.mem_cons_self) hc hafter
    rw [← hrest, ← List.cons_append, List.takeWhile_append_of_pos hds, List.prefix_append_right_inj]
    exact List.prefix_append _ _

theorem exists_isLongest {text : List Char} :
    (∃ p, IsLongest (integers Char.isDigit) text p) ↔ BeginsInteger text := by
  constructor
  · rintro ⟨p, ⟨after, rfl⟩, hp, -⟩
    obtain ⟨sign, ds, rfl, hsign, hne, hds⟩ := mem_integers.1 hp
    obtain ⟨c, ds, rfl⟩ := List.exists_cons_of_ne_nil hne
    exact ⟨sign, c, ds ++ after, hsign, hds c List.mem_cons_self, List.append_assoc _ _ _⟩
  · rintro ⟨sign, c, rest, hsign, hc, rfl⟩
    exact ⟨_, longest_leading hsign hc⟩

theorem leadingInt_eq_denoted {p : List Char}
    (hp : IsLongest (integers Char.isDigit) (Text.trimStart cs) p) :
    leadingInt cs = denoted p := by
  obtain ⟨sign, c, rest, hsign, hc, ht⟩ := exists_isLongest.1 ⟨p, hp⟩
  have hne : (c :: rest).takeWhile Char.isDigit ≠ [] := by simp [hc]
  rw [hp.unique (ht ▸ longest_leading hsign hc),
    denoted_append hsign hne (List.all_eq_true.1 List.all_takeWhile), leadingInt, ht,
    takeSign_append hsign (Decimal.takeSign_of_isDigit hc rest)]
  simp only [natOfDigits_eq_positional, decide_eq_true_eq]

theorem exists_takeSign (cs : List Char) :
    ∃ sign, IsSign sign ∧ cs = sign ++ (Decimal.takeSign cs).2 := by
  unfold Decimal.takeSign
  split
  · exact ⟨['-'], .inr (.inr rfl), rfl⟩
  · exact ⟨['+'], .inr (.inl rfl), rfl⟩
  · exact ⟨[], .inl rfl, rfl⟩

theorem leadingInt_eq_zero (h : ¬BeginsInteger (Text.trimStart cs)) : leadingInt cs = 0 := by
  have hnone : (Decimal.takeSign (Text.trimStart cs)).2.takeWhile Char.isDigit = [] := by
    obtain ⟨sign, hsign, heq⟩ := exists_takeSign (Text.trimStart cs)
    generalize (Decimal.takeSign (Text.trimStart cs)).2 = rest at heq
    cases rest with
    | nil => rfl
    | cons c rest =>
      refine List.takeWhile_cons_of_neg ?_
      intro hc
      exact h ⟨sign, c, rest, hsign, hc, heq⟩
  simp only [leadingInt, hnone]
  split <;> rfl

/-- The text of an integer is a sign or none and ASCII digits. -/
theorem toString_mem (n : Int) : (toString n).toList ∈ integers Char.isDigit := by
  have hdigits : ∀ c ∈ Decimal.digitsOf n.natAbs, c.isDigit = true :=
    fun _ => Decimal.isDigit_of_mem_digitsOf
  rw [Decimal.toList_toString]
  split
  · exact mem_integers.2 ⟨['-'], _, rfl, .inr (.inr rfl), Decimal.digitsOf_ne_nil _, hdigits⟩
  · exact mem_integers.2 ⟨[], _, rfl, .inl rfl, Decimal.digitsOf_ne_nil _, hdigits⟩

theorem leadingInt_toString (n : Int) : leadingInt (toString n).toList = n := by
  obtain ⟨sign, ds, htext, hsign, hne, hds⟩ := mem_integers.1 (toString_mem n)
  obtain ⟨k, hread, hleading⟩ := leadingInt_eq hsign hne hds
  rw [← htext] at hread hleading
  rw [hleading]
  exact Option.some.inj (hread.symm.trans (Decimal.readInt?_toString n))

theorem isInteger_toString (n : Int) : isInteger (toString n).toList = true := by
  obtain ⟨sign, ds, htext, hsign, hne, hds⟩ := mem_integers.1 (toString_mem n)
  exact isInteger_iff.2
    (mem_integers.2 ⟨sign, ds, htext, hsign, hne, fun c hc => isDecimalDigit_of_isDigit (hds c hc)⟩)

end Numeral

namespace Builtin

open Numeral

/-- **The tests accept exactly their languages**: the test of integers a sign or none and digits,
the test of numbers a sign or none, digits with a point or none and an exponent or none, and both
nothing else.  Digits are those of any script.  So every text that passes the test of integers
passes the test of numbers. -/
theorem tests_accept (s : String) (console : Console) :
    (∃ b, isInteger.call [.string s] console = (.ok (.bool b), console) ∧
      (b = true ↔ s.toList ∈ integers Text.isDecimalDigit)) ∧
    (∃ b, isNumeric.call [.string s] console = (.ok (.bool b), console) ∧
      (b = true ↔ s.toList ∈ numbers Text.isDecimalDigit)) ∧
    (isInteger.call [.string s] console = (.ok (.bool true), console) →
      isNumeric.call [.string s] console = (.ok (.bool true), console)) := by
  refine ⟨⟨_, rfl, isInteger_iff⟩, ⟨_, rfl, isNumeric_iff⟩, ?_⟩
  intro h
  have hnumber := isNumeric_iff.2 (mem_numbers_of_mem_integers (isInteger_iff.1 (bool_of_call h)))
  exact congrArg (fun b => ((.ok (.bool b), console) : Except RuntimeError Value × Console)) hnumber

/-- An integer in the digits of another script, a number that is no integer, and texts with
something after them. -/
theorem tests_accept_samples :
    isNumeric.call [.string "-\u0664\u0662"] Console.empty = (.ok (.bool true), Console.empty) ∧
    "+.5E-03".toList ∈ numbers Text.isDecimalDigit ∧
    "+.5E-03".toList ∉ integers Text.isDecimalDigit ∧
    "1e".toList ∉ numbers Text.isDecimalDigit ∧ "1\n".toList ∉ numbers Text.isDecimalDigit := by
  have hnumber : ∀ s b, isNumeric.call [.string s] Console.empty = (.ok (.bool b), Console.empty) →
      (b = true ↔ s.toList ∈ numbers Text.isDecimalDigit) := by
    intro s b h
    obtain ⟨-, ⟨b', hcall, haccepts⟩, -⟩ := tests_accept s Console.empty
    rwa [bool_of_call (h.symm.trans hcall)]
  obtain ⟨⟨b, hcall, hinteger⟩, -⟩ := tests_accept "+.5E-03" Console.empty
  refine ⟨(tests_accept "-\u0664\u0662" Console.empty).2.2 rfl, (hnumber _ true rfl).1 rfl, ?_,
    ?_, ?_⟩
  · exact fun hmem => absurd ((bool_of_call hcall).trans (hinteger.2 hmem)) (by decide)
  · exact fun hmem => absurd ((hnumber _ false rfl).2 hmem) (by decide)
  · exact fun hmem => absurd ((hnumber _ false rfl).2 hmem) (by decide)

/-- **The converter reads the longest integer that a text begins with**, after blanks: a sign or
none and ASCII digits.  It gives what these denote, or says that this is out of range; without a
digit there it gives zero.  So it gives back every integer from its text, which also passes the test
of integers. -/
theorem strToInt_reads (s : String) (console : Console) :
    let t := Text.trimStart s.toList
    (¬BeginsInteger t → strToInt.call [.string s] console = (.ok (.int 0), console)) ∧
    (BeginsInteger t → ∃ p, IsLongest (integers Char.isDigit) t p) ∧
    (∀ p, IsLongest (integers Char.isDigit) t p →
      ((-2 ^ 63 ≤ denoted p ∧ denoted p < 2 ^ 63) → ∃ k : Int64, k.toInt = denoted p ∧
        strToInt.call [.string s] console = (.ok (.int k), console)) ∧
      (strToInt.call [.string s] console =
        (.error (.invalidArgument strToInt.name (.outOfRange s)), console) ↔
        ¬(-2 ^ 63 ≤ denoted p ∧ denoted p < 2 ^ 63))) ∧
    ∀ n : Int64, ∃ text, intToStr.call [.int n] console = (.ok (.string text), console) ∧
      strToInt.call [.string text] console = (.ok (.int n), console) ∧
      isInteger.call [.string text] console = (.ok (.bool true), console) := by
  intro t
  have hcall : ∀ s, strToInt.call [.string s] console = (stringToInt s, console) := fun _ => rfl
  refine ⟨?_, exists_isLongest.2, ?_, ?_⟩
  · intro hnone
    obtain ⟨k, hk, hzero⟩ := (stringToInt_eq (leadingInt_eq_zero hnone)).1 (by decide)
    obtain rfl : k = 0 := Int64.toInt_inj.1 hk
    rw [hcall, hzero]
  · intro p hp
    obtain ⟨hfits, hlarge⟩ := stringToInt_eq (leadingInt_eq_denoted hp)
    refine ⟨?_, ?_, ?_⟩
    · intro hrange
      obtain ⟨k, hk, hread⟩ := hfits hrange
      exact ⟨k, hk, by rw [hcall, hread]⟩
    · intro herror hrange
      obtain ⟨k, -, hread⟩ := hfits hrange
      rw [hcall, hread] at herror
      exact absurd (congrArg Prod.fst herror) (by simp)
    · intro hrange
      rw [hcall, hlarge hrange]
  · intro n
    obtain ⟨k, hk, hread⟩ :=
      (stringToInt_eq (s := toString n.toInt) (leadingInt_toString n.toInt)).1
      ⟨n.le_toInt, n.toInt_lt⟩
    obtain rfl : k = n := Int64.toInt_inj.1 hk
    refine ⟨toString k.toInt, rfl, by rw [hcall, hread], ?_⟩
    exact congrArg (fun b => ((.ok (.bool b), console) : Except RuntimeError Value × Console))
      (isInteger_toString k.toInt)

/-- A wide blank, zeros in front and another sign after the digits; digits of another script; one
more than fits. -/
theorem strToInt_reads_samples :
    (∃ k : Int64, k.toInt = -42 ∧
      strToInt.call [.string "\u2003-0042-7"] Console.empty = (.ok (.int k), Console.empty)) ∧
    strToInt.call [.string "\u0663"] Console.empty = (.ok (.int 0), Console.empty) ∧
    strToInt.call [.string "9223372036854775808x"] Console.empty =
      (.error (.invalidArgument "StrToInt" (.outOfRange "9223372036854775808x")),
        Console.empty) := by
  have hminus : IsLongest (integers Char.isDigit) "-0042-7".toList "-0042".toList :=
    longest_leading (.inr (.inr rfl)) (by decide)
  have hlarge : IsLongest (integers Char.isDigit) "9223372036854775808x".toList
      "9223372036854775808".toList :=
    longest_leading (.inl rfl) (by decide)
  have hother : ¬BeginsInteger ['\u0663'] := by
    rintro ⟨sign, c, rest, rfl | rfl | rfl, hc, h⟩
    · rw [← (List.cons.inj h).1] at hc
      cases hc
    · exact absurd (List.cons.inj h).1 (by decide)
    · exact absurd (List.cons.inj h).1 (by decide)
  refine ⟨?_, (strToInt_reads "\u0663" Console.empty).1 hother, ?_⟩
  · exact ((strToInt_reads "\u2003-0042-7" Console.empty).2.2.1 _ hminus).1 (by decide)
  · exact ((strToInt_reads "9223372036854775808x" Console.empty).2.2.1 _ hlarge).2.2 (by decide)

end Builtin

end BindScript
