/-
**Occurrences in a text.**

A text occurs in another one where the other one can be cut into what comes before it, the text
itself, and what comes after it.  Searching gives the first occurrence from an offset on: it runs on
the bytes of the two texts, and comes to what a search on characters would give.  Cutting out as
many characters as were searched for gives them back.  Replacement is a second scan, which keeps
count of the characters that it has still to pass over; it takes the same occurrences as a search
that goes on, again and again, after the one that it has found.

Positions are numbers of 64 bits, so this is said of texts with fewer than `2 ^ 63` characters.

Main results:

* `Builtin.search_coherent` — **searching and cutting agree**;
* `Builtin.replace_iterates` — **replacement is searching, again and again**.
-/

import BindScript.Builtin.Call
import BindScript.Proofs.Text.Bytes
import Mathlib.Algebra.Group.Int.Defs
import Mathlib.Algebra.Group.Nat.Defs

namespace BindScript

namespace Text

/-- The first text stands in the second one at a position. -/
def OccursAt (needle text : List Char) (i : Nat) : Prop :=
  ∃ before after, text = before ++ needle ++ after ∧ before.length = i

/-- The first occurrence that does not begin before an offset. -/
structure FirstFrom (needle text : List Char) (offset : Int) (i : Nat) : Prop where
  le : offset ≤ i
  occurs : OccursAt needle text i
  least : ∀ j : Nat, offset ≤ j → OccursAt needle text j → i ≤ j

variable {needle text : List Char} {i j : Nat}

theorem occursAt_zero : OccursAt needle text 0 ↔ needle <+: text := by
  constructor
  · rintro ⟨before, after, rfl, hlength⟩
    obtain rfl := List.eq_nil_of_length_eq_zero hlength
    exact ⟨after, rfl⟩
  · rintro ⟨after, rfl⟩
    exact ⟨[], after, rfl, rfl⟩

theorem occursAt_cons {c : Char} :
    OccursAt needle (c :: text) (i + 1) ↔ OccursAt needle text i := by
  constructor
  · rintro ⟨before, after, heq, hlength⟩
    cases before with
    | nil => cases hlength
    | cons d before =>
      obtain ⟨-, rfl⟩ := List.cons.inj heq
      exact ⟨before, after, rfl, by simpa using hlength⟩
  · rintro ⟨before, after, rfl, rfl⟩
    exact ⟨c :: before, after, rfl, rfl⟩

theorem OccursAt.add_length_le (h : OccursAt needle text i) : i + needle.length ≤ text.length := by
  obtain ⟨before, after, rfl, rfl⟩ := h
  simp only [List.length_append]
  omega

theorem OccursAt.take_drop (h : OccursAt needle text i) :
    (text.drop i).take needle.length = needle := by
  obtain ⟨before, after, rfl, rfl⟩ := h
  rw [List.append_assoc, List.drop_left, List.take_left]

theorem occursAt_drop (h : i ≤ text.length) :
    OccursAt needle (text.drop i) j ↔ OccursAt needle text (i + j) := by
  induction i generalizing text with
  | zero => simp
  | succ i ih =>
    cases text with
    | nil => cases h
    | cons c text =>
      rw [List.drop_succ_cons, Nat.add_right_comm, occursAt_cons]
      exact ih (by simpa using h)

/-! ### Searching -/

theorem indexOf?_eq_none : indexOf? needle text = none ↔ ∀ i, ¬OccursAt needle text i := by
  induction text with
  | nil =>
    constructor
    · intro hnone i hi
      have hlength : i + needle.length ≤ 0 := hi.add_length_le
      obtain rfl : needle = [] := List.eq_nil_of_length_eq_zero (by omega)
      simp [indexOf?] at hnone
    · intro h
      have hne : needle ≠ [] := fun hnil => h 0 (occursAt_zero.2 (hnil ▸ List.nil_prefix))
      simp [indexOf?, hne]
  | cons c text ih =>
    rw [indexOf?]
    split
    · rename_i hprefix
      exact ⟨by simp, fun h =>
        absurd (occursAt_zero.2 (List.isPrefixOf_iff_prefix.1 hprefix)) (h 0)⟩
    · rename_i hprefix
      rw [Option.map_eq_none_iff, ih]
      constructor
      · intro h i
        cases i with
        | zero => exact fun hi => hprefix (List.isPrefixOf_iff_prefix.2 (occursAt_zero.1 hi))
        | succ i => exact fun hi => h i (occursAt_cons.1 hi)
      · intro h i hi
        exact h (i + 1) (occursAt_cons.2 hi)

theorem indexOf?_eq_some (h : indexOf? needle text = some i) : FirstFrom needle text 0 i := by
  induction text generalizing i with
  | nil =>
    rw [indexOf?] at h
    split at h
    · rename_i hempty
      obtain rfl : 0 = i := Option.some.inj h
      exact ⟨Int.le_refl 0, occursAt_zero.2 (by simpa using hempty), fun _ _ _ => Nat.zero_le _⟩
    · cases h
  | cons c text ih =>
    rw [indexOf?] at h
    split at h
    · rename_i hprefix
      obtain rfl : 0 = i := Option.some.inj h
      exact ⟨Int.le_refl 0, occursAt_zero.2 (List.isPrefixOf_iff_prefix.1 hprefix),
        fun _ _ _ => Nat.zero_le _⟩
    · rename_i hprefix
      obtain ⟨i, hi, rfl⟩ := Option.map_eq_some_iff.1 h
      obtain ⟨-, hoccurs, hleast⟩ := ih hi
      refine ⟨Int.natCast_nonneg _, occursAt_cons.2 hoccurs, ?_⟩
      intro j _ hj
      cases j with
      | zero => exact absurd (List.isPrefixOf_iff_prefix.2 (occursAt_zero.1 hj)) hprefix
      | succ j => exact Nat.succ_le_succ (hleast j (Int.natCast_nonneg j) (occursAt_cons.1 hj))

/-- From an offset on, a text has the occurrences that what is left after the offset has. -/
theorem firstFrom_drop {start : Nat} (h : start ≤ text.length) :
    FirstFrom needle (text.drop start) 0 i ↔ FirstFrom needle text start (start + i) := by
  constructor
  · rintro ⟨-, hoccurs, hleast⟩
    refine ⟨by omega, (occursAt_drop h).1 hoccurs, ?_⟩
    intro j hj hoccurs
    obtain ⟨k, rfl⟩ : ∃ k, j = start + k := ⟨j - start, by omega⟩
    exact Nat.add_le_add_left (hleast k (Int.natCast_nonneg k) ((occursAt_drop h).2 hoccurs)) start
  · rintro ⟨-, hoccurs, hleast⟩
    refine ⟨Int.natCast_nonneg i, (occursAt_drop h).2 hoccurs, ?_⟩
    intro j _ hoccurs
    have := hleast (start + j) (by omega) ((occursAt_drop h).1 hoccurs)
    omega

/-- The search for a position on characters. -/
def charPosition (haystack needle : List Char) (offset : Int) : Int :=
  if offset < 0 ∨ haystack.length < offset.toNat then -1
  else
    match indexOf? needle (haystack.drop offset.toNat) with
    | some i => offset + i
    | none => -1

/-- **Searching for a position on bytes or on characters is the same.** -/
theorem position_eq {haystack : List Char} (hsize : haystack.length < 2 ^ 63) (needle : List Char)
    (offset : Int) : position haystack needle offset = charPosition haystack needle offset := by
  unfold position charPosition
  by_cases hneg : offset < 0
  · simp only [hneg, true_or, if_true]
  · have hstart := getElem?_starts 0 haystack offset.toNat
    rw [Nat.zero_add] at hstart
    simp only [hneg, false_or, if_false, hstart]
    by_cases hin : offset.toNat ≤ haystack.length
    · rw [if_pos hin, if_neg (Nat.not_lt.2 hin), Nat.zero_add]
      -- the bytes from the offset on are those of the rest of the text
      obtain ⟨before, after, rfl, hbefore⟩ : ∃ before after, haystack = before ++ after ∧
          before.length = offset.toNat :=
        ⟨_, _, (List.take_append_drop offset.toNat haystack).symm, List.length_take_of_le hin⟩
      rw [← hbefore, List.take_left, List.drop_left]
      simp only [sliceFrom?_bytes, Option.bind_some, indexOf?_bytes]
      cases hfound : indexOf? needle after with
      | none => rfl
      | some i =>
        have hend := (indexOf?_eq_some hfound).occurs.add_length_le
        have hi : i ≤ after.length := by omega
        have hcut : before ++ after = (before ++ after.take i) ++ after.drop i := by
          rw [List.append_assoc, List.take_append_drop]
        have hoffset : (bytes before).length + (bytes (after.take i)).length =
            (bytes (before ++ after.take i)).length := by
          rw [bytes_append, List.length_append]
        have hcount : (before ++ after.take i).length = before.length + i := by
          rw [List.length_append, List.length_take_of_le hi]
        rw [List.length_append] at hsize
        simp only [Option.map_some, hoffset]
        rw [hcut, sliceTo?_bytes, Option.map_some, Option.getD_some, countChars_bytes, hcount,
          if_pos (by omega)]
        omega
    · rw [if_neg hin, if_pos (Nat.lt_of_not_le hin)]

/-- Searching from an offset: nothing is found, or the first occurrence. -/
theorem position_cases {text : List Char} (hsize : text.length < 2 ^ 63) (needle : List Char)
    (offset : Int) :
    (position text needle offset = -1 ∧ ∀ j : Nat, 0 ≤ offset → offset ≤ j →
      ¬OccursAt needle text j) ∨
      ∃ i : Nat, position text needle offset = i ∧ 0 ≤ offset ∧ FirstFrom needle text offset i := by
  rw [position_eq hsize]
  unfold charPosition
  split
  · rename_i hout
    refine .inl ⟨rfl, ?_⟩
    intro j hoffset hj hoccurs
    have := hoccurs.add_length_le
    omega
  · rename_i hin
    obtain ⟨start, rfl⟩ : ∃ start : Nat, offset = start := ⟨offset.toNat, by omega⟩
    have hstart : start ≤ text.length := by omega
    simp only [Int.toNat_natCast]
    split
    · rename_i i hi
      exact .inr ⟨start + i, by simp, by omega, (firstFrom_drop hstart).1 (indexOf?_eq_some hi)⟩
    · rename_i hnone
      refine .inl ⟨rfl, ?_⟩
      intro j _ hj hoccurs
      obtain ⟨k, rfl⟩ : ∃ k, j = start + k := ⟨j - start, by omega⟩
      exact indexOf?_eq_none.1 hnone k ((occursAt_drop hstart).2 hoccurs)

/-! ### Replacing -/

variable {search replacement : List Char}

theorem replaceFrom_skip (skip : Nat) (text : List Char) :
    replaceFrom search replacement skip text =
      replaceFrom search replacement 0 (text.drop skip) := by
  induction text generalizing skip with
  | nil => cases skip <;> simp [replaceFrom]
  | cons c text ih =>
    cases skip with
    | zero => rfl
    | succ skip => simpa [replaceFrom] using ih skip

theorem replaceFrom_of_none (h : ∀ i, ¬OccursAt search text i) :
    replaceFrom search replacement 0 text = text := by
  induction text with
  | nil => rfl
  | cons c text ih =>
    have hprefix : ¬search.isPrefixOf (c :: text) = true := fun hprefix =>
      h 0 (occursAt_zero.2 (List.isPrefixOf_iff_prefix.1 hprefix))
    rw [replaceFrom, if_neg hprefix, ih fun i hi => h (i + 1) (occursAt_cons.2 hi)]

/-- **One round**: what stands before the first occurrence is kept, and replacement goes on after
it. -/
theorem replaceFrom_of_first (replacement : List Char) (hsearch : search ≠ [])
    (h : FirstFrom search text 0 i) :
    replaceFrom search replacement 0 text =
      text.take i ++ replacement ++ replaceFrom search replacement 0
        (text.drop (i + search.length)) := by
  obtain ⟨-, hoccurs, hleast⟩ := h
  have hpos := List.length_pos_iff.2 hsearch
  induction text generalizing i with
  | nil =>
    have hlength : i + search.length ≤ 0 := hoccurs.add_length_le
    omega
  | cons c text ih =>
    rw [replaceFrom]
    split
    · rename_i hprefix
      obtain rfl : i = 0 := Nat.le_zero.1
        (hleast 0 (Int.le_refl 0) (occursAt_zero.2 (List.isPrefixOf_iff_prefix.1 hprefix)))
      -- one character has been taken, and the others of the occurrence are skipped
      obtain ⟨n, hn⟩ : ∃ n, search.length = n + 1 := ⟨search.length - 1, by omega⟩
      rw [replaceFrom_skip, hn]
      simp
    · rename_i hprefix
      cases i with
      | zero => exact absurd (List.isPrefixOf_iff_prefix.2 (occursAt_zero.1 hoccurs)) hprefix
      | succ i =>
        rw [ih (occursAt_cons.1 hoccurs) fun j _ hj => Nat.le_of_succ_le_succ
          (hleast (j + 1) (Int.natCast_nonneg _) (occursAt_cons.2 hj)), Nat.add_right_comm]
        simp

theorem replaceFrom_self (hsearch : search ≠ []) (skip : Nat) (text : List Char) :
    replaceFrom search search skip text = text.drop skip := by
  induction text generalizing skip with
  | nil => cases skip <;> rfl
  | cons c text ih =>
    cases skip with
    | succ skip => exact ih skip
    | zero =>
      rw [replaceFrom, ih, ih]
      split
      · rename_i hprefix
        obtain ⟨after, hafter⟩ := List.isPrefixOf_iff_prefix.1 hprefix
        obtain ⟨d, search, rfl⟩ := List.exists_cons_of_ne_nil hsearch
        cases hafter
        simp
      · rfl

end Text

namespace Builtin

open Text (OccursAt FirstFrom)

variable {console : Console}

theorem toInt_position {n : Int} (hlow : -1 ≤ n) (hhigh : n < 2 ^ 63) : (Int64.ofInt n).toInt = n :=
  Int64.toInt_ofInt_of_le (by omega) (by omega)

theorem length_call (console : Console) {s : String} (h : s.length < 2 ^ 63) :
    ∃ n : Int64, length.call [.string s] console = (.ok (.int n), console) ∧
      n.toInt = s.length := by
  refine ⟨_, rfl, toInt_position ?_ ?_⟩
  · exact Int.le_trans (by decide) (Int.natCast_nonneg s.length)
  · exact Int.ofNat_lt.2 h

theorem copy_call (s : String) (start count : Int64) :
    copy.call [.string s, .int start, .int count] console =
      (.ok (.string (String.ofList ((s.toList.drop start.toInt.toNat).take count.toInt.toNat))),
        console) := rfl

theorem pos_call {haystack needle : String} (hsize : haystack.length < 2 ^ 63) (offset : Int64) :
    ∃ i : Int64, pos.call [.string haystack, .string needle, .int offset]
      console = (.ok (.int i), console) ∧
      ((i.toInt = -1 ∧ ∀ j : Nat, 0 ≤ offset.toInt → offset.toInt ≤ j →
        ¬OccursAt needle.toList haystack.toList j) ∨
        ∃ k : Nat, i.toInt = k ∧ k + needle.length ≤ haystack.length ∧ 0 ≤ offset.toInt ∧
          FirstFrom needle.toList haystack.toList offset.toInt k) := by
  refine ⟨_, rfl, ?_⟩
  rcases Text.position_cases (String.length_toList ▸ hsize) needle.toList offset.toInt with
    ⟨hnone, hno⟩ | ⟨k, hk, hoffset, hfirst⟩
  · rw [hnone]
    exact .inl ⟨by decide, hno⟩
  · have hend := hfirst.occurs.add_length_le
    rw [String.length_toList, String.length_toList] at hend
    rw [hk]
    exact .inr ⟨k, toInt_position (by omega) (by omega), hend, hoffset, hfirst⟩

/-- **Searching and cutting agree.** `Pos` gives the first occurrence from the offset on, and `-1`
exactly if there is none or the offset lies outside the text. `Copy` gives back what was found
there, and the two parts of a text on both sides of any position make up the text. -/
theorem search_coherent (haystack needle : String) (hsize : haystack.length < 2 ^ 63)
    (console : Console) :
    (∀ offset : Int64, ∃ i : Int64,
      pos.call [.string haystack, .string needle, .int offset] console = (.ok (.int i), console) ∧
      (∀ j : Nat, i.toInt = j ↔
        0 ≤ offset.toInt ∧ FirstFrom needle.toList haystack.toList offset.toInt j) ∧
      (i.toInt = -1 ↔ offset.toInt < 0 ∨ (haystack.length : Int) < offset.toInt ∨
        ∀ j : Nat, offset.toInt ≤ j → ¬OccursAt needle.toList haystack.toList j) ∧
      (0 ≤ i.toInt → offset.toInt ≤ i.toInt ∧ i.toInt ≤ (haystack.length : Int) - needle.length ∧
        ∃ n : Int64, length.call [.string needle] console = (.ok (.int n), console) ∧
          n.toInt = needle.length ∧
          copy.call [.string haystack, .int i, .int n] console = (.ok (.string needle), console))) ∧
    ∀ k : Int64, ∃ (n : Int64) (left right : String),
      length.call [.string haystack] console = (.ok (.int n), console) ∧ n.toInt = haystack.length ∧
      copy.call [.string haystack, .int 0, .int k] console = (.ok (.string left), console) ∧
      copy.call [.string haystack, .int k, .int n] console = (.ok (.string right), console) ∧
      concat.call [.string left, .string right] console = (.ok (.string haystack), console) := by
  refine ⟨?_, ?_⟩
  · intro offset
    obtain ⟨i, hcall, ⟨hi, hno⟩ | ⟨p, hi, hend, hoffset, hfirst⟩⟩ := pos_call hsize offset
    · -- nothing is found
      refine ⟨i, hcall, ?_, ⟨?_, fun _ => hi⟩, fun h => absurd h (by omega)⟩
      · intro j
        refine ⟨fun h => absurd h (by omega), ?_⟩
        rintro ⟨hoffset, hle, hoccurs, -⟩
        exact absurd hoccurs (hno j hoffset hle)
      · intro _
        by_cases hneg : offset.toInt < 0
        · exact .inl hneg
        · exact .inr (.inr fun j => hno j (by omega))
    · have hle := hfirst.le
      refine ⟨i, hcall, ?_, ⟨fun h => absurd h (by omega), ?_⟩, ?_⟩
      · intro j
        constructor
        · intro hj
          obtain rfl : p = j := by omega
          exact ⟨hoffset, hfirst⟩
        · rintro ⟨-, hle', hoccurs', hleast'⟩
          have := hfirst.least j hle' hoccurs'
          have := hleast' p hle hfirst.occurs
          omega
      · rintro (hneg | hlarge | hno)
        · omega
        · omega
        · exact absurd hfirst.occurs (hno p hle)
      · intro _
        obtain ⟨n, hlength, hn⟩ := length_call console (s := needle) (by omega)
        refine ⟨by omega, by omega, n, hlength, hn, ?_⟩
        rw [copy_call, hi, hn, Int.toNat_natCast, Int.toNat_natCast, ← String.length_toList,
          hfirst.occurs.take_drop, String.ofList_toList]
  · intro k
    obtain ⟨n, hlength, hn⟩ := length_call console hsize
    refine ⟨n, _, _, hlength, hn, copy_call .., copy_call .., ?_⟩
    have hall : (haystack.toList.drop k.toInt.toNat).take n.toInt.toNat =
        haystack.toList.drop k.toInt.toNat := by
      rw [hn, Int.toNat_natCast]
      exact List.take_of_length_le (by rw [List.length_drop, String.length_toList]; omega)
    have hzero : (0 : Int64).toInt.toNat = 0 := rfl
    rw [hall, hzero, List.drop_zero]
    change (Except.ok (Value.string (String.ofList _ ++ (String.ofList _ ++ ""))), console) = _
    rw [String.append_empty, ← String.ofList_append, List.take_append_drop, String.ofList_toList]

/-- A needle in a text of characters that take more than one byte each. The search begins after the
first one. -/
theorem search_coherent_wide :
    ∃ i n : Int64, pos.call [.string "äßä😀ä", .string "ä", .int 1] Console.empty =
      (.ok (.int i), Console.empty) ∧
      i.toInt = 2 ∧ length.call [.string "ä"] Console.empty = (.ok (.int n), Console.empty) ∧
      copy.call [.string "äßä😀ä", .int i, .int n] Console.empty =
        (.ok (.string "ä"), Console.empty) := by
  obtain ⟨i, hcall, -, -, hfound⟩ := (search_coherent "äßä😀ä" "ä" (by decide) Console.empty).1 1
  obtain rfl : 2 = i := by
    have h : (pos.call [.string "äßä😀ä", .string "ä", .int 1] Console.empty).1 = .ok (.int 2) := rfl
    simpa [hcall, eq_comm] using h
  obtain ⟨-, -, n, hlength, -, hcopy⟩ := hfound (by decide)
  exact ⟨2, n, hcall, rfl, hlength, hcopy⟩

/-! ### Replacing, round by round -/

/-- Replacing the occurrences one after the other, from a position on: `Pos` finds the next one,
what stands before it is copied, the replacement is put in its place, and the next round begins
after it. When nothing is found any more, the rest is copied. The result, and how many occurrences
were taken. -/
inductive Replacing (search replacement subject : String) (console : Console) :
    Int64 → String → Nat → Prop
  | last {start n i rest} :
      pos.call [.string subject, .string search, .int start] console = (.ok (.int i), console) →
      i.toInt = -1 →
      length.call [.string subject] console = (.ok (.int n), console) →
      copy.call [.string subject, .int start, .int n] console = (.ok (.string rest), console) →
      Replacing search replacement subject console start rest 0
  | next {start n i before rest count} :
      pos.call [.string subject, .string search, .int start] console = (.ok (.int i), console) →
      0 ≤ i.toInt →
      copy.call [.string subject, .int start, .int (i - start)] console =
        (.ok (.string before), console) →
      length.call [.string search] console = (.ok (.int n), console) →
      Replacing search replacement subject console (i + n) rest count →
      Replacing search replacement subject console start (before ++ replacement ++ rest) (count + 1)

variable {search replacement subject : String}

/-- What one round of replacing gives, read off the rest of the text. -/
def replacedFrom (search replacement subject : String) (start : Int) : List Char :=
  Text.replaceFrom search.toList replacement.toList 0 (subject.toList.drop start.toNat)

theorem replacedFrom_of_first {start : Int} {i : Nat} (hsearch : search ≠ "") (hstart : 0 ≤ start)
    (hfirst : FirstFrom search.toList subject.toList start i) :
    replacedFrom search replacement subject start =
      (subject.toList.drop start.toNat).take (i - start).toNat ++ replacement.toList ++
        replacedFrom search replacement subject (i + search.length) := by
  obtain ⟨start, rfl⟩ := Int.eq_ofNat_of_zero_le hstart
  have hle := hfirst.le
  have hend := hfirst.occurs.add_length_le
  obtain ⟨k, rfl⟩ : ∃ k, i = start + k := ⟨i - start, by omega⟩
  have hround := Text.replaceFrom_of_first replacement.toList (by simpa using hsearch)
    ((Text.firstFrom_drop (by omega)).2 hfirst)
  rw [List.drop_drop, String.length_toList, ← Nat.add_assoc] at hround
  have hk : ((start + k : Nat) - (start : Int)).toNat = k := by omega
  have hnext : ((start + k : Nat) + (search.length : Int)).toNat = start + k + search.length := by
    omega
  rw [replacedFrom, replacedFrom, Int.toNat_natCast, hk, hnext]
  exact hround

/-- The rounds give what replacing gives. Each one leaves less of the text. -/
theorem replacing_replacedFrom (replacement : String) (console : Console) (hsearch : search ≠ "")
    (hsize : subject.length < 2 ^ 63) (start : Int64) (hstart : 0 ≤ start.toInt)
    (hend : start.toInt ≤ subject.length) :
    ∃ count : Nat, Replacing search replacement subject console start
        (String.ofList (replacedFrom search replacement subject start.toInt)) count ∧
      ((replacedFrom search replacement subject start.toInt).length : Int) =
        subject.length - start.toInt + count * ((replacement.length : Int) - search.length) := by
  have hpos : 0 < search.length := Nat.pos_of_ne_zero (by simpa using hsearch)
  induction hleft : (subject.length - start.toInt).toNat using Nat.strongRecOn
    generalizing start with
  | ind left ih =>
    obtain ⟨i, hcall, ⟨hi, hno⟩ | ⟨k, hi, hend', -, hfirst⟩⟩ := pos_call hsize start
    · -- the last round: the rest is kept
      obtain ⟨n, hlength, hn⟩ := length_call console hsize
      have hrest : replacedFrom search replacement subject start.toInt =
          subject.toList.drop start.toInt.toNat := by
        refine Text.replaceFrom_of_none fun j hj => ?_
        exact hno (start.toInt.toNat + j) hstart (by omega)
          ((Text.occursAt_drop (by rw [String.length_toList]; omega)).1 hj)
      have hall : (subject.toList.drop start.toInt.toNat).take n.toInt.toNat =
          subject.toList.drop start.toInt.toNat :=
        List.take_of_length_le (by rw [List.length_drop, String.length_toList]; omega)
      refine ⟨0, ?_, ?_⟩
      · rw [hrest, ← hall]
        exact .last hcall hi hlength (copy_call ..)
      · rw [hrest, List.length_drop, String.length_toList]
        omega
    · have hle := hfirst.le
      obtain ⟨n, hlength, hn⟩ := length_call console (s := search) (by omega)
      have hnext : (i + n).toInt = k + search.length := by
        rw [Int64.toInt_add, hi, hn]
        exact Int.bmod_eq_of_le (by omega) (by omega)
      have hback : (i - start).toInt = k - start.toInt := by
        rw [Int64.toInt_sub, hi]
        exact Int.bmod_eq_of_le (by omega) (by omega)
      obtain ⟨count, hrounds, hcount⟩ := @ih _ (by omega) (i + n) (by omega) (by omega) rfl
      refine ⟨count + 1, ?_, ?_⟩
      · have hnow := Replacing.next hcall (by omega) (copy_call ..) hlength hrounds
        rw [hback, hnext] at hnow
        rw [replacedFrom_of_first hsearch hstart hfirst, String.ofList_append, String.ofList_append,
          String.ofList_toList]
        exact hnow
      · have hbefore : ((subject.toList.drop start.toInt.toNat).take
            (k - start.toInt).toNat).length = (k - start.toInt).toNat := by
          rw [List.length_take, List.length_drop, String.length_toList]
          omega
        rw [hnext] at hcount
        rw [replacedFrom_of_first hsearch hstart hfirst, List.length_append, List.length_append,
          hbefore, String.length_toList, Int.natCast_add, Int.natCast_add, hcount, Int.natCast_add,
          Int.add_mul]
        omega

theorem Replacing.unique {start : Int64} {r r' : String} {m m' : Nat}
    (h : Replacing search replacement subject console start r m)
    (h' : Replacing search replacement subject console start r' m') : r = r' ∧ m = m' := by
  induction h generalizing r' m' with
  | last hpos hi hlength hcopy =>
    cases h' with
    | last hpos' hi' hlength' hcopy' =>
      obtain rfl : _ = _ := by simpa [hlength] using hlength'
      exact ⟨by simpa [hcopy] using hcopy', rfl⟩
    | next hpos' hi' =>
      obtain rfl : _ = _ := by simpa [hpos] using hpos'
      exact absurd hi' (by omega)
  | next hpos hi hcopy hlength _ ih =>
    cases h' with
    | last hpos' hi' =>
      obtain rfl : _ = _ := by simpa [hpos] using hpos'
      exact absurd hi (by omega)
    | next hpos' hi' hcopy' hlength' hrest' =>
      obtain rfl : _ = _ := by simpa [hpos] using hpos'
      obtain rfl : _ = _ := by simpa [hlength] using hlength'
      obtain rfl : _ = _ := by simpa [hcopy] using hcopy'
      obtain ⟨rfl, rfl⟩ := ih hrest'
      exact ⟨rfl, rfl⟩

theorem strReplace_call (hsearch : search ≠ "") :
    strReplace.call [.string search, .string replacement, .string subject] console =
      (.ok (.string (String.ofList (replacedFrom search replacement subject 0))), console) := by
  have hne : search.toList.isEmpty = false := by simpa using hsearch
  change (Except.ok (Value.string (String.ofList (Text.replaceAll ..))), console) = _
  rw [Text.replaceAll, if_neg (by simp [hne])]
  rfl

theorem strReplace_call_empty (replacement subject : String) :
    strReplace.call [.string "", .string replacement, .string subject] console =
      (.ok (.string subject), console) := by
  change (Except.ok (Value.string (String.ofList subject.toList)), console) = _
  rw [String.ofList_toList]

/-- **Replacing is searching, round by round.** What `StrReplace` gives is what the rounds give, and
nothing else is; each occurrence that they take changes the length by the same amount.  A text that
is replaced by itself, and the empty text, leave the subject as it is. -/
theorem replace_iterates (search replacement subject : String) (console : Console) :
    (search ≠ "" → subject.length < 2 ^ 63 → ∃ (result : String) (count : Nat),
      strReplace.call [.string search, .string replacement, .string subject] console =
        (.ok (.string result), console) ∧
      (∀ r m, Replacing search replacement subject console 0 r m ↔ r = result ∧ m = count) ∧
      length.call [.string result] console = (.ok (.int (.ofInt result.length)), console) ∧
      (result.length : Int) = subject.length + count *
        ((replacement.length : Int) - search.length)) ∧
    strReplace.call [.string search, .string search, .string subject] console =
      (.ok (.string subject), console) ∧
    strReplace.call [.string "", .string replacement, .string subject] console =
      (.ok (.string subject), console) := by
  refine ⟨?_, ?_, ?_⟩
  · intro hsearch hsize
    obtain ⟨count, hrounds, hcount⟩ :=
      replacing_replacedFrom replacement console hsearch hsize 0 (by decide) (Int.natCast_nonneg _)
    rw [Int64.toInt_zero] at hrounds hcount
    refine ⟨_, count, strReplace_call hsearch, ?_, rfl, ?_⟩
    · intro r m
      refine ⟨fun h => h.unique hrounds, ?_⟩
      rintro ⟨rfl, rfl⟩
      exact hrounds
    · rw [← String.length_toList, String.toList_ofList, hcount, Int.sub_zero]
  · by_cases hsearch : search = ""
    · rw [hsearch]
      exact strReplace_call_empty ..
    · have hsame : replacedFrom search search subject 0 = subject.toList :=
        Text.replaceFrom_self (by simpa using hsearch) 0 _
      rw [strReplace_call hsearch, hsame, String.ofList_toList]
  · exact strReplace_call_empty ..

/-- Occurrences that overlap, and a replacement that holds what is searched for. -/
theorem replace_iterates_overlapping :
    ∃ (result : String) (count : Nat),
      strReplace.call [.string "aa", .string "aaä", .string "aaaaa"] Console.empty =
        (.ok (.string result), Console.empty) ∧
      Replacing "aa" "aaä" "aaaaa" Console.empty 0 result count ∧
      (result.length : Int) = 5 + count * (3 - 2) := by
  obtain ⟨result, count, hcall, hrounds, -, hlength⟩ :=
    (replace_iterates "aa" "aaä" "aaaaa" Console.empty).1 (by decide) (by decide)
  exact ⟨result, count, hcall, (hrounds result count).2 ⟨rfl, rfl⟩, hlength⟩

end Builtin

end BindScript
