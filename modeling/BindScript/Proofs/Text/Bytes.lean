/-
**The search on bytes.**

The bytes of a character are never the beginning of those of another one, and the byte that a
character begins with never stands inside of one.  So the bytes of a text can only be found where
the text itself is found: the search on bytes and the search on characters come to the same place,
which is an offset for the one and a position for the other.

Main results:

* `Text.indexOf?_bytes` — **a text is found in the bytes where it is found in the characters**.
-/

import BindScript.Text.Search

namespace BindScript.Text

/-! ### Characters -/

theorem beginsChar_ofNat {n : Nat} (h : n < 256) :
    beginsChar (UInt8.ofNat n) = decide (n < 128 ∨ 192 ≤ n) := by
  rw [beginsChar, Bool.eq_iff_iff, Bool.or_eq_true, decide_eq_true_iff, decide_eq_true_iff,
    decide_eq_true_iff, UInt8.lt_iff_toNat_lt, UInt8.le_iff_toNat_le, UInt8.toNat_ofNat_of_lt' h]
  rfl

/-- A character has one byte with which it begins, and that is its first one. -/
theorem utf8EncodeChar_eq_cons (c : Char) :
    ∃ b bs, String.utf8EncodeChar c = b :: bs ∧ beginsChar b = true ∧
      ∀ x ∈ bs, beginsChar x = false := by
  have hfirst : ∀ n, n < 256 → n < 128 ∨ 192 ≤ n → beginsChar (UInt8.ofNat n) = true := by
    intro n hn hbegins
    rw [beginsChar_ofNat hn]
    exact decide_eq_true hbegins
  have hnone : ∀ x ∈ ([] : List UInt8), beginsChar x = false := by simp
  have hnext : ∀ (n : Nat) (bs : List UInt8), (∀ x ∈ bs, beginsChar x = false) →
      ∀ x ∈ UInt8.ofNat (n % 64 + 128) :: bs, beginsChar x = false := by
    intro n bs hbs
    refine List.forall_mem_cons.2 ⟨?_, hbs⟩
    rw [beginsChar_ofNat (by omega)]
    exact decide_eq_false (by omega)
  -- one to four bytes, as large as the character is
  unfold String.utf8EncodeChar
  simp only
  split
  · exact ⟨_, _, rfl, hfirst _ (by omega) (by omega), hnone⟩
  · split
    · exact ⟨_, _, rfl, hfirst _ (by omega) (by omega), hnext _ _ hnone⟩
    · split
      · exact ⟨_, _, rfl, hfirst _ (by omega) (by omega), hnext _ _ (hnext _ _ hnone)⟩
      · exact ⟨_, _, rfl, hfirst _ (by omega) (by omega),
          hnext _ _ (hnext _ _ (hnext _ _ hnone))⟩

/-- The bytes of a character are never the beginning of those of another one. -/
theorem eq_of_utf8EncodeChar_append {c d : Char} {xs ys : List UInt8}
    (h : String.utf8EncodeChar c ++ xs = String.utf8EncodeChar d ++ ys) : c = d := by
  have hc := ByteArray.utf8DecodeChar?_utf8EncodeChar_append (c := c) (b := xs.toByteArray)
  rw [← List.toByteArray_append, h, List.toByteArray_append,
    ByteArray.utf8DecodeChar?_utf8EncodeChar_append] at hc
  exact (Option.some.inj hc).symm

/-! ### Texts -/

variable {needle text : List Char}

theorem bytes_cons (c : Char) (text : List Char) :
    bytes (c :: text) = String.utf8EncodeChar c ++ bytes text :=
  List.flatMap_cons

theorem bytes_append (text text' : List Char) : bytes (text ++ text') = bytes text ++ bytes text' :=
  List.flatMap_append

theorem countChars_bytes (text : List Char) : countChars (bytes text) = text.length := by
  induction text with
  | nil => rfl
  | cons c text ih =>
    obtain ⟨b, bs, hc, hb, hbs⟩ := utf8EncodeChar_eq_cons c
    have hnone : bs.countP beginsChar = 0 := List.countP_eq_zero.2 (by simpa using hbs)
    unfold countChars at ih ⊢
    rw [bytes_cons, hc, List.countP_append, List.countP_cons_of_pos hb, hnone, ih, List.length_cons]
    omega

/-- Bytes begin with other bytes exactly if the texts do. -/
theorem bytes_begin_iff : bytes needle <+: bytes text ↔ needle <+: text := by
  induction needle generalizing text with
  | nil => simp [bytes]
  | cons c needle ih =>
    cases text with
    | nil =>
      obtain ⟨b, bs, hc, -⟩ := utf8EncodeChar_eq_cons c
      simp [bytes, hc]
    | cons d text =>
      rw [List.cons_prefix_cons, bytes_cons, bytes_cons]
      constructor
      · rintro ⟨rest, h⟩
        rw [List.append_assoc] at h
        obtain rfl := eq_of_utf8EncodeChar_append h
        exact ⟨rfl, ih.1 ⟨rest, List.append_cancel_left h⟩⟩
      · rintro ⟨rfl, h⟩
        exact (List.prefix_append_right_inj _).2 (ih.2 h)

theorem isPrefixOf_bytes : (bytes needle).isPrefixOf (bytes text) = needle.isPrefixOf text := by
  rw [Bool.eq_iff_iff, List.isPrefixOf_iff_prefix, List.isPrefixOf_iff_prefix, bytes_begin_iff]

/-! ### Searching -/

theorem indexOf?_of_begins {α : Type} [BEq α] {needle as : List α}
    (h : needle.isPrefixOf as = true) : indexOf? needle as = some 0 := by
  cases as with
  | nil =>
    cases needle with
    | nil => rfl
    | cons a needle => cases h
  | cons a as => rw [indexOf?, if_pos h]

/-- Nothing is found at bytes with which no character begins. -/
theorem indexOf?_append {b : UInt8} {bs xs ys : List UInt8} (hb : beginsChar b = true)
    (hxs : ∀ x ∈ xs, beginsChar x = false) :
    indexOf? (b :: bs) (xs ++ ys) = (indexOf? (b :: bs) ys).map (· + xs.length) := by
  induction xs with
  | nil => simp
  | cons x xs ih =>
    obtain ⟨hx, hrest⟩ := List.forall_mem_cons.1 hxs
    have hne : b ≠ x := by
      rintro rfl
      simp [hx] at hb
    rw [List.cons_append, indexOf?, if_neg (by simp [List.isPrefixOf, hne]), ih hrest,
      Option.map_map]
    rfl

/-- **A text is found in the bytes where it is found in the characters.** -/
theorem indexOf?_bytes (needle text : List Char) :
    indexOf? (bytes needle) (bytes text) =
      (indexOf? needle text).map fun i => (bytes (text.take i)).length := by
  by_cases hprefix : needle.isPrefixOf text = true
  · rw [indexOf?_of_begins hprefix, indexOf?_of_begins (isPrefixOf_bytes.trans hprefix)]
    rfl
  · cases needle with
    | nil => exact absurd List.isPrefixOf_nil_left hprefix
    | cons d needle =>
      obtain ⟨b', bs', hd, hb', -⟩ := utf8EncodeChar_eq_cons d
      have hneedle : bytes (d :: needle) = b' :: (bs' ++ bytes needle) := by
        rw [bytes_cons, hd, List.cons_append]
      induction text with
      | nil => rw [hneedle]; rfl
      | cons c text ih =>
        obtain ⟨b, bs, hc, -, hbs⟩ := utf8EncodeChar_eq_cons c
        have hlength : ∀ i, (bytes ((c :: text).take (i + 1))).length =
            (bytes (text.take i)).length + bs.length + 1 := by
          intro i
          rw [List.take_succ_cons, bytes_cons, hc, List.length_append, List.length_cons]
          omega
        have htext : bytes (c :: text) = b :: (bs ++ bytes text) := by
          rw [bytes_cons, hc, List.cons_append]
        have hrest : indexOf? (bytes (d :: needle)) (bytes text) =
            (indexOf? (d :: needle) text).map fun i => (bytes (text.take i)).length := by
          by_cases hnext : (d :: needle).isPrefixOf text = true
          · rw [indexOf?_of_begins hnext, indexOf?_of_begins (isPrefixOf_bytes.trans hnext)]
            rfl
          · exact ih hnext
        -- the first byte is no place for the needle, and neither are the others of its character
        have hbytes : (bytes (d :: needle)).isPrefixOf (bytes (c :: text)) ≠ true := by
          rwa [isPrefixOf_bytes]
        rw [htext] at hbytes
        rw [indexOf?, if_neg hprefix, htext, indexOf?, if_neg hbytes]
        rw [hneedle] at hrest ⊢
        rw [indexOf?_append hb' hbs, hrest]
        simp only [Option.map_map]
        congr 1
        funext i
        exact (hlength i).symm

/-! ### Offsets -/

/-- The offsets of all characters and of the end, by the positions. -/
theorem getElem?_starts (i : Nat) (text : List Char) (j : Nat) :
    (starts i text ++ [i + (bytes text).length])[j]? =
      if j ≤ text.length then some (i + (bytes (text.take j)).length) else none := by
  induction text generalizing i j with
  | nil =>
    cases j with
    | zero => rfl
    | succ j => rfl
  | cons c text ih =>
    cases j with
    | zero => simp [starts, bytes]
    | succ j =>
      have hnext := ih (i + c.utf8Size) j
      rw [bytes_cons, List.length_append, String.length_utf8EncodeChar, ← Nat.add_assoc, starts,
        List.cons_append, List.getElem?_cons_succ, hnext, List.take_succ_cons, bytes_cons,
        List.length_append, String.length_utf8EncodeChar, ← Nat.add_assoc]
      simp

theorem isBoundary_bytes (before after : List Char) :
    isBoundary (bytes (before ++ after)) (bytes before).length = true := by
  rw [isBoundary, bytes_append, List.getElem?_append_right (Nat.le_refl _), Nat.sub_self]
  cases after with
  | nil => simp [bytes]
  | cons c after =>
    obtain ⟨b, bs, hc, hb, -⟩ := utf8EncodeChar_eq_cons c
    simp [bytes_cons, hc, hb]

theorem sliceFrom?_bytes (before after : List Char) :
    sliceFrom? (bytes (before ++ after)) (bytes before).length = some (bytes after) := by
  rw [sliceFrom?, if_pos (isBoundary_bytes before after), bytes_append, List.drop_left]

theorem sliceTo?_bytes (before after : List Char) :
    sliceTo? (bytes (before ++ after)) (bytes before).length = some (bytes before) := by
  rw [sliceTo?, if_pos (isBoundary_bytes before after), bytes_append, List.take_left]

end BindScript.Text
