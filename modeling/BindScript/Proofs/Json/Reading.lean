/-
**Written JSON is read.**

The reader takes the compact text of a value off the front of a text and leaves what follows it.
What it gives is the draft of the value: the value itself, except that arrays and objects that are
nested too deep are marked.  This needs two things.  The numbers of the value have to be read from
their own texts, which is for the caller to know; and what follows must not go on with a number,
which holds of the marks that stand after a value in an array or an object, and of the end of the
text.

Main results:

* `Json.readChars?_compact` — **a whole text**.
-/

import BindScript.Json.Reader
import BindScript.Json.Writer
import BindScript.Proofs.Decimal.Digits
import Mathlib.Data.List.Induction
import Mathlib.Data.List.TakeWhile

namespace BindScript.Json

/-! ### What follows a value -/

/-- The text does not begin with a character that can stand in a number. -/
def Stops (rest : List Char) : Prop := ∀ c, rest.head? = some c → c = ',' ∨ c = ']' ∨ c = '}'

theorem stops_nil : Stops [] := by
  intro c h
  cases h

variable {c : Char} {cs rest after : List Char}

theorem stops_cons (h : c = ',' ∨ c = ']' ∨ c = '}') (rest : List Char) :
    Stops (c :: rest) := by
  intro d hd
  obtain rfl : c = d := by simpa using hd
  exact h

theorem Stops.isDigit {rest : List Char} (h : Stops rest) {c : Char} (hc : rest.head? = some c) :
    c.isDigit = false := by
  rcases h c hc with rfl | rfl | rfl <;> decide

theorem Stops.takeWhile {rest : List Char} (h : Stops rest) (cs : List Char) :
    (cs ++ rest).takeWhile Char.isDigit = cs.takeWhile Char.isDigit := by
  induction cs with
  | nil =>
    cases rest with
    | nil => rfl
    | cons c rest => simp [h.isDigit (c := c) rfl]
  | cons d cs ih =>
    rw [List.cons_append, List.takeWhile_cons, List.takeWhile_cons, ih]

theorem Stops.dropWhile {rest : List Char} (h : Stops rest) (cs : List Char) :
    (cs ++ rest).dropWhile Char.isDigit = cs.dropWhile Char.isDigit ++ rest := by
  induction cs with
  | nil =>
    cases rest with
    | nil => rfl
    | cons c rest => simp [h.isDigit (c := c) rfl]
  | cons d cs ih =>
    rw [List.cons_append, List.dropWhile_cons, List.dropWhile_cons, ih]
    split <;> rfl

/-! ### Numbers -/

/-- A number is finite, and is read from its own text. -/
def Number.ReadsBack (n : Number) : Prop :=
  n.isFinite = true ∧ readNumber? n.write = some (n, [])

theorem readPart?_other (hc : c ≠ '.') (cs : List Char) :
    readPart? (c :: cs) = some ([], c :: cs) := by
  simp [readPart?, hc]

theorem readPart?_append {part : List Char} (h : Stops rest)
    (hread : readPart? cs = some (part, after)) :
    readPart? (cs ++ rest) = some (part, after ++ rest) := by
  cases cs with
  | nil =>
    obtain ⟨rfl, rfl⟩ : [] = part ∧ [] = after := by simpa [readPart?] using hread
    cases rest with
    | nil => rfl
    | cons c rest =>
      have hc : c ≠ '.' := by
        rcases h c rfl with rfl | rfl | rfl <;> decide
      exact readPart?_other hc rest
  | cons c cs =>
    by_cases hc : c = '.'
    · subst hc
      simp only [List.cons_append, readPart?, h.takeWhile, h.dropWhile] at hread ⊢
      split at hread
      · cases hread
      · rename_i hempty
        rw [if_neg hempty]
        obtain ⟨rfl, rfl⟩ : _ = part ∧ _ = after := by simpa using hread
        rfl
    · rw [readPart?_other hc] at hread
      obtain ⟨rfl, rfl⟩ : [] = part ∧ c :: cs = after := by simpa using hread
      exact readPart?_other hc (cs ++ rest)

theorem takeSign_append (h : Stops rest) :
    Decimal.takeSign (cs ++ rest) =
      ((Decimal.takeSign cs).1, (Decimal.takeSign cs).2 ++ rest) := by
  have hother : ∀ c tail, c ≠ '-' → c ≠ '+' →
      Decimal.takeSign (c :: tail) = (false, c :: tail) := by
    intro c tail hminus hplus
    simp [Decimal.takeSign, hminus, hplus]
  cases cs with
  | nil =>
    cases rest with
    | nil => rfl
    | cons c rest =>
      rcases h c rfl with rfl | rfl | rfl <;> rfl
  | cons c cs =>
    by_cases hminus : c = '-'
    · subst hminus
      rfl
    · by_cases hplus : c = '+'
      · subst hplus
        rfl
      · rw [List.cons_append, hother c _ hminus hplus, hother c _ hminus hplus]
        rfl

theorem readPower?_append {power : Option Int} (h : Stops rest)
    (hread : readPower? cs = some (power, after)) :
    readPower? (cs ++ rest) = some (power, after ++ rest) := by
  cases cs with
  | nil =>
    obtain ⟨rfl, rfl⟩ : none = power ∧ [] = after := by simpa [readPower?] using hread
    cases rest with
    | nil => rfl
    | cons c rest =>
      have hc : ¬(c = 'e' ∨ c = 'E') := by
        rcases h c rfl with rfl | rfl | rfl <;> decide
      rw [List.nil_append, readPower?, if_neg hc]
  | cons c cs =>
    by_cases hc : c = 'e' ∨ c = 'E'
    · simp only [List.cons_append, readPower?, if_pos hc, takeSign_append h, h.takeWhile,
        h.dropWhile] at hread ⊢
      split at hread
      · cases hread
      · rename_i hempty
        rw [if_neg hempty]
        obtain ⟨rfl, rfl⟩ : _ = power ∧ _ = after := by simpa using hread
        rfl
    · rw [readPower?, if_neg hc] at hread
      obtain ⟨rfl, rfl⟩ : none = power ∧ c :: cs = after := by simpa using hread
      rw [List.cons_append, readPower?, if_neg hc]

/-- The number of a text after its sign. -/
def readUnsigned? (negative : Bool) (cs : List Char) : Option (Number × List Char) :=
  let whole := cs.takeWhile Char.isDigit
  if whole.isEmpty || (whole.head? == some '0' && whole.length ≠ 1) then none
  else
    (readPart? (cs.dropWhile Char.isDigit)).bind fun (part, rest) =>
      (readPower? rest).map fun (power, rest) => (assemble negative whole part power, rest)

theorem readNumber?_minus (cs : List Char) : readNumber? ('-' :: cs) = readUnsigned? true cs := rfl

theorem readNumber?_of_ne (hc : c ≠ '-') (cs : List Char) :
    readNumber? (c :: cs) = readUnsigned? false (c :: cs) := by
  simp [readNumber?, readUnsigned?, hc]

theorem readUnsigned?_append {negative : Bool} {n : Number} (h : Stops rest)
    (hread : readUnsigned? negative cs = some (n, after)) :
    readUnsigned? negative (cs ++ rest) = some (n, after ++ rest) := by
  simp only [readUnsigned?, h.takeWhile, h.dropWhile] at hread ⊢
  split at hread
  · cases hread
  · rename_i hwhole
    rw [if_neg hwhole]
    obtain ⟨⟨part, after₁⟩, hpart, hread⟩ := Option.bind_eq_some_iff.1 hread
    obtain ⟨⟨power, after₂⟩, hpower, hread⟩ := Option.map_eq_some_iff.1 hread
    cases hread
    rw [readPart?_append h hpart, Option.bind_some, readPower?_append h hpower]
    rfl

theorem readNumber?_append {n : Number} (h : Stops rest)
    (hread : readNumber? cs = some (n, after)) :
    readNumber? (cs ++ rest) = some (n, after ++ rest) := by
  cases cs with
  | nil => simp [readNumber?] at hread
  | cons c cs =>
    by_cases hc : c = '-'
    · subst hc
      exact readUnsigned?_append h hread
    · rw [readNumber?_of_ne hc] at hread
      rw [List.cons_append, readNumber?_of_ne hc]
      exact readUnsigned?_append h hread

/-- The digits kept are all digits as long as they denote a number of 64 bits. -/
theorem foldl_addWhole (digits : List Char)
    (hfits : Decimal.natOfDigits digits < 0x10000000000000000) :
    digits.foldl Significand.addWhole ⟨0, 0, false⟩ = ⟨Decimal.natOfDigits digits, 0, false⟩ := by
  induction digits using List.reverseRecOn with
  | nil => rfl
  | append_singleton digits c ih =>
    have hlast : Decimal.natOfDigits (digits ++ [c]) =
        10 * Decimal.natOfDigits digits + (c.toNat - 48) := by
      simp [Decimal.natOfDigits]
    rw [hlast] at hfits ⊢
    rw [List.foldl_append, ih (by omega)]
    simp [Significand.addWhole, hfits]

theorem readUnsigned?_digitsOf (negative : Bool) (n : Nat) :
    readUnsigned? negative (Decimal.digitsOf n) =
      some (assemble negative (Decimal.digitsOf n) [] none, []) := by
  have htake : (Decimal.digitsOf n).takeWhile Char.isDigit = Decimal.digitsOf n :=
    List.takeWhile_eq_self_iff.2 fun c => Decimal.isDigit_of_mem_digitsOf
  have hdrop : (Decimal.digitsOf n).dropWhile Char.isDigit = [] :=
    List.dropWhile_eq_nil_iff.2 fun c => Decimal.isDigit_of_mem_digitsOf
  have hwhole : ¬((Decimal.digitsOf n).isEmpty ||
      ((Decimal.digitsOf n).head? == some '0' && (Decimal.digitsOf n).length ≠ 1)) = true := by
    by_cases hn : n = 0
    · subst hn
      decide
    · obtain ⟨c, rest, heq, hc⟩ := Decimal.head_digitsOf hn
      simp [heq, hc]
  simp only [readUnsigned?, htake, hdrop, if_neg hwhole, readPart?, readPower?, Option.bind_some,
    Option.map_some]

/-- An integer of 64 bits, with a sign or without, is read from its own text. -/
theorem Number.readsBack_int {n : Int} (hlow : -0x8000000000000000 ≤ n)
    (hhigh : n < 0x10000000000000000) : (Number.int n).ReadsBack := by
  have hfits : Decimal.natOfDigits (Decimal.digitsOf n.natAbs) < 0x10000000000000000 := by
    rw [Decimal.natOfDigits_digitsOf]
    omega
  have hkept := foldl_addWhole _ hfits
  rw [Decimal.natOfDigits_digitsOf] at hkept
  refine ⟨rfl, ?_⟩
  rw [Number.write, Decimal.toList_toString]
  split
  · rename_i hneg
    rw [readNumber?_minus, readUnsigned?_digitsOf]
    have hne : n.natAbs ≠ 0 := by omega
    have hle : n.natAbs ≤ 0x8000000000000000 := by omega
    have hval : -(n.natAbs : Int) = n := by omega
    have hread : assemble true (Decimal.digitsOf n.natAbs) [] none = .int (-(n.natAbs : Int)) := by
      simp [assemble, hkept, hne, hle]
    rw [hread, hval]
  · rename_i hpos
    obtain ⟨c, cs, hcons⟩ := List.exists_cons_of_ne_nil (Decimal.digitsOf_ne_nil n.natAbs)
    have hc : c.isDigit = true :=
      Decimal.isDigit_of_mem_digitsOf (n := n.natAbs) (by rw [hcons]; exact List.mem_cons_self)
    have hminus : c ≠ '-' := by
      rintro rfl
      cases hc
    have hval : (n.natAbs : Int) = n := by omega
    have hread : assemble false (Decimal.digitsOf n.natAbs) [] none = .int (n.natAbs : Int) := by
      simp [assemble, hkept]
    rw [hcons, readNumber?_of_ne hminus, ← hcons, readUnsigned?_digitsOf, hread, hval]

theorem Number.readsBack_zero : (Number.float 0.0).ReadsBack := by
  unfold Number.ReadsBack
  decide +kernel

/-! ### Strings -/

theorem hexValue?_hexDigit : ∀ n < 16, hexValue? (hexDigit n) = some n := by decide

theorem readUnits?_escapeChar (c : Char) (rest : List Char) :
    readUnits? (escapeChar c ++ rest) = (readUnits? rest).map (pushFront c.toNat) := by
  unfold escapeChar
  by_cases hquote : c = '"'
  · subst hquote
    simp [readUnits?, simpleEscape?]
  by_cases hslash : c = '\\'
  · subst hslash
    simp [readUnits?, simpleEscape?]
  by_cases hline : c = '\n'
  · subst hline
    simp [readUnits?, simpleEscape?]
  by_cases hreturn : c = '\r'
  · subst hreturn
    simp [readUnits?, simpleEscape?]
  by_cases htab : c = '\t'
  · subst htab
    simp [readUnits?, simpleEscape?]
  rw [if_neg hquote, if_neg hslash, if_neg hline, if_neg hreturn, if_neg htab]
  by_cases hback : c.toNat = 8
  · simp [hback, readUnits?, simpleEscape?]
  by_cases hfeed : c.toNat = 12
  · simp [hfeed, readUnits?, simpleEscape?]
  rw [if_neg hback, if_neg hfeed]
  by_cases hcontrol : c.toNat < 32
  · -- other control characters are written with four hexadecimal digits
    have hhigh := hexValue?_hexDigit (c.toNat / 16) (by omega)
    have hlow := hexValue?_hexDigit (c.toNat % 16) (by omega)
    have hunit : c.toNat / 16 * 16 + c.toNat % 16 = c.toNat := by omega
    have hzero : hexValue? '0' = some 0 := by decide
    simp [hcontrol, readUnits?, hexValue4?, hhigh, hlow, hzero, hunit]
  · simp [hcontrol, readUnits?, hslash]

theorem readUnits?_quote (s : String) (rest : List Char) :
    readUnits? (s.toList.flatMap escapeChar ++ '"' :: rest) =
      some (s.toList.map Char.toNat, rest) := by
  induction s.toList with
  | nil => rfl
  | cons c cs ih => rw [List.flatMap_cons, List.append_assoc, readUnits?_escapeChar, ih]; rfl

/-- No character is one half of a surrogate pair. -/
theorem joinPairs?_units (cs : List Char) : joinPairs? (cs.map Char.toNat) = some cs := by
  induction cs with
  | nil => rfl
  | cons c cs ih =>
    have hvalid : c.toNat < 0xD800 ∨ 0xDFFF < c.toNat := by
      rcases c.valid with h | h
      · exact .inl h
      · exact .inr h.1
    have hlow : isLowHalf c.toNat = false := by
      simp only [isLowHalf, Bool.and_eq_false_iff, decide_eq_false_iff_not]
      omega
    have hhigh : isHighHalf c.toNat = false := by
      simp only [isHighHalf, Bool.and_eq_false_iff, decide_eq_false_iff_not]
      omega
    rw [List.map_cons, joinPairs?.eq_def]
    simp [hlow, hhigh, ih]

/-! ### Values -/

mutual

/-- Every number of a value is read from its own text. -/
def ReadsBack : Json → Prop
  | .null | .bool _ | .string _ => True
  | .number n => n.ReadsBack
  | .array items => ItemsReadBack items
  | .object members => MembersReadBack members

/-- Every number of the items is read from its own text. -/
def ItemsReadBack : List Json → Prop
  | [] => True
  | item :: items => item.ReadsBack ∧ ItemsReadBack items

/-- Every number of the members is read from its own text. -/
def MembersReadBack : List (String × Json) → Prop
  | [] => True
  | (_, value) :: members => value.ReadsBack ∧ MembersReadBack members

end

mutual

/-- The draft of a value where arrays and objects may be nested so deep: what is deeper is
marked. -/
def draft (depth : Nat) : Json → Draft
  | .null => .null
  | .bool b => .bool b
  | .number n => .number n
  | .string s => .string s
  | .array items => arrayDraft depth (draftItems (depth - 1) items)
  | .object members => objectDraft depth (some (draftMembers (depth - 1) members))

def draftItems (depth : Nat) : List Json → List Draft
  | [] => []
  | item :: items => item.draft depth :: draftItems depth items

def draftMembers (depth : Nat) : List (String × Json) → List (String × Draft)
  | [] => []
  | (name, value) :: members => (name, value.draft depth) :: draftMembers depth members

end

theorem skipSpace_cons (hc : isSpace c = false) (cs : List Char) :
    skipSpace (c :: cs) = c :: cs := by
  simp [skipSpace, hc]

theorem isSpace_of_isDigit (hc : c.isDigit = true) : isSpace c = false := by
  have hspace : ∀ d, isSpace d = true → d.isDigit = false := by
    intro d hd
    simp only [isSpace, Bool.or_eq_true, beq_iff_eq] at hd
    rcases hd with ((rfl | rfl) | rfl) | rfl <;> decide
  cases h : isSpace c with
  | false => rfl
  | true => rw [hspace c h] at hc; exact absurd hc (by decide)

/-- A text that begins with a minus sign or a digit. -/
def BeginsNumber (cs : List Char) : Prop := ∃ c tail, cs = c :: tail ∧ (c = '-' ∨ c.isDigit = true)

theorem beginsNumber_of_readNumber? {r : Number × List Char} (h : readNumber? cs = some r) :
    BeginsNumber cs := by
  cases cs with
  | nil => simp [readNumber?] at h
  | cons c cs =>
    refine ⟨c, cs, rfl, ?_⟩
    by_cases hc : c = '-'
    · exact .inl hc
    · refine .inr ?_
      by_contra hdigit
      rw [readNumber?_of_ne hc] at h
      simp [readUnsigned?, hdigit] at h

theorem readValue?_number (hcs : BeginsNumber cs) (fuel depth : Nat) :
    readValue? (fuel + 1) depth cs =
      (readNumber? cs).map fun (n, rest) => (numberDraft n, rest) := by
  obtain ⟨c, tail, rfl, hc⟩ := hcs
  have hspace : isSpace c = false := by
    rcases hc with rfl | hc
    · rfl
    · exact isSpace_of_isDigit hc
  rw [readValue?, skipSpace_cons hspace]
  split
  case h_1 heq => cases heq
  case h_8 heq =>
    cases heq
    exact if_pos hc
  -- the other texts begin with neither
  all_goals
    rename_i heq
    obtain ⟨rfl, -⟩ := List.cons.inj heq
    exact absurd hc (by decide)

theorem compact_head {j : Json} (hj : j.ReadsBack) :
    ∃ c cs, j.compact = c :: cs ∧ isSpace c = false ∧ c ≠ ']' := by
  cases j with
  | null => exact ⟨'n', _, rfl, rfl, by decide⟩
  | bool b =>
    cases b with
    | true => exact ⟨'t', _, rfl, rfl, by decide⟩
    | false => exact ⟨'f', _, rfl, rfl, by decide⟩
  | number n =>
    have hj : n.ReadsBack := hj
    obtain ⟨c, cs, heq, hc⟩ := beginsNumber_of_readNumber? hj.2
    refine ⟨c, cs, heq, ?_⟩
    rcases hc with rfl | hc
    · exact ⟨rfl, by decide⟩
    · refine ⟨isSpace_of_isDigit hc, ?_⟩
      rintro rfl
      cases hc
  | string s => exact ⟨'"', _, rfl, rfl, by decide⟩
  | array items => exact ⟨'[', _, rfl, rfl, by decide⟩
  | object members => exact ⟨'\x7b', _, rfl, rfl, by decide⟩

theorem compactItems_cons (item : Json) {items : List Json} (h : items ≠ []) :
    compactItems (item :: items) = item.compact ++ ',' :: compactItems items := by
  cases items with
  | nil => exact absurd rfl h
  | cons next items => rfl

theorem compactMembers_cons (name : String) (value : Json) {members : List (String × Json)}
    (h : members ≠ []) :
    compactMembers ((name, value) :: members) =
      quote name ++ ':' :: value.compact ++ ',' :: compactMembers members := by
  cases members with
  | nil => exact absurd rfl h
  | cons next members => rfl

theorem compactItems_head {items : List Json} (h : items ≠ []) (hitems : ItemsReadBack items) :
    ∃ c cs, compactItems items = c :: cs ∧ isSpace c = false ∧ c ≠ ']' := by
  cases items with
  | nil => exact absurd rfl h
  | cons item items =>
    obtain ⟨c, cs, heq, hc⟩ := compact_head hitems.1
    cases items with
    | nil => exact ⟨c, cs, heq, hc⟩
    | cons next items => exact ⟨c, _, by rw [compactItems_cons item (by simp), heq]; rfl, hc⟩

theorem compactMembers_head {members : List (String × Json)} (h : members ≠ []) :
    ∃ cs, compactMembers members = '"' :: cs := by
  cases members with
  | nil => exact absurd rfl h
  | cons member members =>
    obtain ⟨name, value⟩ := member
    cases members with
    | nil => exact ⟨_, rfl⟩
    | cons next members => exact ⟨_, rfl⟩

mutual

/-- **The reader takes the text of a value off the front**, with fuel for two steps a character. -/
theorem readValue?_compact (fuel depth : Nat) {rest : List Char} (hrest : Stops rest) :
    (j : Json) → j.ReadsBack → 2 * j.compact.length ≤ fuel →
      readValue? fuel depth (j.compact ++ rest) = some (j.draft depth, rest)
  | .null, _, hfuel => by
      obtain ⟨fuel, rfl⟩ : ∃ f, fuel = f + 1 := ⟨fuel - 1, by simp [compact] at hfuel; omega⟩
      rfl
  | .bool true, _, hfuel => by
      obtain ⟨fuel, rfl⟩ : ∃ f, fuel = f + 1 := ⟨fuel - 1, by simp [compact] at hfuel; omega⟩
      rfl
  | .bool false, _, hfuel => by
      obtain ⟨fuel, rfl⟩ : ∃ f, fuel = f + 1 := ⟨fuel - 1, by simp [compact] at hfuel; omega⟩
      rfl
  | .number n, hj, hfuel => by
      have hj : n.ReadsBack := hj
      have hread := readNumber?_append hrest hj.2
      obtain ⟨c, cs, heq, -⟩ := beginsNumber_of_readNumber? hj.2
      obtain ⟨fuel, rfl⟩ : ∃ f, fuel = f + 1 := ⟨fuel - 1, by simp [compact, heq] at hfuel; omega⟩
      have hdraft : numberDraft n = .number n := if_pos hj.1
      rw [compact, readValue?_number (beginsNumber_of_readNumber? hread), hread]
      exact congrArg (fun d => some (d, rest)) hdraft
  | .string s, _, hfuel => by
      obtain ⟨fuel, rfl⟩ : ∃ f, fuel = f + 1 := ⟨fuel - 1, by simp [compact, quote] at hfuel; omega⟩
      have htext : (Json.string s).compact ++ rest =
          '"' :: (s.toList.flatMap escapeChar ++ '"' :: rest) := by
        simp [compact, quote]
      rw [htext, readValue?, skipSpace_cons rfl]
      simp only [readUnits?_quote, Option.map_some, stringDraft, joinPairs?_units,
        String.ofList_toList]
      rfl
  | .array items, hj, hfuel => by
      have hj : ItemsReadBack items := hj
      obtain ⟨fuel, rfl⟩ : ∃ f, fuel = f + 1 := ⟨fuel - 1, by simp [compact] at hfuel; omega⟩
      have htext : (Json.array items).compact ++ rest =
          '[' :: (compactItems items ++ ']' :: rest) := by
        simp [compact]
      rw [htext, readValue?, skipSpace_cons rfl]
      by_cases hitems : items = []
      · subst hitems
        rfl
      · -- no item begins with the closing bracket
        obtain ⟨c, cs, heq, hspace, hbracket⟩ := compactItems_head hitems hj
        have hread := readItems?_compact fuel (depth - 1) rest items hitems hj
          (by simp [compact] at hfuel; omega)
        simp only [heq, List.cons_append, skipSpace_cons hspace] at hread ⊢
        split
        · rename_i hcons
          exact absurd (List.cons.inj hcons).1 hbracket
        · rw [hread]
          rfl
  | .object members, hj, hfuel => by
      have hj : MembersReadBack members := hj
      obtain ⟨fuel, rfl⟩ : ∃ f, fuel = f + 1 := ⟨fuel - 1, by simp [compact] at hfuel; omega⟩
      have htext : (Json.object members).compact ++ rest =
          '\x7b' :: (compactMembers members ++ '\x7d' :: rest) := by
        simp [compact]
      rw [htext, readValue?, skipSpace_cons rfl]
      by_cases hmembers : members = []
      · subst hmembers
        rfl
      · obtain ⟨cs, heq⟩ := compactMembers_head hmembers
        have hread := readMembers?_compact fuel (depth - 1) rest members hmembers hj
          (by simp [compact] at hfuel; omega)
        simp only [heq, List.cons_append, skipSpace_cons (c := '"') rfl] at hread ⊢
        exact congrArg (Option.map fun (v, rest) => (objectDraft depth v, rest)) hread

/-- The same for the items of an array, up to its closing bracket. -/
theorem readItems?_compact (fuel depth : Nat) (rest : List Char) :
    (items : List Json) → items ≠ [] → ItemsReadBack items →
      2 * (compactItems items).length + 1 ≤ fuel →
      readItems? fuel depth (compactItems items ++ ']' :: rest) =
        some (draftItems depth items, rest)
  | [], h, _, _ => absurd rfl h
  | item :: items, _, hitems, hfuel => by
      obtain ⟨fuel, rfl⟩ : ∃ f, fuel = f + 1 := ⟨fuel - 1, by omega⟩
      by_cases hmore : items = []
      · subst hmore
        have hitem := readValue?_compact fuel depth
          (stops_cons (.inr (.inl rfl)) rest) item hitems.1
          (by simp only [compactItems] at hfuel; omega)
        rw [compactItems, readItems?, hitem]
        rfl
      · have hlength := congrArg List.length (compactItems_cons item hmore)
        simp only [List.length_append, List.length_cons] at hlength
        have hitem := readValue?_compact fuel depth
          (stops_cons (.inl rfl) (compactItems items ++ ']' :: rest)) item hitems.1 (by omega)
        have hrest := readItems?_compact fuel depth rest items hmore hitems.2 (by omega)
        rw [compactItems_cons item hmore, List.append_assoc, List.cons_append, readItems?, hitem]
        simp only [skipSpace_cons (c := ',') rfl, hrest]
        rfl

/-- The same for the members of an object, up to its closing brace. -/
theorem readMembers?_compact (fuel depth : Nat) (rest : List Char) :
    (members : List (String × Json)) → members ≠ [] → MembersReadBack members →
      2 * (compactMembers members).length + 1 ≤ fuel →
      readMembers? fuel depth (compactMembers members ++ '\x7d' :: rest) =
        some (some (draftMembers depth members), rest)
  | [], h, _, _ => absurd rfl h
  | (name, value) :: members, _, hmembers, hfuel => by
      obtain ⟨fuel, rfl⟩ : ∃ f, fuel = f + 1 := ⟨fuel - 1, by omega⟩
      have hquote : ∀ after, quote name ++ after =
          '"' :: (name.toList.flatMap escapeChar ++ '"' :: after) := by
        intro after
        simp [quote]
      by_cases hmore : members = []
      · subst hmore
        have hvalue := readValue?_compact fuel depth
          (stops_cons (.inr (.inr rfl)) rest) value hmembers.1
          (by simp [compactMembers] at hfuel; omega)
        rw [compactMembers, List.append_assoc, hquote, readMembers?, skipSpace_cons rfl]
        simp only [readUnits?_quote, List.cons_append, skipSpace_cons (c := ':') rfl, hvalue,
          skipSpace_cons (c := '\x7d') rfl, consMember, joinPairs?_units, String.ofList_toList]
        rfl
      · have hlength := congrArg List.length (compactMembers_cons name value hmore)
        simp only [List.length_append, List.length_cons] at hlength
        have hvalue := readValue?_compact fuel depth
          (stops_cons (.inl rfl) (compactMembers members ++ '\x7d' :: rest))
            value hmembers.1 (by omega)
        have hrest := readMembers?_compact fuel depth rest members hmore hmembers.2 (by omega)
        rw [compactMembers_cons name value hmore, List.append_assoc, List.append_assoc, hquote,
          readMembers?, skipSpace_cons rfl]
        simp only [readUnits?_quote, List.cons_append, skipSpace_cons (c := ':') rfl, hvalue,
          skipSpace_cons (c := ',') rfl, hrest, Option.map_some, consMember, joinPairs?_units,
          String.ofList_toList]
        rfl

end

/-- **The compact text of a value is read as its draft.** -/
theorem readChars?_compact {j : Json} (hj : j.ReadsBack) :
    readChars? j.compact = some (j.draft maxDepth) := by
  have hread := readValue?_compact (2 * j.compact.length + 2) maxDepth stops_nil j hj (by omega)
  rw [List.append_nil] at hread
  rw [readChars?, hread]
  rfl

end BindScript.Json
