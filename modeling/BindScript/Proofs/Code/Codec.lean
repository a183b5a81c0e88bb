/-
**Programs and their texts.**

The text of a program is cut at the separators into the texts of its instructions, because a piece
has no separator in it that is not escaped.  So a program is read from its own text exactly if each
instruction is.  The one thing that stands in the way for an ordinary valid program is the depth of
its slots: the reader takes no more than 127 brackets inside each other, and a record takes two.

Main results:

* `split_joined` — **joined texts are split again**, with every separator that is accepted;
* `Code.decode_encode` — **ordinary valid programs are read from their texts**, if their records
  are not nested too deep, and compiled programs are of this kind;
* `Code.decode_encode_of_decode` — **every text is read as a program that is read from its own
  text**, with every separator.
-/

import BindScript.Proofs.Code.Nesting
import BindScript.Proofs.Code.Ordinary
import BindScript.Proofs.Text.Escaped

namespace BindScript

/-! ### Pieces -/

theorem checkSeparator_eq_ok {separator : String} {first : Char}
    (h : checkSeparator separator = .ok first) :
    first ≠ '\\' ∧ ∃ more, separator.toList = first :: more := by
  unfold checkSeparator at h
  split at h
  · cases h
  · cases h
  · rename_i c more hslash hlist
    obtain rfl : c = first := by simpa using h
    exact ⟨hslash, more, hlist⟩

theorem split_join_of_checkSeparator {separator : String} {first : Char}
    (hseparator : checkSeparator separator = .ok first) {pieces : List (List Char)}
    (hpieces : pieces ≠ []) :
    Text.Escaped.split separator.toList (Text.Escaped.join separator.toList first pieces) =
      pieces := by
  obtain ⟨hfirst, more, hlist⟩ := checkSeparator_eq_ok hseparator
  rw [hlist]
  exact Text.Escaped.split_join hfirst pieces hpieces

/-- **Texts that are escaped for the first character of a separator and joined by it are split into
the same texts again**, with every separator that is accepted. Only its first character is looked
at: the others may repeat it or be backslashes, and a text may end in a part of the separator. -/
theorem split_joined {separator : String} {first : Char}
    (hseparator : checkSeparator separator = .ok first) {texts : List String}
    (htexts : texts ≠ []) :
    separator.toList.head? = some first ∧
      (Text.Escaped.split separator.toList (separator.toList.intercalate
        (texts.map fun text => Text.Escaped.escape first text.toList))).map
          String.ofList = texts := by
  obtain ⟨-, more, hlist⟩ := checkSeparator_eq_ok hseparator
  refine ⟨by rw [hlist, List.head?_cons], ?_⟩
  have hjoin : separator.toList.intercalate
      (texts.map fun text => Text.Escaped.escape first text.toList) =
      Text.Escaped.join separator.toList first (texts.map String.toList) := by
    rw [Text.Escaped.join, List.map_map]
    rfl
  rw [hjoin, split_join_of_checkSeparator hseparator (by simpa using htexts), List.map_map]
  simp [Function.comp_def]

/-- A separator that repeats its first character after a backslash, and texts that end in parts of
it. -/
theorem split_joined_overlapping :
    checkSeparator "|\\|" = .ok '|' ∧
      (Text.Escaped.split "|\\|".toList ("|\\|".toList.intercalate
        (["a|", "\\\\", "", "|\\"].map fun text => Text.Escaped.escape '|' text.toList))).map
          String.ofList =
        ["a|", "\\\\", "", "|\\"] :=
  have hseparator : checkSeparator "|\\|" = .ok '|' := rfl
  ⟨hseparator, (split_joined hseparator (by simp)).2⟩

theorem Instruction.writeChars_ne_nil (i : Instruction) : i.writeChars ≠ [] := by
  cases i with
  | bool b => cases b <;> simp [writeChars]
  | binary op => cases op <;> decide
  | _ => simp [writeChars]

namespace Code

variable {separator : String} {first : Char} {code : Code}

theorem readPieces_writeChars :
    readPieces (code.map Instruction.writeChars) = .ok code ↔
      ∀ i ∈ code, Instruction.readChars i.writeChars = .ok i := by
  induction code with
  | nil => simp [readPieces]
  | cons i code ih =>
    rw [List.map_cons, readPieces, except_bind_eq_ok, List.forall_mem_cons, ← ih]
    constructor
    · rintro ⟨j, hj, h⟩
      obtain ⟨rest, hrest, heq⟩ := except_bind_eq_ok.1 h
      obtain ⟨rfl, rfl⟩ := List.cons.inj (Except.ok.inj heq)
      exact ⟨hj, hrest⟩
    · rintro ⟨hi, hrest⟩
      exact ⟨i, hi, except_bind_eq_ok.2 ⟨code, hrest, rfl⟩⟩

/-- The text of a program is cut into the texts of its instructions. -/
theorem split_encode (hseparator : checkSeparator separator = .ok first) (hcode : code ≠ []) :
    Text.Escaped.split separator.toList (code.encode separator).toList =
      code.map Instruction.writeChars := by
  obtain ⟨-, more, hlist⟩ := checkSeparator_eq_ok hseparator
  have hhead : separator.toList.headD '\\' = first := by rw [hlist, List.headD_cons]
  rw [encode, String.toList_ofList, encodeChars, hhead]
  exact split_join_of_checkSeparator hseparator (by simpa using hcode)

theorem encode_ne_empty (hseparator : checkSeparator separator = .ok first) (hcode : code ≠ []) :
    code.encode separator ≠ "" := by
  intro hempty
  have hsplit := split_encode hseparator hcode
  rw [hempty] at hsplit
  -- the empty text has one piece, which is empty
  obtain ⟨i, hi, hnil⟩ : ∃ i ∈ code, i.writeChars = [] := by
    have hmem : ([] : List Char) ∈ code.map Instruction.writeChars := by
      rw [← hsplit]
      exact List.mem_cons_self
    exact List.mem_map.1 hmem
  exact i.writeChars_ne_nil hnil

/-- What a text is read as: the empty text as the empty program, any other one piece by piece. -/
theorem decode_eq_ok {text : String} :
    decode separator text = .ok code ↔
      (∃ first, checkSeparator separator = .ok first) ∧
        (text = "" ∧ code = [] ∨
          text ≠ "" ∧ readPieces (Text.Escaped.split separator.toList text.toList) = .ok code ∧
            code.validate = .ok ()) := by
  rw [decode, except_bind_eq_ok, ← exists_and_right]
  refine exists_congr fun first => and_congr_right fun _ => ?_
  by_cases htext : text = ""
  · rw [if_pos (by simpa using htext)]
    constructor
    · intro h
      exact .inl ⟨htext, (Except.ok.inj h).symm⟩
    · rintro (⟨-, rfl⟩ | ⟨hne, -⟩)
      · rfl
      · exact absurd htext hne
  · rw [if_neg (by simpa using htext), except_bind_eq_ok]
    constructor
    · rintro ⟨code', hread, h⟩
      obtain ⟨_, hvalid, heq⟩ := except_bind_eq_ok.1 h
      cases heq
      exact .inr ⟨htext, hread, hvalid⟩
    · rintro (⟨hempty, -⟩ | ⟨-, hread, hvalid⟩)
      · exact absurd hempty htext
      · exact ⟨code, hread, except_bind_eq_ok.2 ⟨(), hvalid, rfl⟩⟩

/-- A valid program is read from its text exactly if each of its instructions is. -/
theorem decode_encode_eq_ok (hseparator : checkSeparator separator = .ok first)
    (hvalid : code.validate = .ok ()) :
    decode separator (code.encode separator) = .ok code ↔
      ∀ i ∈ code, Instruction.readChars i.writeChars = .ok i := by
  rw [decode_eq_ok]
  by_cases hcode : code = []
  · subst hcode
    have hempty : encode separator [] = "" := rfl
    simp [hempty, hseparator]
  · rw [split_encode hseparator hcode, readPieces_writeChars]
    constructor
    · rintro ⟨-, ⟨hempty, -⟩ | ⟨-, hread, -⟩⟩
      · exact absurd hempty (encode_ne_empty hseparator hcode)
      · exact hread
    · intro hread
      exact ⟨⟨first, hseparator⟩, .inr ⟨encode_ne_empty hseparator hcode, hread, hvalid⟩⟩

/-! ### Ordinary programs -/

/-- Positions, numbers of arguments and the counts of blocks are 64-bit words. -/
structure Fits (code : Code) : Prop where
  length : IsIndex code.length
  arguments : ∀ name argc, Instruction.call name argc ∈ code → IsIndex argc
  counts : ∀ count slots, Instruction.block count slots ∈ code → IsIndex count

/-- An instruction of an ordinary valid program can be written, if the numbers in its slots are read
from their texts and its records are not nested too deep. -/
theorem writable (hvalid : code.validate = .ok ()) (hordinary : code.Ordinary) (hfits : code.Fits)
    {i : Instruction} (hi : i ∈ code)
    (hfloats : ∀ s ∈ i.slots, ∀ x ∈ s.value.floats, (Json.Number.float x).ReadsBack)
    (hnesting : ∀ s ∈ i.slots, s.value.nesting ≤ 62) : i.Writable := by
  have hwithin := within_of_validate hvalid i hi
  have hspells := hordinary i hi
  have hindex : ∀ n, n ≤ code.length → IsIndex n := fun n hn => Nat.lt_of_le_of_lt hn hfits.length
  cases i with
  | assign name => exact hspells
  | call name argc => exact hfits.arguments name argc hi
  | jumpIfFalse target => exact hindex target hwithin
  | jump target => exact hindex target hwithin
  | select otherwise stop => exact ⟨hindex otherwise hwithin.1, hindex stop hwithin.2⟩
  | block count slots =>
    refine ⟨hfits.counts count slots hi, fun s hs => ⟨⟨hfloats s hs, ?_⟩, hnesting s hs⟩⟩
    exact (hspells s hs).paths
  | _ => trivial

/-- An ordinary valid program is read from its text exactly if its records are not nested too
deep. -/
theorem decode_encode_iff (hseparator : checkSeparator separator = .ok first)
    (hvalid : code.validate = .ok ()) (hordinary : code.Ordinary) (hfits : code.Fits)
    (hfloats : ∀ s ∈ code.slots, ∀ x ∈ s.value.floats, (Json.Number.float x).ReadsBack) :
    decode separator (code.encode separator) = .ok code ↔
    ∀ s ∈ code.slots, s.value.nesting ≤ 62 := by
  rw [decode_encode_eq_ok hseparator hvalid]
  have hslots : ∀ i ∈ code, ∀ s ∈ i.slots, s ∈ code.slots := fun i hi s hs =>
    List.mem_flatMap.2 ⟨i, hi, hs⟩
  constructor
  · intro hread s hs
    obtain ⟨count, slots, hi, hmem⟩ := mem_slots.1 hs
    by_contra hdeep
    have hblock := hordinary _ hi
    have hplain : ∀ s ∈ slots, s.Plain := fun s hs =>
      ⟨hfloats s (hslots _ hi s hs), (hblock s hs).paths⟩
    have hfail := Instruction.readChars_block_deep (hfits.counts count slots hi) hplain
      ⟨s, hmem, by omega⟩
    rw [hread _ hi] at hfail
    simp [Instruction.malformed] at hfail
  · intro hnesting i hi
    refine Instruction.readChars_writeChars i (writable hvalid hordinary hfits hi ?_ ?_)
    · exact fun s hs => hfloats s (hslots i hi s hs)
    · exact fun s hs => hnesting s (hslots i hi s hs)

/-- The numbers in a compiled program are at most its length. -/
theorem fits_of_compileProgram {source : String} {globals : Globals}
    (h : compileProgram source globals = .ok code) (hlength : IsIndex code.length) : code.Fits := by
  obtain ⟨⟨root, rfl⟩, -⟩ := compileProgram_spells h
  exact ⟨hlength, fun name argc hcall => Nat.lt_trans (root.argc_lt hcall) hlength,
    fun count slots hblock => Nat.lt_trans (root.count_lt hblock) hlength⟩

/-- **The text of an ordinary valid program is read as that program**, with every separator, exactly
if no slot has records nested deeper than 62 levels. Every program that a source with finite globals
compiles to is valid and ordinary and has no nested records, so that it is read from its text. -/
theorem decode_encode {separator : String} {first : Char}
    (hseparator : checkSeparator separator = .ok first) :
    (∀ code : Code, code.validate = .ok () → code.Ordinary → code.Fits →
      (∀ s ∈ code.slots, ∀ x ∈ s.value.floats, (Json.Number.float x).ReadsBack) →
      (decode separator (code.encode separator) = .ok code ↔
        ∀ s ∈ code.slots, s.value.nesting ≤ 62)) ∧
    ∀ source globals code, compileProgram source globals = .ok code →
      (∀ name x, (name, Value.float x) ∈ globals → x.isFinite = true) →
      code.validate = .ok () ∧ code.Ordinary ∧ (∀ s ∈ code.slots, s.value.nesting ≤ 1) ∧
        (IsIndex code.length →
          (∀ name x, (name, Value.float x) ∈ globals → (Json.Number.float x).ReadsBack) →
          code.Fits ∧ decode separator (code.encode separator) = .ok code) := by
  refine ⟨fun code hvalid hordinary hfits hfloats =>
    decode_encode_iff hseparator hvalid hordinary hfits hfloats, ?_⟩
  intro source globals code hcompile hfinite
  have hordinary := compileProgram_ordinary hcompile hfinite
  have hslots := compileProgram_slots hcompile
  have hvalid : code.validate = .ok () := by
    obtain ⟨⟨root, rfl⟩, -⟩ := compileProgram_spells hcompile
    exact root.validate_code
  refine ⟨hvalid, hordinary, fun s hs => (hslots s hs).1, fun hlength hglobals => ?_⟩
  have hfits := fits_of_compileProgram hcompile hlength
  refine ⟨hfits, (decode_encode_iff hseparator hvalid hordinary hfits ?_).2 ?_⟩
  · intro s hs x hx
    rcases (hslots s hs).2 x hx with rfl | hglobal
    · exact Json.Number.readsBack_zero
    · exact hglobals _ x hglobal
  · intro s hs
    exact Nat.le_trans (hslots s hs).1 (by decide)

end Code

/-- A number in a record in a record, and so on. -/
def Value.nested : Nat → Value
  | 0 => .int 1
  | depth + 1 => .record [("a", nested depth)]

theorem Value.nested_facts (depth : Nat) :
    (nested depth).nesting = depth ∧ (nested depth).floats = [] ∧ (nested depth).DistinctPaths := by
  induction depth with
  | zero => exact ⟨rfl, rfl, trivial⟩
  | succ depth ih =>
    obtain ⟨hnesting, hfloats, hpaths⟩ := ih
    refine ⟨?_, ?_, by simp, hpaths, trivial⟩
    · simp [nested, nesting, leavesNesting, hnesting]
    · simp [nested, floats, leavesFloats, hfloats]

namespace Code

/-- An empty block with one variable, which is nested. -/
def nested (depth : Nat) : Code := [.block 0 [⟨"r", .record "R", Value.nested depth, true⟩]]

/-- The block is valid and ordinary, and it is read from its text unless it is too deep. -/
theorem nested_facts (depth : Nat) :
    (nested depth).validate = .ok () ∧ (nested depth).Ordinary ∧ (nested depth).Fits ∧
      ∀ s ∈ (nested depth).slots, s.value = Value.nested depth := by
  obtain ⟨-, hfloats, hpaths⟩ := Value.nested_facts depth
  have hcounts : ∀ count slots, .block count slots ∈ nested depth → IsIndex count := by
    intro count slots hblock
    obtain ⟨rfl, -⟩ : count = 0 ∧ _ := by simpa [nested] using hblock
    exact show (0 : Nat) < _ by decide
  refine ⟨rfl, ?_, ⟨show (1 : Nat) < _ by decide, by simp [nested], hcounts⟩,
    by simp [nested, slots, Instruction.slots]⟩
  intro i hi
  obtain rfl : i = .block 0 [⟨"r", .record "R", Value.nested depth, true⟩] := by
    simpa [nested] using hi
  intro s hs
  obtain rfl : s = ⟨"r", .record "R", Value.nested depth, true⟩ := by simpa using hs
  exact ⟨by simp [hfloats], hpaths⟩

/-- Sixty-two records inside each other are read back, and so is a compiled program with a record
and a global. -/
theorem decode_encode_nested :
    decode "||" ((nested 62).encode "||") = .ok (nested 62) ∧
      ∃ code, compileProgram "record P { int x; float y; } P p; p.y = rate;"
        [("rate", .float 0.5)] =
        .ok code ∧ code.length = 4 ∧ decode "||" (code.encode "||") = .ok code := by
  have hseparator : checkSeparator "||" = .ok '|' := rfl
  have hhalf : (Json.Number.float 0.5).ReadsBack := by
    unfold Json.Number.ReadsBack
    decide +kernel
  constructor
  · obtain ⟨hvalid, hordinary, hfits, hslots⟩ := nested_facts 62
    obtain ⟨hnesting, hfloats, -⟩ := Value.nested_facts 62
    refine ((decode_encode hseparator).1 _ hvalid hordinary hfits ?_).2 ?_
    · intro s hs
      rw [hslots s hs, hfloats]
      simp
    · intro s hs
      rw [hslots s hs, hnesting]
  · obtain ⟨code, hcompile, hlength⟩ : ∃ code, compileProgram
        "record P { int x; float y; } P p; p.y = rate;" [("rate", .float 0.5)] = .ok code ∧
        code.length = 4 := by
      decide +kernel
    refine ⟨code, hcompile, hlength, ?_⟩
    have hglobals : ∀ name x, (name, Value.float x) ∈ [("rate", Value.float 0.5)] → x = 0.5 := by
      intro name x hx
      simpa using (Prod.mk.inj (List.mem_singleton.1 hx)).2
    obtain ⟨-, -, -, hread⟩ := (decode_encode hseparator).2 _ _ code hcompile fun name x hx => by
      rw [hglobals name x hx]
      decide
    refine (hread ?_ fun name x hx => ?_).2
    · rw [hlength]
      exact show (4 : Nat) < _ by decide
    · rw [hglobals name x hx]
      exact hhalf

/-- Sixty-three records inside each other are not read back. -/
theorem nested_not_read :
    (nested 63).validate = .ok () ∧ (nested 63).Ordinary ∧ (nested 63).Fits ∧
      (∀ s ∈ (nested 63).slots, ∀ x ∈ s.value.floats, (Json.Number.float x).ReadsBack) ∧
      decode "||" ((nested 63).encode "||") ≠ .ok (nested 63) := by
  obtain ⟨hvalid, hordinary, hfits, hslots⟩ := nested_facts 63
  obtain ⟨hnesting, hfloats, -⟩ := Value.nested_facts 63
  have hreads : ∀ s ∈ (nested 63).slots, ∀ x ∈ s.value.floats, (Json.Number.float x).ReadsBack := by
    intro s hs
    rw [hslots s hs, hfloats]
    simp
  refine ⟨hvalid, hordinary, hfits, hreads, fun hread => ?_⟩
  have hseparator : checkSeparator "||" = .ok '|' := rfl
  have hdeep := (decode_encode_iff hseparator hvalid hordinary hfits hreads).1 hread
    ⟨"r", .record "R", Value.nested 63, true⟩ (by simp [nested, slots, Instruction.slots])
  rw [hnesting] at hdeep
  exact absurd hdeep (by decide)

/-! ### Whatever is read -/

variable {code : Code}

theorem writable_of_readPieces {pieces : List (List Char)} (h : readPieces pieces = .ok code)
    (hfloats : ∀ s ∈ code.slots, ∀ x ∈ s.value.floats,
      x.isFinite = true → (Json.Number.float x).ReadsBack) :
    ∀ i ∈ code, i.Writable := by
  induction pieces generalizing code with
  | nil =>
    obtain rfl : [] = code := by simpa [readPieces] using h
    simp
  | cons piece pieces ih =>
    rw [readPieces] at h
    obtain ⟨i, hi, h⟩ := except_bind_eq_ok.1 h
    obtain ⟨rest, hrest, heq⟩ := except_bind_eq_ok.1 h
    cases heq
    have hslots : slots (i :: rest) = i.slots ++ slots rest := rfl
    rw [hslots] at hfloats
    intro j hj
    rcases List.mem_cons.1 hj with rfl | hj
    · exact Instruction.writable_of_readChars hi fun s hs => hfloats s (List.mem_append_left _ hs)
    · exact ih hrest (fun s hs => hfloats s (List.mem_append_right _ hs)) j hj

/-- **Whatever a text is read as, its own text is read as the same program**, with every separator,
if the finite numbers in its slots are read from their texts. -/
theorem decode_encode_of_decode {separator separator' text : String} {first' : Char} {code : Code}
    (hseparator' : checkSeparator separator' = .ok first') (h : decode separator text = .ok code)
    (hfloats : ∀ s ∈ code.slots, ∀ x ∈ s.value.floats,
      x.isFinite = true → (Json.Number.float x).ReadsBack) :
    decode separator' (code.encode separator') = .ok code := by
  obtain ⟨-, ⟨-, rfl⟩ | ⟨-, hread, hvalid⟩⟩ := decode_eq_ok.1 h
  · exact (decode_encode_eq_ok hseparator' rfl).2 (by simp)
  · refine (decode_encode_eq_ok hseparator' hvalid).2 fun i hi => ?_
    exact Instruction.readChars_writeChars i (writable_of_readPieces hread hfloats i hi)

/-- A text that no program is written as: it has a sign, an exponent, a mark that says nothing,
blanks, a slot and a value that are arrays, a repeated path, an escape without a need and a
backslash at the end. -/
def looseText : String :=
  "n:+5,\\n:1e3,var:x:7,ts##0##[ [\"p\"\\,\"float\"\\,[\"record\"\\,\x7b\"x\":" ++
    "\x7b\"kind\":\"int\"\\,\"value\":1\x7d\\,\"x\":[\"float\"\\,5e-1]\x7d]] ]\\"

/-- The program of a loose text is read from its own text, with another separator. -/
theorem decode_encode_of_decode_loose :
    ∃ code, decode "," looseText = .ok code ∧ code.length = 4 ∧ code.encode "," ≠ looseText ∧
      decode "||" (code.encode "||") = .ok code := by
  have hhalf : (Json.Number.float 0.5).ReadsBack := by
    unfold Json.Number.ReadsBack
    decide +kernel
  obtain ⟨code, hdecode, hlength, hother, hfloats⟩ :
      ∃ code, decode "," looseText = .ok code ∧ code.length = 4 ∧ code.encode "," ≠ looseText ∧
        ∀ s ∈ code.slots, ∀ x ∈ s.value.floats, x = 0.5 := by
    decide +kernel
  have hseparator : checkSeparator "||" = .ok '|' := rfl
  refine ⟨code, hdecode, hlength, hother, decode_encode_of_decode hseparator hdecode ?_⟩
  intro s hs x hx _
  rw [hfloats s hs x hx]
  exact hhalf

end Code

end BindScript
