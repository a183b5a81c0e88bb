/-
**The text of an instruction is read as that instruction.**

Every text but an operator's, `null` and `negate` has a mark in it that these do not have, an
assignment apart: the text of an assignment to `=` would be the operator `==`, and that of an
assignment to nothing is no instruction.  Behind its tag a text is cut at a mark that cannot occur
on one side of it.

Main results:

* `Instruction.readChars_writeChars` — **the text of an instruction is read as it**.
-/

import BindScript.Proofs.Code.Positions
import BindScript.Proofs.Decimal.Spelling
import BindScript.Proofs.Text.Search
import BindScript.Proofs.Value.Stored

namespace BindScript

variable {text whole : List Char} {i : Instruction}

namespace Instruction

/-! ### Tags -/

theorem readChars_of_mark {mark : Char} (hmark : mark = ':' ∨ mark = '#') (hmem : mark ∈ text) :
    readChars text = readTagged text := by
  have hnull : text ≠ "null".toList := by
    rintro rfl
    rcases hmark with rfl | rfl <;> exact absurd hmem (by decide)
  have hnegate : text ≠ "negate".toList := by
    rintro rfl
    rcases hmark with rfl | rfl <;> exact absurd hmem (by decide)
  have hop : Operator.ofSymbol? (String.ofList text) = none := by
    refine List.find?_eq_none.2 fun op _ hsymbol => ?_
    have htext : text = op.symbol.toList := by
      rw [eq_of_beq hsymbol, String.toList_ofList]
    rw [htext] at hmem
    rcases hmark with rfl | rfl <;> cases op <;> exact absurd hmem (by decide)
  rw [readChars, if_neg hnull, if_neg hnegate, hop]

theorem readChars_assign {name : String} (hne : name ≠ "") (heq : name ≠ "=") :
    readChars ('=' :: name.toList) = .ok (.assign name) := by
  obtain ⟨c, cs, hcons⟩ : ∃ c cs, name.toList = c :: cs := by
    refine List.exists_cons_of_ne_nil fun hnil => hne ?_
    exact String.toList_injective (by rw [hnil]; rfl)
  have hop : Operator.ofSymbol? (String.ofList ('=' :: name.toList)) = none := by
    refine List.find?_eq_none.2 fun op _ hsymbol => ?_
    have htext : '=' :: name.toList = op.symbol.toList := by
      rw [eq_of_beq hsymbol, String.toList_ofList]
    cases op with
    | eq => exact heq (String.toList_injective (List.cons.inj htext).2)
    | add | sub | mul | div | ne | gt | lt | ge | le | and | or =>
      exact absurd (List.cons.inj htext).1 (by decide)
  rw [readChars, if_neg (by simp), if_neg (by simp), hop, hcons]
  change Except.ok (Instruction.assign (String.ofList (c :: cs))) = _
  rw [← hcons, String.ofList_toList]

/-! ### Numbers -/

theorem readIndex_natText {n : Nat} (hn : n < 0x10000000000000000) (use : IndexUse) :
    readIndex use (natText n) = .ok n := by
  rw [readIndex, natText, Decimal.readIndex?_digitsOf hn]

theorem readNumber_int (n : Int64) : readNumber (toString n.toInt).toList = .ok (.int n) := by
  have hint : isIntLiteral (toString n.toInt).toList = true := by
    rw [isIntLiteral, Decimal.takeSign_toString]
    simp [Decimal.digitsOf_ne_nil, Decimal.all_isDigit_digitsOf]
  rw [readNumber, if_pos hint, Decimal.readInt64?_toString]

theorem readNumber_float (x : Float) :
    readNumber (Decimal.Spelling.literal.write x) = .ok (.float x) := by
  have hint : isIntLiteral (Decimal.Spelling.literal.write x) = false := by
    obtain ⟨c, hmem, hc⟩ := Decimal.exists_not_digit_write_literal x
    have hall : (Decimal.takeSign (Decimal.Spelling.literal.write x)).2.all Char.isDigit = false :=
      List.all_eq_false.2 ⟨c, hmem, by simp [hc]⟩
    simp [isIntLiteral, hall]
  rw [readNumber, if_neg (by simp [hint]), Decimal.readFloat?_write]

/-! ### Instructions -/

/-- What an instruction must be for its text to be read back: assignments go to something other than
`=`, positions have 64 bits, and slots are read back. -/
def Writable : Instruction → Prop
  | .assign name => name ≠ "" ∧ name ≠ "="
  | .call _ argc => IsIndex argc
  | .jumpIfFalse target | .jump target => IsIndex target
  | .select otherwise stop => IsIndex otherwise ∧ IsIndex stop
  | .block count slots => IsIndex count ∧ ∀ s ∈ slots, s.Plain ∧ s.value.nesting ≤ 62
  | _ => True

theorem colon_not_mem_natText (n : Nat) : ':' ∉ natText n := Decimal.not_mem_digitsOf (by decide) n

theorem hash_not_mem_natText (n : Nat) : '#' ∉ natText n := Decimal.not_mem_digitsOf (by decide) n

/-- What is read from the text of a block depends on its slots. -/
theorem readChars_block {count : Nat} (hcount : IsIndex count) (slots : List Slot) :
    readChars (writeChars (.block count slots)) =
      match readSlots? (Json.array (slots.map Slot.toJson)).compact with
      | none => malformed .blockSlots
      | some slots => .ok (.block count slots) := by
  have htext : writeChars (.block count slots) = 't' :: 's' :: '#' :: '#' ::
      (natText count ++ '#' :: '#' :: (Json.array (slots.map Slot.toJson)).compact) := by
    simp [writeChars, List.append_assoc]
  rw [htext, readChars_of_mark (.inr rfl) (by simp : '#' ∈ _)]
  change readBlock _ _ = _
  rw [readBlock, Text.cutAtPair?_append (hash_not_mem_natText count)]
  simp only
  cases readSlots? (Json.array (slots.map Slot.toJson)).compact with
  | none => rfl
  | some slots =>
    simp only [readIndex_natText hcount]
    rfl

/-- **The text of an instruction is read as that instruction.** -/
theorem readChars_writeChars (i : Instruction) (hi : i.Writable) :
    readChars i.writeChars = .ok i := by
  cases i with
  | int n =>
    rw [writeChars, readChars_of_mark (.inl rfl) (by simp : ':' ∈ _)]
    exact readNumber_int n
  | float x =>
    rw [writeChars, readChars_of_mark (.inl rfl) (by simp : ':' ∈ _)]
    exact readNumber_float x
  | string s =>
    rw [writeChars, readChars_of_mark (.inl rfl) (by simp : ':' ∈ _)]
    exact congrArg (fun t => Except.ok (Instruction.string t)) String.ofList_toList
  | bool b => cases b <;> rfl
  | null => rfl
  | load name =>
    rw [writeChars, readChars_of_mark (.inl rfl) (by simp : ':' ∈ _)]
    exact congrArg (fun t => Except.ok (Instruction.load t)) String.ofList_toList
  | loadHost name =>
    rw [writeChars, readChars_of_mark (.inl rfl) (by simp : ':' ∈ _)]
    exact congrArg (fun t => Except.ok (Instruction.loadHost t)) String.ofList_toList
  | assign name => exact readChars_assign hi.1 hi.2
  | declare name init =>
    -- a name may have colons of its own, so the last one is looked for
    have hmark : ':' ∉ [if init then '1' else '0'] := by cases init <;> decide
    have hinit : ([if init then '1' else '0'] == ['1']) = init := by cases init <;> rfl
    rw [readChars_of_mark (.inl rfl) (by simp [writeChars] : ':' ∈ _)]
    change readDeclare _ (name.toList ++ ':' :: [if init then '1' else '0']) = _
    rw [readDeclare, Text.cutAtLast?_append hmark]
    simp only [hinit, String.ofList_toList]
  | call name argc =>
    rw [readChars_of_mark (.inl rfl) (by simp [writeChars] : ':' ∈ _)]
    change readCall _ (name.toList ++ ':' :: natText argc) = _
    rw [readCall, Text.cutAtLast?_append (colon_not_mem_natText argc)]
    simp only [readIndex_natText hi, String.ofList_toList]
    rfl
  | jumpIfFalse target | jump target =>
    rw [readChars_of_mark (.inl rfl) (by simp [writeChars] : ':' ∈ _)]
    change (readIndex .jumpTarget (natText target)).map _ = _
    rw [readIndex_natText hi]
    rfl
  | select otherwise stop =>
    rw [readChars_of_mark (.inl rfl) (by simp [writeChars] : ':' ∈ _)]
    change readSelect _ (natText otherwise ++ ':' :: natText stop) = _
    rw [readSelect, Text.cutAt?_append (colon_not_mem_natText otherwise)]
    simp only [readIndex_natText hi.1, readIndex_natText hi.2]
    rfl
  | block count slots =>
    rw [readChars_block hi.1, readSlots?_compact (fun s hs => (hi.2 s hs).1)
      fun s hs => (hi.2 s hs).2]
  | negate => rfl
  | binary op => cases op <;> rfl

/-- A block with a record that is nested too deep is not read. -/
theorem readChars_block_deep {count : Nat} (hcount : IsIndex count) {slots : List Slot}
    (hslots : ∀ s ∈ slots, s.Plain) (hdeep : ∃ s ∈ slots, 62 < s.value.nesting) :
    readChars (writeChars (.block count slots)) = malformed .blockSlots := by
  rw [readChars_block hcount, readSlots?_compact_eq_none hslots hdeep]

/-! ### Whatever is read can be written -/

def slots : Instruction → List Slot
  | .block _ slots => slots
  | _ => []

theorem isIndex_of_readIndex {use : IndexUse} {n : Nat} (h : readIndex use text = .ok n) :
    IsIndex n := by
  unfold readIndex at h
  split at h
  · rename_i heq
    cases h
    exact Decimal.readIndex?_lt heq
  · simp [malformed] at h

theorem writable_of_readBlock (h : readBlock whole text = .ok i)
    (hfloats : ∀ s ∈ i.slots, ∀ x ∈ s.value.floats, x.isFinite = true →
      (Json.Number.float x).ReadsBack) :
    i.Writable := by
  unfold readBlock at h
  split at h
  · simp [malformed] at h
  · split at h
    · simp [malformed] at h
    · rename_i slots hslots
      obtain ⟨count, hcount, heq⟩ := except_bind_eq_ok.1 h
      cases heq
      refine ⟨isIndex_of_readIndex hcount, fun s hs => ?_⟩
      have hstored := readSlots?_stored hslots s hs
      have hnesting := hstored.nesting
      exact ⟨⟨fun x hx => hfloats s hs x hx (hstored.floats x hx), hstored.paths⟩, by omega⟩

theorem writable_of_readNumber (h : readNumber text = .ok i) : i.Writable := by
  unfold readNumber at h
  split at h <;> split at h
  · cases h
    trivial
  · simp [malformed] at h
  · cases h
    trivial
  · simp [malformed] at h

theorem writable_of_readBool (h : readBool text = .ok i) : i.Writable := by
  unfold readBool at h
  split at h
  · cases h
    trivial
  · split at h
    · cases h
      trivial
    · simp [malformed] at h

theorem writable_of_readDeclare (h : readDeclare whole text = .ok i) : i.Writable := by
  unfold readDeclare at h
  split at h
  · simp [malformed] at h
  · cases h
    trivial

theorem writable_of_readCall (h : readCall whole text = .ok i) : i.Writable := by
  unfold readCall at h
  split at h
  · simp [malformed] at h
  · obtain ⟨argc, hargc, heq⟩ := except_bind_eq_ok.1 h
    cases heq
    exact isIndex_of_readIndex hargc

theorem writable_of_readSelect (h : readSelect whole text = .ok i) : i.Writable := by
  unfold readSelect at h
  split at h
  · simp [malformed] at h
  · obtain ⟨otherwise, hotherwise, h⟩ := except_bind_eq_ok.1 h
    obtain ⟨stop, hstop, heq⟩ := except_bind_eq_ok.1 h
    cases heq
    exact ⟨isIndex_of_readIndex hotherwise, isIndex_of_readIndex hstop⟩

theorem writable_of_readJump {use : IndexUse} {jump : Nat → Instruction}
    (h : (readIndex use text).map jump = .ok i) (hjump : ∀ n, IsIndex n → (jump n).Writable) :
    i.Writable := by
  cases hindex : readIndex use text with
  | error e =>
    rw [hindex] at h
    simp [Except.map] at h
  | ok n =>
    rw [hindex] at h
    cases h
    exact hjump n (isIndex_of_readIndex hindex)

/-- **What is read from any text has a text that is read back**, if the finite doubles in its slots
are read from their own texts. -/
theorem writable_of_readChars (h : readChars text = .ok i)
    (hfloats : ∀ s ∈ i.slots, ∀ x ∈ s.value.floats, x.isFinite = true →
      (Json.Number.float x).ReadsBack) :
    i.Writable := by
  unfold readChars at h
  split at h
  · cases h
    trivial
  split at h
  · cases h
    trivial
  split at h
  · cases h
    trivial
  rename_i hop
  unfold readTagged at h
  split at h
  case h_1 => exact writable_of_readBlock h hfloats
  case h_2 => exact writable_of_readNumber h
  case h_4 => exact writable_of_readBool h
  case h_7 => exact writable_of_readDeclare h
  case h_8 => exact writable_of_readCall h
  case h_9 => exact writable_of_readJump h fun n hn => hn
  case h_10 => exact writable_of_readJump h fun n hn => hn
  case h_11 => exact writable_of_readSelect h
  case h_12 c rest =>
    cases h
    refine ⟨fun hempty => ?_, fun heq => ?_⟩
    · have hlist := congrArg String.toList hempty
      rw [String.toList_ofList] at hlist
      cases hlist
    · -- the text would have been the operator `==`
      have hlist := congrArg String.toList heq
      rw [String.toList_ofList] at hlist
      rw [hlist] at hop
      cases hop
  case h_13 => simp [malformed] at h
  all_goals
    cases h
    trivial

end Instruction

end BindScript
