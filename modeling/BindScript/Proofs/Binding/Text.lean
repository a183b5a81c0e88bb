/-
**Compiled bindings and their text.**

The object of compiled bindings has its members in the order of their names, and so have the objects
of entries.  Read again, the bindings are those that were written, in that order.

Main results:

* `Bindings.ofJson_toJson`, `Bindings.ofText_toJson` — **the object and the text of
  compiled bindings are read as these bindings, sorted**.
-/

import BindScript.Binding.Text
import BindScript.Proofs.Binding.Parser
import BindScript.Proofs.Code.Codec
import BindScript.Proofs.Json.Members

namespace BindScript

variable {α β : Type}

/-! ### The order of names -/

/-- A body with its entries in the order of their names. -/
def Binding.Body.sorted : Binding.Body α → Binding.Body α
  | .expr e => .expr e
  | .entries es => .entries (Json.sortMembers es)

/-- What belongs to kinds, under the names of the kinds. -/
def Binding.named (l : List (Binding.Kind × α)) : List (String × (Binding.Kind × α)) :=
  l.map fun e => (e.1.name, e)

/-- What belongs to kinds, in the order of the names of the kinds. -/
def Binding.sortKinds (l : List (Binding.Kind × α)) : List (Binding.Kind × α) :=
  (Json.sortMembers (Binding.named l)).map Prod.snd

/-- Bindings in the order of the names of kinds and entries. -/
def Bindings.sorted (bindings : Bindings α) : Bindings α :=
  Binding.sortKinds (List.map (fun b => (b.1, b.2.sorted)) bindings)

namespace Binding

theorem Kind.ofName?_name (kind : Kind) : Kind.ofName? kind.name = some kind := by
  cases kind <;> decide

theorem Kind.name_injective : Function.Injective Kind.name := by
  intro kind kind' h
  have hname := kind.ofName?_name
  rw [h, kind'.ofName?_name] at hname
  exact (Option.some.inj hname).symm

theorem map_snd_named (l : List (Kind × α)) : (named l).map Prod.snd = l := by
  rw [named, List.map_map]
  exact List.map_id l

theorem sortMembers_named_perm {l : List (Kind × α)} (h : (l.map Prod.fst).Nodup) :
    (Json.sortMembers (named l)).Perm (named l) := by
  refine Json.sortMembers_perm ?_
  have hnames := h.map Kind.name_injective
  rw [List.map_map] at hnames
  rw [named, List.map_map]
  exact hnames

theorem sortKinds_perm {l : List (Kind × α)} (h : (l.map Prod.fst).Nodup) :
    (sortKinds l).Perm l := by
  have hperm := (sortMembers_named_perm h).map Prod.snd
  rw [map_snd_named] at hperm
  exact hperm

theorem sortKinds_map (f : α → β) (l : List (Kind × α)) :
    sortKinds (l.map fun e => (e.1, f e.2)) = (sortKinds l).map fun e => (e.1, f e.2) := by
  have hmembers := Json.sortMembers_map (fun e : Kind × α => (e.1, f e.2)) (named l)
  have hnamed : (named l).map (fun e => (e.1, e.2.1, f e.2.2)) =
      named (l.map fun e => (e.1, f e.2)) := by
    rw [named, named, List.map_map, List.map_map]
    rfl
  rw [hnamed] at hmembers
  rw [sortKinds, hmembers, sortKinds, List.map_map, List.map_map]
  rfl

theorem sortKinds_of_inOrder {l : List (Kind × α)}
    (h : l.Pairwise fun a b => a.1.name < b.1.name) : sortKinds l = l := by
  have horder : Json.InOrder (named l) := List.pairwise_map.2 h
  rw [sortKinds, Json.sortMembers_of_inOrder horder, map_snd_named]

/-- The entries of a body are in the order of their names. -/
def Body.InOrder : Body α → Prop
  | .expr _ => True
  | .entries es => Json.InOrder es

theorem Body.sorted_of_inOrder {body : Body α} (h : body.InOrder) : body.sorted = body := by
  cases body with
  | expr e => rfl
  | entries es => rw [Body.sorted, Json.sortMembers_of_inOrder h]

end Binding

variable {kind : Binding.Kind}

namespace Bindings

/-- Bindings stand in the order of the names of their kinds, and so do the entries. -/
structure InOrder (bindings : Bindings α) : Prop where
  kinds : bindings.Pairwise fun a b => a.1.name < b.1.name
  bodies : ∀ b ∈ bindings, b.2.InOrder

theorem sorted_of_inOrder {bindings : Bindings α} (h : bindings.InOrder) :
    bindings.sorted = bindings := by
  have hbodies : List.map (fun b => (b.1, b.2.sorted)) bindings = bindings := by
    refine (List.map_congr_left fun b hb => ?_).trans (List.map_id bindings)
    rw [Binding.Body.sorted_of_inOrder (h.bodies b hb)]
    rfl
  rw [sorted, hbodies, Binding.sortKinds_of_inOrder h.kinds]

theorem sorted_perm {bindings : Bindings α} (h : bindings.kinds.Nodup) :
    bindings.sorted.Perm (List.map (fun b => (b.1, b.2.sorted)) bindings) := by
  refine Binding.sortKinds_perm ?_
  rw [List.map_map]
  exact h

theorem mem_of_find? {bindings : Bindings α} {body : Binding.Body α}
    (h : bindings.find? kind = some body) :
    (kind, body) ∈ bindings := by
  obtain ⟨before, after, heq, -⟩ := List.lookup_eq_some_iff.1 h
  rw [heq]
  simp

theorem find?_of_mem {bindings : Bindings α} (h : bindings.kinds.Nodup) {body : Binding.Body α}
    (hmem : (kind, body) ∈ bindings) : bindings.find? kind = some body := by
  obtain ⟨before, after, rfl⟩ := List.append_of_mem hmem
  refine List.lookup_eq_some_iff.2 ⟨before, after, rfl, fun b hb => ?_⟩
  rw [kinds, List.map_append, List.map_cons] at h
  have hne := (List.nodup_append.1 h).2.2 b.1 (List.mem_map_of_mem hb) kind (by simp)
  simpa using fun heq => hne heq.symm

theorem kinds_sorted {bindings : Bindings α} (h : bindings.kinds.Nodup) :
    bindings.sorted.kinds.Perm bindings.kinds := by
  have hperm := (sorted_perm h).map Prod.fst
  rw [List.map_map] at hperm
  exact hperm

/-- Sorting bindings sorts the body of each kind. -/
theorem find?_sorted {bindings : Bindings α} (h : bindings.kinds.Nodup) (kind : Binding.Kind) :
    bindings.sorted.find? kind = (bindings.find? kind).map Binding.Body.sorted := by
  have hsorted : bindings.sorted.kinds.Nodup := (kinds_sorted h).nodup_iff.2 h
  cases hfind : bindings.find? kind with
  | some body =>
    refine find?_of_mem hsorted ((sorted_perm h).mem_iff.2 ?_)
    exact List.mem_map.2 ⟨(kind, body), mem_of_find? hfind, rfl⟩
  | none =>
    cases hfind' : bindings.sorted.find? kind with
    | none => rfl
    | some body' =>
      obtain ⟨b, hb, heq⟩ := List.mem_map.1 ((sorted_perm h).mem_iff.1 (mem_of_find? hfind'))
      obtain ⟨rfl, -⟩ := Prod.mk.inj heq
      rw [find?_of_mem h hb] at hfind
      cases hfind

end Bindings

/-! ### Programs -/

/-- What can stand in the code of an expression. -/
def Instruction.isOfExpr : Instruction → Bool
  | .assign _ | .declare _ _ | .jumpIfFalse _ | .jump _ | .block _ _ => false
  | _ => true

theorem Expr.isOfExpr_code (e : Expr) : ∀ i ∈ e.code, i.isOfExpr = true := by
  intro i hi
  rw [Expr.code, ← e.codeAt_node] at hi
  obtain ⟨q, m, j, hoccurs, hown⟩ := Node.exists_occurs_of_mem hi
  obtain ⟨part, rfl⟩ := hoccurs.exists_expr ⟨e, rfl⟩
  have hpiece := Node.mem_of_mem_layout hown
  cases part with
  | literal line v =>
    obtain rfl : i = v.instruction := by simpa [Node.pieces, Expr.node] using hpiece
    cases v <;> rfl
  | _ =>
    obtain rfl : i = _ := by simpa [Node.pieces, Expr.node] using hpiece
    rfl

/-- The program of an expression is read from its text. -/
theorem Expr.decode_code (e : Expr) {separator : String} {first : Char}
    (hseparator : checkSeparator separator = .ok first) (hlength : IsIndex e.code.length) :
    Code.decode separator (e.code.encode separator) = .ok e.code := by
  have hvalid := e.validate_code
  refine (Code.decode_encode_eq_ok hseparator hvalid).2 fun i hi => ?_
  refine Instruction.readChars_writeChars i ?_
  have hkind := e.isOfExpr_code i hi
  have hwithin := Code.within_of_validate hvalid i hi
  cases i with
  | call name argc => exact Nat.lt_trans (e.argc_lt hi) hlength
  | select otherwise stop =>
    exact ⟨Nat.lt_of_le_of_lt hwithin.1 hlength, Nat.lt_of_le_of_lt hwithin.2 hlength⟩
  | assign name | jumpIfFalse target | jump target | block count slots =>
    simp [Instruction.isOfExpr] at hkind
  | _ => trivial

/-! ### Objects -/

theorem Binding.Body.codes_map (f : α → β) (body : Binding.Body α) :
    (body.map f).codes = body.codes.map f := by
  cases body with
  | expr e => rfl
  | entries es =>
    rw [Body.map, Body.codes, Body.codes, List.map_map, List.map_map]
    rfl

theorem Bindings.codes_map (f : α → β) (bindings : Bindings α) :
    (bindings.map f).codes = bindings.codes.map f := by
  rw [codes, codes, Bindings.map, List.flatMap_map, List.map_flatMap]
  exact congrArg (bindings.flatMap ·) (funext fun b => b.2.codes_map f)

namespace Bindings

variable {separator : String}

theorem bodyToJson_entries (separator : String) (es : Table Code) :
    bodyToJson separator (.entries es) =
      .object ((Json.sortMembers es).map fun e => (e.1, .string (e.2.encode separator))) :=
  congrArg Json.object
    (Json.sortMembers_map (fun code : Code => Json.string (code.encode separator)) es)

theorem readEntries_map {es : Table Code}
    (h : ∀ e ∈ es, Code.decode separator (e.2.encode separator) = .ok e.2) :
    readEntries separator kind (es.map fun e => (e.1, .string (e.2.encode separator))) =
      .ok es := by
  induction es with
  | nil => rfl
  | cons e es ih =>
    obtain ⟨hfirst, hrest⟩ := List.forall_mem_cons.1 h
    rw [List.map_cons, readEntries, hfirst, ih hrest]
    rfl

/-- A body is read from its JSON value, with its entries sorted. -/
theorem readBody_bodyToJson {body : Binding.Body Code} (hbody : body.Suits kind)
    (h : ∀ code ∈ body.codes, Code.decode separator (code.encode separator) = .ok code) :
    readBody separator kind (bodyToJson separator body) = .ok body.sorted := by
  cases body with
  | expr code =>
    have hkind : kind.hasEntries = false := hbody
    rw [bodyToJson, readBody, h code List.mem_cons_self]
    · rfl
    · exact hkind
  | entries es =>
    obtain ⟨hkind, hnodup⟩ := hbody
    have hread : readEntries separator kind ((Json.sortMembers es).map
        fun e => (e.1, .string (e.2.encode separator))) = .ok (Json.sortMembers es) := by
      refine readEntries_map fun e he => h e.2 (List.mem_map_of_mem ?_)
      exact (Json.sortMembers_perm hnodup).mem_iff.1 he
    rw [bodyToJson_entries, readBody, hread]
    · rfl
    · exact hkind

theorem readMembers_map {members : List (String × (Binding.Kind × Binding.Body Code))}
    (h : ∀ e ∈ members, e.1 = e.2.1.name ∧
      readBody separator e.2.1 (bodyToJson separator e.2.2) = .ok e.2.2.sorted) :
    readMembers separator (members.map fun e => (e.1, bodyToJson separator e.2.2)) =
      .ok (members.map fun e => (e.2.1, e.2.2.sorted)) := by
  induction members with
  | nil => rfl
  | cons e members ih =>
    obtain ⟨⟨hname, hbody⟩, hrest⟩ := List.forall_mem_cons.1 h
    rw [List.map_cons, readMembers, hname, Binding.Kind.ofName?_name]
    simp only [hbody, ih hrest]
    rfl

theorem toJson_eq (separator : String) (bindings : Bindings Code) :
    bindings.toJson separator =
      .object ((Json.sortMembers (Binding.named bindings)).map
        fun e => (e.1, bodyToJson separator e.2.2)) := by
  have hmembers := Json.sortMembers_map
    (fun e : Binding.Kind × Binding.Body Code => bodyToJson separator e.2) (Binding.named bindings)
  rw [Binding.named, List.map_map] at hmembers
  exact congrArg Json.object hmembers

theorem sorted_eq (bindings : Bindings α) :
    bindings.sorted = (Json.sortMembers (Binding.named bindings)).map fun e =>
      (e.2.1, e.2.2.sorted) := by
  rw [sorted, Binding.sortKinds_map, Binding.sortKinds, List.map_map]
  rfl

/-- **The object of compiled bindings is read as these bindings, sorted**, if their programs are
read from their texts. -/
theorem ofJson_toJson {bindings : Bindings Code} (hshape : bindings.WellFormed)
    (h : ∀ code ∈ bindings.codes, Code.decode separator (code.encode separator) = .ok code) :
    ofJson separator (bindings.toJson separator) = .ok bindings.sorted := by
  rw [toJson_eq, ofJson, sorted_eq]
  refine readMembers_map fun e he => ?_
  obtain ⟨b, hb, rfl⟩ := List.mem_map.1 ((Binding.sortMembers_named_perm hshape.kinds).mem_iff.1 he)
  refine ⟨rfl, readBody_bodyToJson (hshape.bodies b hb) fun code hcode => h code ?_⟩
  exact List.mem_flatMap.2 ⟨b, hb, hcode⟩

end Bindings

/-! ### Texts -/

variable {members : List (String × Json)}

namespace Json

/-- A string, or an object of strings that is in order. -/
def IsBody : Json → Prop
  | .string _ => True
  | .object members => InOrder members ∧ ∀ m ∈ members, ∃ s, m.2 = .string s
  | _ => False

/-- Members are read from their text and stay as they are, if each of them does. -/
theorem members_read {depth : Nat}
    (h : ∀ m ∈ members, m.2.ReadsBack ∧ (m.2.draft depth).value? = some m.2 ∧ m.2.canonical = m.2) :
    MembersReadBack members ∧ Draft.memberValues? (draftMembers depth members) = some members ∧
      canonicalMembers members = members := by
  induction members with
  | nil => exact ⟨trivial, rfl, rfl⟩
  | cons m members ih =>
    obtain ⟨name, value⟩ := m
    obtain ⟨⟨hread, hvalue, hcanonical⟩, hrest⟩ := List.forall_mem_cons.1 h
    obtain ⟨hreads, hvalues, hcanonicals⟩ := ih hrest
    refine ⟨⟨hread, hreads⟩, ?_, ?_⟩
    · simp only [draftMembers, Draft.memberValues?, hvalue, hvalues]
    · simp only [canonicalMembers, hcanonical, hcanonicals]

/-- An object in order whose members are read from their text is read from its own. -/
theorem object_read (depth : Nat) (horder : InOrder members)
    (h : ∀ m ∈ members, m.2.ReadsBack ∧ (m.2.draft depth).value? = some m.2 ∧ m.2.canonical = m.2) :
    (object members).ReadsBack ∧
      ((object members).draft (depth + 1)).value? = some (object members) ∧
      (object members).canonical = object members := by
  obtain ⟨hreads, hvalues, hcanonicals⟩ := members_read h
  refine ⟨hreads, ?_, ?_⟩
  · simp only [draft, objectDraft, Nat.add_sub_cancel, Draft.value?, hvalues, Option.map_some]
  · rw [canonical, hcanonicals, sortMembers_of_inOrder horder]

theorem IsBody.read {j : Json} (h : j.IsBody) (depth : Nat) :
    j.ReadsBack ∧ (j.draft (depth + 1)).value? = some j ∧ j.canonical = j := by
  cases j with
  | string s => exact ⟨trivial, rfl, rfl⟩
  | object members =>
    refine object_read depth h.1 fun m hm => ?_
    obtain ⟨s, hs⟩ := h.2 m hm
    rw [hs]
    exact ⟨trivial, rfl, rfl⟩
  | _ => simp [IsBody] at h

theorem readCanonical?_text (horder : InOrder members) (h : ∀ m ∈ members, m.2.IsBody) :
    readCanonical? (object members).text = some (object members) := by
  obtain ⟨hreads, hvalue, hcanonical⟩ := object_read 126 horder fun m hm => (h m hm).read 125
  rw [readCanonical?, read?, readDraft?, text, String.toList_ofList, readChars?_compact hreads]
  exact (congrArg (Option.map canonical) hvalue).trans (congrArg some hcanonical)

end Json

namespace Bindings

theorem isBody_bodyToJson (separator : String) (body : Binding.Body Code) :
    (bodyToJson separator body).IsBody := by
  cases body with
  | expr code => trivial
  | entries es =>
    rw [bodyToJson_entries]
    refine ⟨List.pairwise_map.2 (Json.inOrder_sortMembers es), fun m hm => ?_⟩
    obtain ⟨e, -, rfl⟩ := List.mem_map.1 hm
    exact ⟨_, rfl⟩

/-- **The text of compiled bindings is read like their object.** -/
theorem ofText_toJson (separator : String) (bindings : Bindings Code) :
    ofText separator (bindings.toJson separator).text =
      ofJson separator (bindings.toJson separator) := by
  have hread : Json.readCanonical? (bindings.toJson separator).text =
      some (bindings.toJson separator) := by
    rw [toJson_eq]
    refine Json.readCanonical?_text (List.pairwise_map.2 (Json.inOrder_sortMembers _)) fun m hm =>
      ?_
    obtain ⟨e, -, rfl⟩ := List.mem_map.1 hm
    exact isBody_bodyToJson separator _
  rw [ofText, hread]

end Bindings

end BindScript
