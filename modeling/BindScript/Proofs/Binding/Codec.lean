/-
**Bindings are what their object says.**

Written as an object and read again, bindings are the same up to order: the same kinds are bound,
each with the program that it had, or with a program for each of the same names.  For compiled
bindings this needs a bound on the length of programs, because positions are 64-bit words.  An
expression has less than two instructions for each of its tokens, and a text has no more tokens than
characters.

What an object is read as can be written and read again in the same way, whatever texts of programs
stand in it.

Main results:

* `Bindings.ofJson_toJson_same` — **written and read again, bindings are the same**.
-/

import BindScript.Proofs.Binding.Text

namespace BindScript

/-! ### The length of code -/

namespace Expr

theorem length_codeOfAll_append (p : Nat) (es es' : List Expr) :
    (codeOfAll p (es ++ es')).length =
      (codeOfAll p es).length + (codeOfAll (p + (codeOfAll p es).length) es').length := by
  rw [codeOfAll_append, List.length_append]

theorem length_codeOfAll_literal (p line : Nat) (vs : List Value) :
    (codeOfAll p (vs.map (literal line))).length = vs.length := by
  induction vs generalizing p with
  | nil => rfl
  | cons v vs ih => simp [codeOfAll, codeAt, ih]

theorem length_codeOfAll_take_le (p n : Nat) (es : List Expr) :
    (codeOfAll p (es.take n)).length ≤ (codeOfAll p es).length := by
  have happend := length_codeOfAll_append p (es.take n) (es.drop n)
  rw [List.take_append_drop] at happend
  omega

/-- The code of arguments, if each has less than two instructions for a token. -/
theorem length_codeOfAll_arguments {args : List Argument}
    (h : ∀ a ∈ args, ∀ p, (a.expr.codeAt p).length < 2 * a.tokens.length) (p : Nat) :
    (codeOfAll p (args.map Argument.expr)).length ≤ 2 * (Argument.tokensOf args).length := by
  induction args generalizing p with
  | nil => exact Nat.le_refl 0
  | cons a args ih =>
    obtain ⟨ha, hargs⟩ := List.forall_mem_cons.1 h
    have hfirst := ha p
    have hrest := ih hargs (p + (a.expr.codeAt p).length)
    have htokens : (Argument.tokensOf (a :: args)).length =
        a.tokens.length + 1 + (Argument.tokensOf args).length := by
      simp only [Argument.tokensOf, List.flatMap_cons, List.length_append, List.length_singleton]
    simp only [List.map_cons, codeOfAll, List.length_append, htokens]
    omega

/-- At most one argument can be left out, except that of `Concat` all but two can. -/
theorem params_length_le {f : Builtin} (h : f ≠ .concat) :
    f.signature.params.length ≤ f.signature.required + 1 := by
  cases f with
  | concat => exact absurd rfl h
  | _ => decide

theorem length_codeAt_widen {left right : Expr} {m n : Nat}
    (hleft : ∀ p, (left.codeAt p).length < m) (hright : ∀ p, (right.codeAt p).length < n)
    (p q : Nat) :
    ((widen left right).1.codeAt p).length + ((widen left right).2.codeAt q).length < m + n := by
  have hconvert : ∀ (f : Builtin) (e : Expr) (p : Nat),
      ((convert f e).codeAt p).length = (e.codeAt (p + 1)).length + 1 := by
    intro f e p
    simp [convert, codeAt, codeOfAll]
  unfold widen
  split
  · have h₁ := hleft (p + 1)
    have h₂ := hright q
    simp only [hconvert]
    omega
  · have h₁ := hleft p
    have h₂ := hright (q + 1)
    simp only [hconvert]
    omega
  · have h₁ := hleft p
    have h₂ := hright q
    simp only
    omega

/-- The code of a call, if its arguments have less than two instructions for a token. -/
theorem length_codeAt_mkCall {line : Nat} {name : String} {args : List Argument} {e : Expr}
    (h : mkCall line name (args.map Argument.expr) = .ok e)
    (hargs : ∀ a ∈ args, ∀ p, (a.expr.codeAt p).length < 2 * a.tokens.length) (p : Nat) :
    (e.codeAt p).length ≤ 2 * (Argument.tokensOf args).length + 2 := by
  obtain ⟨f, vs, -, -, hrequired, hvs, rfl⟩ := mkCall_eq h
  have hgiven := length_codeOfAll_arguments hargs (p + 1)
  rw [codeAt, List.length_cons]
  by_cases hf : f = .concat
  · -- the empty strings that are filled in are dropped again
    obtain ⟨n, -, -, hdrop⟩ := dropEmptyStrings_eq_take hrequired
    rw [if_pos hf, hdrop]
    have htake := length_codeOfAll_take_le (p + 1) n (args.map Argument.expr)
    omega
  · have hone : vs.length ≤ 1 := by
      have hlength := congrArg List.length hvs
      have hparams := params_length_le hf
      simp only [List.length_map, List.length_drop] at hlength hrequired
      omega
    rw [if_neg hf, length_codeOfAll_append, length_codeOfAll_literal]
    omega

/-- **An expression has less than two instructions for each token that it is read from.** -/
theorem From.length_codeAt {Γ : Scopes} {ts : List Token.Located} {e : Expr} (h : e.From Γ ts)
    (p : Nat) :
    (e.codeAt p).length < 2 * ts.length := by
  induction h generalizing p with
  | literal _ => simp [codeAt]
  | host _ => simp [codeAt]
  | load _ _ _ =>
    simp only [codeAt, List.length_cons, List.length_nil]
    omega
  | parens _ ih =>
    have := ih p
    simp only [List.length_cons, List.length_append, List.length_nil]
    omega
  | negate _ ih =>
    have := ih (p + 1)
    simp only [codeAt, List.length_cons]
    omega
  | @binary t op ls rs left right _ _ ihl ihr =>
    -- logical operands stay as they are, and of two others at most one is converted
    have hplain := ihl (p + 1)
    have hplain' := ihr (p + 1 + (left.codeAt (p + 1)).length)
    have hwiden := length_codeAt_widen ihl ihr (p + 1)
      (p + 1 + ((widen left right).1.codeAt (p + 1)).length)
    simp only [List.length_append, List.length_cons]
    by_cases hop : op.isLogical = true
    · simp only [mkBinary, if_pos hop, codeAt, List.length_cons, List.length_append]
      omega
    · simp only [mkBinary, if_neg hop, codeAt, List.length_cons, List.length_append]
      omega
  | @select t t' cs ys ns condition yes no _ _ _ ihc ihy ihn =>
    have hcondition := ihc (p + 1)
    have hwiden := length_codeAt_widen ihy ihn (p + 1 + (condition.codeAt (p + 1)).length)
      (p + 1 + (condition.codeAt (p + 1)).length +
        ((widen yes no).1.codeAt (p + 1 + (condition.codeAt (p + 1)).length)).length)
    simp only [mkSelect, codeAt, List.length_cons, List.length_append]
    omega
  | call _ _ hcall ih =>
    have := length_codeAt_mkCall hcall ih p
    simp only [List.length_cons, List.length_append]
    omega

end Expr

/-! ### Compiled bindings -/

theorem TokenRun.length_ofScanner (fuel : Nat) (s : Scanner) :
    (ofScanner fuel s).tokens.length ≤ fuel := by
  induction fuel generalizing s with
  | zero => exact Nat.le_refl 0
  | succ fuel ih =>
    rw [ofScanner]
    split
    · exact Nat.zero_le _
    · split
      · exact Nat.zero_le _
      · exact Nat.succ_le_succ (ih _)

theorem TokenRun.length_ofText (source : String) :
    (ofText source).tokens.length ≤ source.length + 1 := by
  have hlength : source.toList.length = source.length := String.length_toList
  have hrun := length_ofScanner (source.toList.length + 1) (Scanner.start source)
  rw [hlength] at hrun
  rw [ofText, Scanner.start, hlength]
  exact hrun

/-- The programs of compiled bindings have 64-bit lengths, if the text is no longer than texts
are. -/
theorem isIndex_of_compileBindings {source : String} {p : Bindings Code}
    (hsource : source.length < 2 ^ 63) (h : compileBindings source = .ok p) :
    ∀ code ∈ p.codes, ∃ e : Expr, code = e.code ∧ IsIndex e.code.length := by
  cases hparse : parseBindings source with
  | error e =>
    rw [compileBindings, hparse] at h
    simp [Except.map] at h
  | ok bindings =>
    rw [compileBindings, hparse] at h
    obtain rfl : bindings.map Expr.code = p := Except.ok.inj h
    intro code hcode
    rw [Bindings.codes_map] at hcode
    obtain ⟨e, he, rfl⟩ := List.mem_map.1 hcode
    obtain ⟨ts, hts, hfrom⟩ := ((parseBindings_parsed hparse).codes e he).reads
    have hlength := hfrom.length_codeAt 0
    have hrun := hts.length_le.trans (TokenRun.length_ofText source)
    refine ⟨e, rfl, ?_⟩
    rw [IsIndex, Expr.code]
    omega

/-! ### The same bindings -/

section

variable {α : Type}

/-- The same body, up to the order of entries. -/
def Binding.Body.Same : Binding.Body α → Binding.Body α → Prop
  | .expr e, .expr e' => e = e'
  | .entries es, .entries es' => es.Perm es'
  | _, _ => False

/-- The same bindings, up to order: the same kinds are bound, each with the same body. -/
structure Bindings.Same (p q : Bindings α) : Prop where
  kinds : p.kinds.Perm q.kinds
  bodies : ∀ kind, Option.Rel Binding.Body.Same (p.find? kind) (q.find? kind)

theorem Bindings.sorted_same {p : Bindings α} (h : p.WellFormed) : p.sorted.Same p := by
  refine ⟨kinds_sorted h.kinds, fun kind => ?_⟩
  rw [find?_sorted h.kinds]
  cases hfind : p.find? kind with
  | none => exact .none
  | some body =>
    refine .some ?_
    cases body with
    | expr e => exact rfl
    | entries es => exact Json.sortMembers_perm (h.bodies _ (mem_of_find? hfind)).2

end

/-! ### Whatever is read -/

/-- An object with different names, as a map has them, and with such objects as members. -/
def Json.HasNames : Json → Prop
  | .object members => (members.map Prod.fst).Nodup ∧
      ∀ m ∈ members, ∀ members', m.2 = .object members' → (members'.map Prod.fst).Nodup
  | _ => True

variable {members : List (String × Json)} {kind : Binding.Kind} {j : Json} {q : Bindings Code}

namespace Json

theorem canonicalMembers_eq_map (members : List (String × Json)) :
    canonicalMembers members = members.map fun m => (m.1, m.2.canonical) := by
  induction members with
  | nil => rfl
  | cons m members ih => rw [canonicalMembers, ih, List.map_cons]

/-- The objects among the members of a canonical object are in order. -/
theorem inOrder_of_canonical {members' : List (String × Json)} {m : String × Json}
    (h : sortMembers (canonicalMembers members) = members) (hm : m ∈ members)
    (hobject : m.2 = .object members') :
    InOrder members' := by
  have horder : InOrder members := h ▸ inOrder_sortMembers _
  have hnames : (canonicalMembers members).map Prod.fst = members.map Prod.fst := by
    rw [canonicalMembers_eq_map, List.map_map]
    rfl
  have hperm := sortMembers_perm (hnames ▸ horder.nodup)
  rw [h] at hperm
  have hmem := hperm.mem_iff.1 hm
  rw [canonicalMembers_eq_map] at hmem
  obtain ⟨m', -, rfl⟩ := List.mem_map.1 hmem
  -- a value whose canonical form is an object is one, and its members have been sorted
  cases hvalue : m'.2 with
  | object members'' =>
    rw [hvalue, canonical] at hobject
    rw [← object.inj hobject]
    exact inOrder_sortMembers _
  | _ => simp [hvalue, canonical] at hobject

end Json

/-- A program that was read from a text is read from its own. -/
theorem Code.decode_encode_of_text {separator text : String} {first : Char} {code : Code}
    (hseparator : checkSeparator separator = .ok first) (h : decode separator text = .ok code)
    (hfloats : ∀ s ∈ code.slots, ∀ x ∈ s.value.floats,
      x.isFinite = true → (Json.Number.float x).ReadsBack) :
    decode separator (code.encode separator) = .ok code := by
  obtain ⟨-, ⟨-, rfl⟩ | ⟨-, hread, hvalid⟩⟩ := decode_eq_ok.1 h
  · exact (decode_encode_eq_ok hseparator rfl).2 (by simp)
  · have hwritable := writable_of_readPieces hread hfloats
    exact (decode_encode_eq_ok hseparator hvalid).2 fun i hi =>
      i.readChars_writeChars (hwritable i hi)

theorem Binding.Kind.name_of_ofName? {name : String} (h : Binding.Kind.ofName? name = some kind) :
    kind.name = name := by
  simpa using List.find?_some h

namespace Bindings

variable {separator : String}

theorem readEntries_eq_ok {es : Table Code} (h : readEntries separator kind members = .ok es) :
    List.Forall₂ (fun m e => m.1 = e.1 ∧ ∃ text, Code.decode separator text = .ok e.2)
      members es := by
  induction members generalizing es with
  | nil =>
    obtain rfl : [] = es := Except.ok.inj h
    exact .nil
  | cons m members ih =>
    obtain ⟨name, value⟩ := m
    cases value with
    | string text =>
      rw [readEntries, except_bind_eq_ok] at h
      obtain ⟨code, hcode, h⟩ := h
      obtain ⟨rest, hrest, heq⟩ := except_bind_eq_ok.1 h
      cases heq
      exact .cons ⟨rfl, text, hcode⟩ (ih hrest)
    | _ => simp [readEntries] at h

theorem exists_of_forall₂ {β γ : Type} {R : β → γ → Prop} {l : List β} {l' : List γ}
    (h : List.Forall₂ R l l') {b : γ} (hb : b ∈ l') : ∃ a ∈ l, R a b := by
  induction h with
  | nil => cases hb
  | cons hab _ ih =>
    rcases List.mem_cons.1 hb with rfl | hb
    · exact ⟨_, List.mem_cons_self, hab⟩
    · obtain ⟨a, ha, hR⟩ := ih hb
      exact ⟨a, List.mem_cons_of_mem _ ha, hR⟩

theorem names_of_forall₂ {β γ : Type} {R : String × β → String × γ → Prop} {l : List (String × β)}
    {l' : List (String × γ)} (h : List.Forall₂ R l l') (hR : ∀ a b, R a b → a.1 = b.1) :
    l.map Prod.fst = l'.map Prod.fst := by
  induction h with
  | nil => rfl
  | cons hab _ ih => rw [List.map_cons, List.map_cons, hR _ _ hab, ih]

/-- A body is read from a text, or, if its kind has entries, from an object. -/
theorem readBody_cases {body : Binding.Body Code} (h : readBody separator kind j = .ok body) :
    (∃ text code, kind.hasEntries = false ∧ body = .expr code ∧
      Code.decode separator text = .ok code) ∨
      ∃ members es, kind.hasEntries = true ∧ j = .object members ∧ body = .entries es ∧
        List.Forall₂ (fun m e => m.1 = e.1 ∧ ∃ text, Code.decode separator text = .ok e.2)
          members es := by
  cases hkind : kind.hasEntries with
  | false =>
    cases j with
    | string text =>
      simp only [readBody, hkind] at h
      obtain ⟨code, hcode, rfl⟩ := except_map_eq_ok.1 h
      exact .inl ⟨text, code, rfl, rfl, hcode⟩
    | _ => simp [readBody, hkind] at h
  | true =>
    cases j with
    | object members =>
      simp only [readBody, hkind] at h
      obtain ⟨es, hes, rfl⟩ := except_map_eq_ok.1 h
      exact .inr ⟨members, es, rfl, rfl, rfl, readEntries_eq_ok hes⟩
    | _ => simp [readBody, hkind] at h

theorem exists_text_of_readBody {body : Binding.Body Code}
    (h : readBody separator kind j = .ok body) :
    ∀ code ∈ body.codes, ∃ text, Code.decode separator text = .ok code := by
  intro code hcode
  rcases readBody_cases h with ⟨text, code', -, rfl, htext⟩ | ⟨members, es, -, -, rfl, hread⟩
  · obtain rfl := List.mem_singleton.1 hcode
    exact ⟨text, htext⟩
  · obtain ⟨e, he, rfl⟩ := List.mem_map.1 hcode
    obtain ⟨m, -, -, htext⟩ := exists_of_forall₂ hread he
    exact htext

theorem readMembers_eq_ok (h : readMembers separator members = .ok q) :
    List.Forall₂ (fun m b => m.1 = b.1.name ∧ readBody separator b.1 m.2 = .ok b.2) members q := by
  induction members generalizing q with
  | nil =>
    obtain rfl : [] = q := Except.ok.inj h
    exact .nil
  | cons m members ih =>
    obtain ⟨name, value⟩ := m
    rw [readMembers] at h
    split at h
    · cases h
    · rename_i kind hkind
      obtain ⟨body, hbody, h⟩ := except_bind_eq_ok.1 h
      obtain ⟨rest, hrest, heq⟩ := except_bind_eq_ok.1 h
      cases heq
      exact .cons ⟨(Binding.Kind.name_of_ofName? hkind).symm, hbody⟩ (ih hrest)

theorem names_of_readMembers (h : readMembers separator members = .ok q) :
    (Binding.named q).map Prod.fst = members.map Prod.fst := by
  refine (names_of_forall₂ (R := fun m b => m.1 = b.1) ?_ fun _ _ h => h).symm
  exact List.forall₂_map_right_iff.2 ((readMembers_eq_ok h).imp fun _ _ h => h.1)

/-- What an object is read as is well formed, and its programs are read from texts. -/
theorem wellFormed_of_ofJson (hnames : j.HasNames) (h : ofJson separator j = .ok q) :
    q.WellFormed ∧ ∀ code ∈ q.codes, ∃ text, Code.decode separator text = .ok code := by
  cases j with
  | object members =>
    have hread := readMembers_eq_ok h
    refine ⟨⟨?_, fun b hb => ?_⟩, fun code hcode => ?_⟩
    · have hnodup := hnames.1
      rw [← names_of_readMembers h, Binding.named, List.map_map] at hnodup
      have hkinds : (q.kinds.map Binding.Kind.name).Nodup := by
        rw [kinds, List.map_map]
        exact hnodup
      exact hkinds.of_map
    · obtain ⟨m, hm, -, hbody⟩ := exists_of_forall₂ hread hb
      rcases readBody_cases hbody with
        ⟨-, code, hkind, heq, -⟩ | ⟨members', es, hkind, hobject, heq, hes⟩
      · rw [heq]
        exact hkind
      · rw [heq]
        exact ⟨hkind, names_of_forall₂ hes (fun _ _ h => h.1) ▸ hnames.2 m hm members' hobject⟩
    · obtain ⟨b, hb, hcode⟩ := List.mem_flatMap.1 hcode
      obtain ⟨m, -, -, hbody⟩ := exists_of_forall₂ hread hb
      exact exists_text_of_readBody hbody code hcode
  | _ => simp [ofJson] at h

theorem inOrder_of_ofJson (hcanonical : j.canonical = j) (h : ofJson separator j = .ok q) :
    q.InOrder := by
  cases j with
  | object members =>
    have hsorted : Json.sortMembers (Json.canonicalMembers members) = members := by
      rw [Json.canonical] at hcanonical
      exact Json.object.inj hcanonical
    have horder : Json.InOrder members := hsorted ▸ Json.inOrder_sortMembers _
    constructor
    · have hpairs := List.pairwise_map.2 horder
      rw [← names_of_readMembers h, Binding.named, List.map_map] at hpairs
      exact List.pairwise_map.1 hpairs
    · intro b hb
      obtain ⟨m, hm, -, hbody⟩ := exists_of_forall₂ (readMembers_eq_ok h) hb
      rcases readBody_cases hbody with ⟨-, code, -, heq, -⟩ | ⟨members', es, -, hobject, heq, hes⟩
      · rw [heq]
        trivial
      · rw [heq]
        have hmembers' := Json.inOrder_of_canonical hsorted hm hobject
        have hpairs := List.pairwise_map.2 hmembers'
        rw [names_of_forall₂ hes fun _ _ h => h.1] at hpairs
        exact List.pairwise_map.1 hpairs
  | _ => simp [ofJson] at h

/-- **Written as an object and read again, bindings are the same up to order.** This holds for the
programs of every text, and for whatever an object is read as, if the finite numbers in its slots
are read from their texts. What a canonical object is read as is in order, so that nothing changes
at all. -/
theorem ofJson_toJson_same {separator : String} {first : Char}
    (hseparator : checkSeparator separator = .ok first) :
    (∀ (source : String) (p : Bindings Code), source.length < 2 ^ 63 →
      compileBindings source = .ok p →
      ∃ q, ofJson separator (p.toJson separator) = .ok q ∧ q.Same p) ∧
    ∀ (j : Json) (q : Bindings Code), j.HasNames → ofJson separator j = .ok q →
      (∀ code ∈ q.codes, ∀ s ∈ code.slots, ∀ x ∈ s.value.floats,
        x.isFinite = true → (Json.Number.float x).ReadsBack) →
      ∃ q', ofJson separator (q.toJson separator) = .ok q' ∧ q'.Same q ∧
        (j.canonical = j → q' = q) := by
  constructor
  · intro source p hsource hcompile
    have hshape := (compileBindings_eq_ok hcompile).1
    refine ⟨p.sorted, ofJson_toJson hshape fun code hcode => ?_, sorted_same hshape⟩
    obtain ⟨e, rfl, hlength⟩ := isIndex_of_compileBindings hsource hcompile code hcode
    exact e.decode_code hseparator hlength
  · intro j q hnames hread hfloats
    obtain ⟨hshape, htexts⟩ := wellFormed_of_ofJson hnames hread
    refine ⟨q.sorted, ofJson_toJson hshape fun code hcode => ?_, sorted_same hshape,
      fun hcanonical => ?_⟩
    · obtain ⟨text, htext⟩ := htexts code hcode
      exact Code.decode_encode_of_text hseparator htext (hfloats code hcode)
    · exact sorted_of_inOrder (inOrder_of_ofJson hcanonical hread)

/-- Bindings with an entry that has no name, and with neither the kinds nor the entries in order. -/
def unorderedSource : String :=
  "value: \x7b 1 + 0.5 \x7d, css: \x7b 'wide': 1 < 2, '': Pos('a', @ui.mode) == 0 \x7d"

/-- An object that no bindings are written as: it is not in order, and its programs have a sign and
an escape that say nothing. -/
def looseObject : Json :=
  .object [("value", .string "n:+5"),
    ("css", .object [("wide", .string "\\n:1e3"), ("", .string "n:1")])]

theorem ofJson_toJson_same_unordered :
    (∃ p q, compileBindings unorderedSource = .ok p ∧ ofJson "," (p.toJson ",") = .ok q ∧
      q.Same p) ∧
      ∃ q q', ofJson "," looseObject = .ok q ∧ ofJson "," (q.toJson ",") = .ok q' ∧ q'.Same q := by
  have hseparator : checkSeparator "," = .ok ',' := rfl
  obtain ⟨hcompiled, hread⟩ := ofJson_toJson_same hseparator
  constructor
  · obtain ⟨p, hcompile, -⟩ : ∃ p, compileBindings unorderedSource = .ok p ∧ True := by
      decide +kernel
    obtain ⟨q, hq, hsame⟩ := hcompiled unorderedSource p (by decide) hcompile
    exact ⟨p, q, hcompile, hq, hsame⟩
  · obtain ⟨q, hq, hslots⟩ : ∃ q, ofJson "," looseObject = .ok q ∧
        ∀ code ∈ q.codes, code.slots.length = 0 := by
      decide +kernel
    have hnames : looseObject.HasNames := by
      refine ⟨by decide, ?_⟩
      simp only [List.forall_mem_cons]
      refine ⟨by simp, ?_, by simp⟩
      rintro members' h
      rw [← Json.object.inj h]
      decide
    obtain ⟨q', hq', hsame, -⟩ := hread looseObject q hnames hq fun code hcode s hs => by
      rw [List.length_eq_zero_iff.1 (hslots code hcode)] at hs
      cases hs
    exact ⟨q, q', hq, hq', hsame⟩

end Bindings

end BindScript
