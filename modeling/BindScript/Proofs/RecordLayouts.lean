/-
**Layouts of records.**

A record is laid out flat when it is declared: for each path from one of its fields down to a
primitive one there is a leaf, under the names on the path with points between them.  Twice the same
leaf is refused, whichever fields it comes from.  That is not the same as twice the same field: a
primitive field and a record, or two records without a leaf in common, may have one name
(`repeated_field_accepted`), and then one leaf can be the beginning of another one.  If the names
are distinct in a record and in those under it, no leaf is the beginning of another one.

Which record types are in sight depends on all that was read before.  So a declaration is looked at
where the parser arrives at it, and a record type that is in sight there leads back to the
declaration that was accepted for it.

Main results:

* `Parse.arrives_declared` — **record types in sight were declared**;
* `record_layouts` — **the layouts of accepted declarations, and which ones are refused**.
-/

import BindScript.Proofs.Parser.Levels
import BindScript.Proofs.Scoping.Extension

namespace BindScript

/-! ### Layouts -/

/-- The fields of a record in their order, with what is under those that are records. -/
inductive Shape where
  | empty
  | leaf (name : String) (ty : Ty) (rest : Shape)
  | record (name : String) (under rest : Shape)

namespace Shape

/-- The names of the fields themselves. -/
def names : Shape → List String
  | empty => []
  | leaf name _ rest | record name _ rest => name :: rest.names

def primitives : Shape → List String
  | empty => []
  | leaf name _ rest => name :: rest.primitives
  | record _ _ rest => rest.primitives

/-- The paths from the fields down to primitive ones, with the types there. -/
def paths : Shape → List (List String × Ty)
  | empty => []
  | leaf name ty rest => ([name], ty) :: rest.paths
  | record name under rest => under.paths.map (fun p => (name :: p.1, p.2)) ++ rest.paths

/-- One leaf for each path. -/
def layout (shape : Shape) : Fields := shape.paths.map fun p => (".".intercalate p.1, p.2)

/-- The names are distinct, and so are those under each field. -/
def Distinct : Shape → Prop
  | empty => True
  | leaf name _ rest => name ∉ rest.names ∧ rest.Distinct
  | record name under rest => name ∉ rest.names ∧ under.Distinct ∧ rest.Distinct

/-- The names can be spelled, and so can those under each field. -/
def Named : Shape → Prop
  | empty => True
  | leaf name _ rest => IsName name ∧ rest.Named
  | record name under rest => IsName name ∧ under.Named ∧ rest.Named

@[simp] theorem layout_empty : empty.layout = [] := rfl

@[simp] theorem layout_leaf (name : String) (ty : Ty) (rest : Shape) :
    (leaf name ty rest).layout = (name, ty) :: rest.layout := by
  simp [layout, paths]

theorem exists_cons_of_mem_paths {shape : Shape} {p : List String × Ty} (h : p ∈ shape.paths) :
    ∃ name rest, p.1 = name :: rest ∧ name ∈ shape.names := by
  induction shape with
  | empty => simp [paths] at h
  | leaf name ty rest ih =>
    rcases List.mem_cons.1 h with rfl | h
    · exact ⟨name, [], rfl, List.mem_cons_self⟩
    · obtain ⟨name', rest', hp, hname'⟩ := ih h
      exact ⟨name', rest', hp, List.mem_cons_of_mem _ hname'⟩
  | record name under rest _ ih =>
    rcases List.mem_append.1 h with h | h
    · obtain ⟨p', -, rfl⟩ := List.mem_map.1 h
      exact ⟨name, p'.1, rfl, List.mem_cons_self⟩
    · obtain ⟨name', rest', hp, hname'⟩ := ih h
      exact ⟨name', rest', hp, List.mem_cons_of_mem _ hname'⟩

@[simp] theorem layout_record (name : String) (under rest : Shape) :
    (record name under rest).layout =
      under.layout.map (fun leaf => (name ++ "." ++ leaf.1, leaf.2)) ++ rest.layout := by
  simp only [layout, paths, List.map_append, List.map_map]
  congr 1
  refine List.map_congr_left fun p hp => ?_
  obtain ⟨name', rest', hp, -⟩ := exists_cons_of_mem_paths hp
  simp [hp, String.intercalate_cons_cons]

theorem primitives_sublist (shape : Shape) :
    shape.primitives.Sublist (shape.layout.map Prod.fst) := by
  induction shape with
  | empty => exact .slnil
  | leaf name ty rest ih => simpa [primitives] using ih
  | record name under rest _ ih =>
    simp only [layout_record, List.map_append]
    exact ih.trans (List.sublist_append_right _ _)

theorem eq_of_append_point {a b x y : List Char} (ha : '.' ∉ a) (hb : '.' ∉ b)
    (hy : y = [] ∨ ∃ z, y = '.' :: z) (h : a ++ '.' :: x = b ++ y) : a = b ∧ y = '.' :: x := by
  induction a generalizing b with
  | nil =>
    cases b with
    | nil => exact ⟨rfl, h.symm⟩
    | cons c b =>
      obtain ⟨rfl, -⟩ := List.cons.inj h
      exact absurd List.mem_cons_self hb
  | cons c a ih =>
    cases b with
    | nil =>
      rcases hy with rfl | ⟨z, rfl⟩
      · cases h
      · obtain ⟨rfl, -⟩ := List.cons.inj h
        exact absurd List.mem_cons_self ha
    | cons d b =>
      obtain ⟨rfl, htail⟩ := List.cons.inj h
      obtain ⟨rfl, hy⟩ := ih (fun h => ha (List.mem_cons_of_mem _ h))
        (fun h => hb (List.mem_cons_of_mem _ h)) htail
      exact ⟨rfl, hy⟩

theorem toList_intercalate_cons (name : String) (rest : List String) :
    (".".intercalate (name :: rest)).toList =
      name.toList ++ if rest = [] then [] else '.' :: (".".intercalate rest).toList := by
  cases rest with
  | nil => simp
  | cons next rest => simp [String.intercalate_cons_cons]

/-- A path that begins like another one and goes on with a point has the same first name; what is
after it goes on so as well. -/
theorem prefix_tail {name name' : String} {rest rest' : List String} (hname : IsName name)
    (hname' : IsName name')
    (h : (".".intercalate (name :: rest) ++ ".").toList <+:
      (".".intercalate (name' :: rest')).toList) :
    name = name' ∧ rest' ≠ [] ∧
      (rest ≠ [] → (".".intercalate rest ++ ".").toList <+: (".".intercalate rest').toList) := by
  obtain ⟨more, hmore⟩ := h
  simp only [String.toList_append, toList_intercalate_cons, List.append_assoc] at hmore
  have hpoint : ∃ x,
      (if rest = [] then [] else '.' :: (".".intercalate rest).toList) ++ (".".toList ++ more) =
      '.' :: x := by
    split <;> exact ⟨_, rfl⟩
  obtain ⟨x, hx⟩ := hpoint
  rw [hx] at hmore
  obtain ⟨hnames, hrest'⟩ :=
    eq_of_append_point hname.noPoint hname'.noPoint (by split <;> simp) hmore
  refine ⟨String.toList_inj.1 hnames, ?_, ?_⟩
  · rintro rfl
    cases hrest'
  · intro hrest
    rw [if_neg hrest] at hx
    have hne : rest' ≠ [] := by
      rintro rfl
      cases hrest'
    rw [if_neg hne, ← hx] at hrest'
    exact ⟨more, by simpa using (List.cons.inj hrest').2.symm⟩

theorem Named.isName {shape : Shape} (h : shape.Named) {name : String}
    (hname : name ∈ shape.names) :
    IsName name := by
  induction shape with
  | empty => simp [names] at hname
  | leaf _ _ rest ih =>
    rcases List.mem_cons.1 hname with rfl | hname
    · exact h.1
    · exact ih h.2 hname
  | record _ under rest _ ih =>
    rcases List.mem_cons.1 hname with rfl | hname
    · exact h.1
    · exact ih h.2.2 hname

/-- A leaf goes on where another one ends. -/
def Continues (p q : List String × Ty) : Prop :=
  (".".intercalate p.1 ++ ".").toList <+: (".".intercalate q.1).toList

theorem not_continues_of_notMem {shape : Shape} {name : String} (hname : name ∉ shape.names)
    (hnamed : shape.Named) (hisName : IsName name) {p q : List String × Ty} {rest : List String}
    (hp : p.1 = name :: rest) (hq : q ∈ shape.paths) : ¬Continues p q ∧ ¬Continues q p := by
  obtain ⟨name', rest', hq, hname'⟩ := exists_cons_of_mem_paths hq
  have hisName' := hnamed.isName hname'
  unfold Continues
  rw [hp, hq]
  constructor
  · intro h
    exact hname ((prefix_tail hisName hisName' h).1 ▸ hname')
  · intro h
    exact hname ((prefix_tail hisName' hisName h).1 ▸ hname')

/-- **No leaf is the beginning of another one**, if the names are distinct. -/
theorem not_continues {shape : Shape} (hdistinct : shape.Distinct) (hnamed : shape.Named)
    {p q : List String × Ty} (hp : p ∈ shape.paths) (hq : q ∈ shape.paths) : ¬Continues p q := by
  induction shape generalizing p q with
  | empty => simp [paths] at hp
  | leaf name ty rest ih =>
    -- a leaf here and one of the rest differ in their first names
    have hother {p q : List String × Ty} (hp : p = ([name], ty)) (hq : q ∈ rest.paths) :=
      not_continues_of_notMem hdistinct.1 hnamed.2 hnamed.1 (congrArg Prod.fst hp) hq
    rcases List.mem_cons.1 hp with hp | hp
    · rcases List.mem_cons.1 hq with rfl | hq
      · subst hp
        exact fun h => (prefix_tail hnamed.1 hnamed.1 h).2.1 rfl
      · exact (hother hp hq).1
    · rcases List.mem_cons.1 hq with hq | hq
      · exact (hother hq hp).2
      · exact ih hdistinct.2 hnamed.2 hp hq
  | record name under rest ihunder ihrest =>
    have hother {p q : List String × Ty} (hp : p ∈ under.paths.map fun p => (name :: p.1, p.2))
        (hq : q ∈ rest.paths) : ¬Continues p q ∧ ¬Continues q p := by
      obtain ⟨p, -, rfl⟩ := List.mem_map.1 hp
      exact not_continues_of_notMem hdistinct.1 hnamed.2.2 hnamed.1 rfl hq
    rcases List.mem_append.1 hp with hp | hp
    · rcases List.mem_append.1 hq with hq | hq
      · -- both are under this field: what is after its name is compared
        obtain ⟨p, hp', rfl⟩ := List.mem_map.1 hp
        obtain ⟨q, hq', rfl⟩ := List.mem_map.1 hq
        obtain ⟨_, _, hne, -⟩ := exists_cons_of_mem_paths hp'
        intro h
        exact ihunder hdistinct.2.1 hnamed.2.1 hp' hq'
          ((prefix_tail hnamed.1 hnamed.1 h).2.2 (by simp [hne]))
      · exact (hother hp hq).1
    · rcases List.mem_append.1 hq with hq | hq
      · exact (hother hq hp).2
      · exact ihrest hdistinct.2.2 hnamed.2.2 hp hq

end Shape

/-! ### Declarations as they are written -/

namespace Parse

/-- Reading the text with these variables, the parser arrives at a rule. -/
def Arrives (source : String) (slots : List Slot) : Activation → Prop :=
  Relation.ReflTransGen (Activation.Calls fun _ r => r.outcome)
    ⟨.wholeProgram, { ParseState.start source with scopes := Scopes.push [] slots }⟩

/-- Fields up to the closing brace, each with the token of its type and with its name, and the
tokens after them. -/
inductive WritesFields :
    List Token.Located → List (Token.Located × String) → List Token.Located → Prop
  | close {t rest} : t.token = .mark .closeBrace → WritesFields (t :: rest) [] rest
  | field {t tn ts name tokens written rest} : tn.token = .ident name →
      ts.token = .mark .semicolon →
      WritesFields tokens written rest →
      WritesFields (t :: tn :: ts :: tokens) ((t, name) :: written) rest

/-- The tokens begin with the declaration of a record, with this name and these fields. -/
def WritesRecord (tokens : List Token.Located) (name : String)
    (written : List (Token.Located × String)) : Prop :=
  ∃ t tn tb inside rest, tokens = t :: tn :: tb :: inside ∧ t.token = .keyword .record ∧
    tn.token = .ident name ∧ tb.token = .mark .openBrace ∧ WritesFields inside written rest

/-- The parser arrives at the declaration of a record and accepts it. -/
structure Accepts (source : String) (slots : List Slot) (s : ParseState) (name : String)
    (written : List (Token.Located × String)) : Prop where
  arrives : Arrives source slots ⟨.record, s⟩
  accepts : ∃ s', recordDeclaration s = .ok ((), s')
  writes : WritesRecord s.tokens name written

/-- What is under fields that are written where these scopes are open: a value of a primitive type,
or the fields of a record that was accepted and is in sight. -/
inductive Under (source : String) (slots : List Slot) :
    Scopes → List (Token.Located × String) → Shape → Prop
  | empty {Γ} : Under source slots Γ [] .empty
  | leaf {Γ t name k ty written rest} : t.token = .keyword k → k.ty? = some ty → ty.isLeaf = true →
      Under source slots Γ written rest →
      Under source slots Γ ((t, name) :: written) (.leaf name ty rest)
  | record {Γ t name type s written₀ under written rest} : t.token = .ident type →
      Accepts source slots s type written₀ → Under source slots s.scopes written₀ under →
      Γ.type? type = some under.layout → Under source slots Γ written rest →
      Under source slots Γ ((t, name) :: written) (.record name under rest)

variable {source : String} {slots : List Slot} {Γ : Scopes}
    {written : List (Token.Located × String)}
  {shape : Shape} {s s' : ParseState}

/-! ### The names and the types of leaves -/

theorem Arrives.wellNamed {c : Activation} (h : Arrives source slots c) : c.state.WellNamed := by
  induction h with
  | refl => exact ParseState.wellNamed_start source _
  | tail _ hcall ih => exact fun t ht => ih t (hcall.below.1.subset ht)

theorem WritesFields.named {tokens rest : List Token.Located} (h : WritesFields tokens written rest)
    (htokens : ∀ t ∈ tokens, t.token.WellNamed) : ∀ w ∈ written, IsName w.2 := by
  induction h with
  | close _ => simp
  | @field t tn ts name tokens written rest hname _ _ ih =>
    intro w hw
    rcases List.mem_cons.1 hw with rfl | hw
    · have hnamed := htokens tn (by simp)
      rwa [hname] at hnamed
    · exact ih (fun t ht => htokens t (by simp [ht])) w hw

theorem Accepts.named {name : String} (h : Accepts source slots s name written) :
    ∀ w ∈ written, IsName w.2 := by
  obtain ⟨t, tn, tb, inside, rest, htokens, -, -, -, hwrites⟩ := h.writes
  refine hwrites.named fun t ht => h.arrives.wellNamed t ?_
  simp [htokens, ht]

namespace Under

theorem named (h : Under source slots Γ written shape) (hwritten : ∀ w ∈ written, IsName w.2) :
    shape.Named := by
  induction h with
  | empty => exact trivial
  | leaf _ _ _ _ ih =>
    exact ⟨hwritten _ List.mem_cons_self, ih fun w hw => hwritten w (List.mem_cons_of_mem _ hw)⟩
  | record _ haccepts _ _ _ ihunder ih =>
    exact ⟨hwritten _ List.mem_cons_self, ihunder haccepts.named,
      ih fun w hw => hwritten w (List.mem_cons_of_mem _ hw)⟩

theorem isLeaf (h : Under source slots Γ written shape) :
    ∀ leaf ∈ shape.layout, Ty.isLeaf leaf.2 = true := by
  induction h with
  | empty => simp
  | leaf _ _ hleaf _ ih => simpa using ⟨hleaf, fun path ty h => ih (path, ty) h⟩
  | record _ _ _ _ _ ihunder ih =>
    intro leaf hleaf
    rw [Shape.layout_record] at hleaf
    rcases List.mem_append.1 hleaf with hleaf | hleaf
    · obtain ⟨inner, hinner, rfl⟩ := List.mem_map.1 hleaf
      exact ihunder inner hinner
    · exact ih leaf hleaf

/-- The leaves of the first field, as they are read, and the other fields. -/
theorem uncons {t : Token.Located} {name : String}
    (h : Under source slots Γ ((t, name) :: written) shape) :
    ∃ leaves rest, Under source slots Γ written rest ∧ shape.layout = leaves ++ rest.layout ∧
      t.token ≠ .mark .closeBrace ∧
      ∀ line s, s.scopes = Γ → fieldLeaves t.token name line s = .ok (leaves, s) := by
  cases h with
  | @leaf _ _ _ k ty _ rest hk hty hleaf hrest =>
    refine ⟨[(name, ty)], rest, hrest, by simp, by simp [hk], fun line s _ => ?_⟩
    rw [hk, fieldLeaves]
    cases ty with
    | void => simp [Ty.isLeaf] at hleaf
    | _ => simp only [hty]; rfl
  | @record _ _ _ type _ _ under _ rest htype _ _ hfields hrest =>
    refine ⟨_, rest, hrest, Shape.layout_record name under rest, by simp [htype], ?_⟩
    rintro line s rfl
    have hscopes : scopes s = .ok (s.scopes, s) := rfl
    rw [htype, fieldLeaves, bind_of_ok hscopes, hfields]
    rfl

end Under

/-! ### Reading the fields -/

/-- A record type that was declared by an accepted declaration. -/
def Declared (source : String) (slots : List Slot) (type : String) (fields : Fields) : Prop :=
  ∃ s written under, Accepts source slots s type written ∧
    Under source slots s.scopes written under ∧
    fields = under.layout

/-- All record types in the scopes have a property. -/
def AllTypes (D : String → Fields → Prop) (Γ : Scopes) : Prop :=
  ∀ scope ∈ Γ, ∀ entry ∈ scope.types, D entry.1 entry.2

theorem AllTypes.of_type? {D : String → Fields → Prop} (h : AllTypes D Γ) {type : String}
    {fields : Fields} (hfields : Γ.type? type = some fields) : D type fields := by
  obtain ⟨scope, hscope, hlookup⟩ := List.exists_of_findSome?_eq_some hfields
  exact h scope hscope (type, fields) (Table.mem_of_lookup hlookup)

theorem FieldLeaves.under (hΓ : AllTypes (Declared source slots) Γ) {t : Token.Located}
    {name : String} {leaves : Fields} (h : FieldLeaves Γ name t.token leaves)
    (hrest : Under source slots Γ written shape) :
    ∃ shape', Under source slots Γ ((t, name) :: written) shape' ∧
      shape'.layout = leaves ++ shape.layout := by
  generalize htoken : t.token = token at h
  cases h with
  | @primitive k ty hty hleaf => exact ⟨.leaf name ty shape, .leaf htoken hty hleaf hrest, by simp⟩
  | record hfields =>
    obtain ⟨s₀, written₀, under, haccepts, hunder, rfl⟩ := hΓ.of_type? hfields
    exact ⟨.record name under shape, .record htoken haccepts hunder hfields hrest,
      Shape.layout_record _ _ _⟩

theorem ReadFields.under (hΓ : AllTypes (Declared source slots) Γ) {record : String}
    {tokens rest : List Token.Located} {fields all : Fields}
    (h : ReadFields record Γ tokens fields all rest) (hfields : (fields.map Prod.fst).Nodup) :
    ∃ written shape, WritesFields tokens written rest ∧ Under source slots Γ written shape ∧
      all = fields ++ shape.layout ∧ (all.map Prod.fst).Nodup := by
  induction h with
  | close htoken => exact ⟨[], .empty, .close htoken, .empty, by simp, hfields⟩
  | @field t tn ts _ _ name leaves fields _ _ htn hts hleaves hadd _ ih =>
    rcases addLeaves_cases record t.line hfields leaves with ⟨hnodup, hok⟩ | ⟨path, -, herror⟩
    · obtain rfl := Except.ok.inj (hok.symm.trans hadd)
      obtain ⟨written, shape, hwrites, hshape, rfl, hall⟩ := ih hnodup
      obtain ⟨shape', hshape', hlayout⟩ := hleaves.under hΓ hshape
      exact ⟨(t, name) :: written, shape', .field htn hts hwrites, hshape',
        by rw [hlayout, List.append_assoc], hall⟩
    · exact absurd (herror.symm.trans hadd) (by simp)

/-- What is read after a field: the fields after it, unless it is refused. -/
def afterField (record : String) : Except CompileError Fields → Act Fields
  | .error e => .fail e
  | .ok fields =>
    .op (.expect (.mark .semicolon)) fun _ => .call (.recordFields record fields) .done

/-- **The fields that are written are read**, or two of their leaves have one path. -/
theorem outcome_recordFields {tokens rest : List Token.Located}
    (hwrites : WritesFields tokens written rest)
    (hunder : Under source slots s.scopes written shape) (record : String) (fields : Fields)
    (hfields : (fields.map Prod.fst).Nodup) :
    ((fields ++ shape.layout).map Prod.fst).Nodup ∧
        (Rule.recordFields record fields).outcome { s with tokens } =
          .ok (fields ++ shape.layout, { s with tokens := rest }) ∨
      ∃ path, [path, path].Sublist ((fields ++ shape.layout).map Prod.fst) ∧ ∃ w ∈ written,
        (Rule.recordFields record fields).outcome { s with tokens } =
          .error ⟨.repeatedField path record, w.1.line⟩ := by
  induction hwrites generalizing shape fields with
  | @close t rest ht =>
    cases hunder
    have hmatch : optionalMatch (.mark .closeBrace)
        (({ s with tokens := rest } : ParseState).before [t]) =
        .ok (true, { s with tokens := rest }) := optionalMatch_before ht
    refine .inl ⟨by simpa using hfields, ?_⟩
    rw [Rule.outcome_eq]
    refine (bind_of_ok hmatch).trans ?_
    rw [Shape.layout_empty, List.append_nil]
    rfl
  | @field t tn ts name tokens written rest hname hts _ ih =>
    obtain ⟨leaves, shape', hunder', hlayout, hclose, hleaves⟩ := hunder.uncons
    have hmatch : optionalMatch (.mark .closeBrace)
        (({ s with tokens := tn :: ts :: tokens } : ParseState).before [t]) =
        .ok (false, { s with tokens := t :: tn :: ts :: tokens }) := optionalMatch_of_ne hclose
    have hadvance : advance { s with tokens := t :: tn :: ts :: tokens } =
        .ok (t, { s with tokens := tn :: ts :: tokens }) := rfl
    have hident : expectIdent (({ s with tokens := ts :: tokens } : ParseState).before [tn]) =
        .ok ((name, tn.line), { s with tokens := ts :: tokens }) := expectIdent_before hname
    have hexpect : expect (.mark .semicolon)
        (({ s with tokens := tokens } : ParseState).before [ts]) =
        .ok (ts, { s with tokens }) := expect_before hts
    have hread : (Rule.recordFields record fields).outcome
        { s with tokens := t :: tn :: ts :: tokens } =
        (afterField record (addLeaves record t.line fields leaves)).eval (fun _ r => r.outcome)
          { s with tokens := ts :: tokens } := by
      rw [Rule.outcome_eq]
      refine (bind_of_ok hmatch).trans ((bind_of_ok hadvance).trans ((bind_of_ok hident).trans ?_))
      exact bind_of_ok (hleaves t.line _ rfl)
    rw [hlayout, ← List.append_assoc]
    -- the leaves are added, or one of them has a path that is taken
    rcases addLeaves_cases record t.line hfields leaves with ⟨hnodup, hadd⟩ | ⟨path, hpath, hadd⟩
    · have hnext : (Rule.recordFields record fields).outcome
          { s with tokens := t :: tn :: ts :: tokens } =
          (Rule.recordFields record (fields ++ leaves)).outcome { s with tokens } := by
        rw [hread, hadd]
        refine (bind_of_ok hexpect).trans ?_
        exact congrFun (bind_pure _) _
      rw [hnext]
      refine (ih hunder' (fields ++ leaves) hnodup).imp_right ?_
      rintro ⟨path, hpath, w, hw, herror⟩
      exact ⟨path, hpath, w, List.mem_cons_of_mem _ hw, herror⟩
    · refine .inr ⟨path, ?_, (t, name), List.mem_cons_self, ?_⟩
      · rw [List.map_append]
        exact hpath.trans (List.sublist_append_left _ _)
      · rw [hread, hadd]
        rfl

/-! ### Where the parser arrives -/

section Walk

variable {α β : Type} {D : String → Fields → Prop}

/-- What an operation declares. -/
def Op.update? : {β : Type} → Op β → Option (Scopes → Except CompileError Unit × Scopes)
  | _, .updateScopes f => some f
  | _, _ => none

/-- The declarations in an act keep a property of all record types. -/
def Act.Keeps (D : String → Fields → Prop) : Act α → Prop
  | .done _ | .fail _ => True
  | .op o next =>
    (∀ f, o.update? = some f → ∀ Γ Γ', f Γ = (.ok (), Γ') → AllTypes D Γ → AllTypes D Γ') ∧
      ∀ b, (next b).Keeps D
  | .call _ next => ∀ b, (next b).Keeps D

theorem AllTypes.addVariable {Γ' : Scopes} {ty : Ty} {name : String} {line : Nat}
    (h : Γ.addVariable ty name line = (.ok (), Γ')) (hΓ : AllTypes D Γ) : AllTypes D Γ' := by
  obtain ⟨scope, outer, value, rfl, -, -, -, rfl⟩ := Scopes.addVariable_eq_ok h
  exact List.forall_mem_cons.2 (List.forall_mem_cons.1 hΓ)

theorem AllTypes.extend (hΓ : AllTypes D Γ) {name : String} {fields : Fields} (h : D name fields) :
    AllTypes D (Γ.extend [] [(name, fields)]) := by
  cases Γ with
  | nil => exact hΓ
  | cons scope outer =>
    obtain ⟨hscope, houter⟩ := List.forall_mem_cons.1 hΓ
    exact List.forall_mem_cons.2 ⟨List.forall_mem_append.2 ⟨hscope, by simpa using h⟩, houter⟩

theorem Op.run_allTypes {o : Op β} {b : β} (h : o.run s = .ok (b, s')) (hs : AllTypes D s.scopes)
    (ho : ∀ f, o.update? = some f → ∀ Γ Γ', f Γ = (.ok (), Γ') → AllTypes D Γ → AllTypes D Γ') :
    AllTypes D s'.scopes := by
  cases o with
  | lookahead n => rwa [lookahead_leaves n h]
  | advance => rwa [advance_leaves h]
  | expect wanted => rwa [expect_leaves _ h]
  | optionalMatch wanted => rwa [optionalMatch_leaves _ h]
  | expectIdent => rwa [expectIdent_leaves h]
  | expectEnd =>
    obtain ⟨t, s₁, hpeek, h⟩ := bind_eq_ok.1 h
    split at h
    · rwa [← (pure_eq_ok.1 h).2, peek_leaves hpeek]
    · exact absurd h fail_ne_ok
  | scopes => rwa [scopes_leaves h]
  | updateScopes f =>
    obtain ⟨Γ, hf, rfl⟩ := updateScopes_eq_ok h
    exact ho f rfl _ _ hf hs
  | openBlock =>
    obtain rfl := modify_eq_ok h
    exact List.forall_mem_cons.2 ⟨by simp, hs⟩
  | closeBlock statements =>
    obtain ⟨-, rfl⟩ := closeBlock_eq_ok h
    exact fun scope hscope => hs scope (List.mem_of_mem_drop hscope)
  | fieldLeaves type field line => rwa [fieldLeaves_leaves _ _ _ h]

/-- Record types are kept with a property, and errors are not looked at. -/
def declaring (D : String → Fields → Prop) : Contract where
  pre _ s := AllTypes D s.scopes
  post _ _ _ s' := AllTypes D s'.scopes
  error _ := True

theorem Act.Keeps.ensures {act : Act α} (h : act.Keeps D) (hs : AllTypes D s.scopes) :
    act.Ensures (declaring D) (fun _ s' => AllTypes D s'.scopes) s := by
  induction act generalizing s with
  | done a => exact hs
  | fail e => exact trivial
  | op o next ih => exact ⟨fun hb => ih _ (h.2 _) (Op.run_allTypes hb hs h.1), fun _ => trivial⟩
  | call r next ih => exact ⟨hs, fun b s' hs' => ih b (h b) hs'⟩

theorem Act.keeps_op {β : Type} {o : Op β} {next : β → Act α} (ho : o.update? = none)
    (h : ∀ b, (next b).Keeps D) : (Act.op o next).Keeps D :=
  ⟨by simp [ho], h⟩

theorem Act.keeps_call {β : Type} {r : Rule β} {next : β → Act α} (h : ∀ b, (next b).Keeps D) :
    (Act.call r next).Keeps D := h

theorem Act.keeps_ofExcept (x : Except CompileError α) : (Act.ofExcept x).Keeps D := by
  cases x <;> trivial

/-- A rule that declares no record. -/
def Rule.declaresNone : {α : Type} → Rule α → Prop
  | _, .record => False
  | _, _ => True

theorem Rule.keeps (r : Rule α) (hr : r.declaresNone) : r.body.Keeps D := by
  cases r with
  | record => exact hr.elim
  | declaration ty line =>
    refine ⟨by simp [Op.update?],
      fun _ _ => ⟨by simp [Op.update?], fun _ => ⟨?_, fun _ => trivial⟩⟩⟩
    rintro _ ⟨rfl⟩ Γ Γ' h hΓ
    exact hΓ.addVariable h
  | primary =>
    refine Act.keeps_op rfl fun t => ?_
    cases t.token with
    | mark m =>
      cases m with
      | openParen => exact Act.keeps_call fun _ => Act.keeps_op rfl fun _ => trivial
      | _ => exact trivial
    | ident name =>
      refine Act.keeps_op rfl fun _ => ?_
      split <;> exact fun _ => trivial
    | _ => exact trivial
  | _ =>
    -- The other rules declare nothing, whatever they find.
    dsimp only [body]
    repeat' first
      | exact trivial
      | exact Act.keeps_ofExcept _
      | refine Act.keeps_op rfl fun _ => ?_
      | refine Act.keeps_call fun _ => ?_
      | split

/-- An error of a rule is an error of the rule that calls it. -/
theorem Act.Makes.eval_error {act : Act α} {c : Activation} {e : CompileError}
    (h : act.Makes (fun _ r => r.outcome) s c) (he : c.rule.outcome c.state = .error e) :
    act.eval (fun _ r => r.outcome) s = .error e := by
  induction act generalizing s with
  | done a => exact h.elim
  | fail e => exact h.elim
  | op o next ih =>
    obtain ⟨b, s', ho, h⟩ := h
    exact (bind_of_ok ho).trans (ih b h)
  | call r next ih =>
    rcases h with rfl | ⟨b, s', hr, h⟩
    · change Except.bind (r.outcome s) _ = _
      rw [he]
      rfl
    · exact (bind_of_ok hr).trans (ih b h)

end Walk

theorem Arrives.error {c : Activation} {e : CompileError} (h : Arrives source slots c)
    (he : c.rule.outcome c.state = .error e) :
    Rule.wholeProgram.outcome { ParseState.start source with scopes := Scopes.push [] slots } =
      .error e := by
  induction h with
  | refl => exact he
  | tail _ hcall ih =>
    refine ih ?_
    rw [Rule.outcome_eq]
    exact Act.Makes.eval_error hcall he

theorem outcome_record (s : ParseState) : Rule.record.outcome s = recordDeclaration s := by
  rw [← Rule.parse_eq]
  rfl

/-- A declaration that is accepted adds the layout of its fields. -/
theorem recordDeclaration_under (harrives : Arrives source slots ⟨.record, s⟩)
    (hΓ : AllTypes (Declared source slots) s.scopes) (h : recordDeclaration s = .ok ((), s')) :
    ∃ name written shape, Accepts source slots s name written ∧
      Under source slots s.scopes written shape ∧
      (shape.layout.map Prod.fst).Nodup ∧
      s'.scopes = s.scopes.extend [] [(name, shape.layout)] := by
  obtain ⟨name, fields, ⟨t, tn, tb, inside, s₁, htokens, ht, htn, htb, hread⟩, hscopes⟩ :=
    recordDeclaration_adds h
  obtain ⟨rest, hfields, rfl⟩ := recordFields_eq_ok (bounded_eq_ok.1 hread)
  obtain ⟨written, shape, hwrites, hunder, rfl, hnodup⟩ := hfields.under hΓ (by simp)
  exact ⟨name, written, shape,
    ⟨harrives, ⟨s', h⟩, t, tn, tb, inside, _, htokens, ht, htn, htb, hwrites⟩, hunder, hnodup,
    hscopes⟩

theorem declaring_holds : (declaring (Declared source slots)).Holds (Arrives source slots) := by
  rintro ⟨r, s⟩ harrives hs
  have hs : AllTypes (Declared source slots) s.scopes := hs
  by_cases hr : r.declaresNone
  · exact (Act.Keeps.ensures (r.keeps hr) hs).imp fun _ _ h _ => h
  · cases r with
    | record =>
      have hpost : ∀ u s', Rule.record.outcome s = .ok (u, s') →
          AllTypes (Declared source slots) s'.scopes := by
        intro u s' h
        rw [outcome_record] at h
        obtain ⟨name, written, shape, haccepts, hunder, -, hscopes⟩ :=
          recordDeclaration_under harrives hs h
        rw [hscopes]
        exact hs.extend ⟨s, written, shape, haccepts, hunder, rfl⟩
      -- Only what it comes to is promised, so nothing has to be known after the fields have been
      -- read.
      refine ⟨fun h₁ =>
        ⟨fun h₂ => ⟨fun h₃ => ⟨?_, fun fields _ _ => ?_⟩, fun _ => trivial⟩, fun _ => trivial⟩,
          fun _ => trivial⟩
      · change AllTypes _ _
        rwa [expect_leaves _ h₃, expectIdent_leaves h₂, expect_leaves _ h₁]
      · dsimp only
        split
        · exact trivial
        · exact ⟨fun _ => ⟨fun _ => hpost _ _, fun _ => trivial⟩, fun _ => trivial⟩
    | _ => exact absurd trivial hr

/-- **Record types in sight were declared**, wherever the parser arrives. -/
theorem arrives_declared {c : Activation} (h : Arrives source slots c) :
    AllTypes (Declared source slots) c.state.scopes := by
  have hkept : ∀ c, Arrives source slots c → (declaring (Declared source slots)).Kept c :=
    declaring_holds.outcome fun c c' hc hcall => .inl (hc.tail hcall)
  induction h with
  | refl => simp [AllTypes, Scopes.push]
  | tail hc hcall ih =>
    exact (declaring_holds _ hc ih).pre_of_makes (fun c' hc' => hkept c' (hc.tail hc')) hcall

theorem Arrives.parseProgram_eq_error {globals : Globals} {e : CompileError}
    (hglobals : globalSlots globals = .ok slots) (harrives : Arrives source slots ⟨.record, s⟩)
    (h : recordDeclaration s = .error e) :
    parseProgram source globals = .error e := by
  have htext : onText Rule.wholeProgram.parse source slots = .error e := by
    rw [Rule.parse_eq]
    change Except.map _ (Rule.wholeProgram.outcome _) = _
    rw [harrives.error ((outcome_record s).trans h)]
    rfl
  change Except.bind (globalSlots globals)
    (fun slots => Except.bind (onText Rule.wholeProgram.parse source slots) _) = _
  rw [hglobals]
  change Except.bind (onText Rule.wholeProgram.parse source slots) _ = _
  rw [htext]
  rfl

/-- The fields of a declaration are read, or two of their leaves have one path. -/
theorem WritesRecord.cases {name : String} (hwrites : WritesRecord s.tokens name written)
    (hunder : Under source slots s.scopes written shape) :
    (shape.layout.map Prod.fst).Nodup ∧ WrittenRecord s name shape.layout ∨
      ∃ path, [path, path].Sublist (shape.layout.map Prod.fst) ∧
        ¬WrittenRecord s name shape.layout ∧
        ∃ w ∈ written, recordDeclaration s = .error ⟨.repeatedField path name, w.1.line⟩ := by
  obtain ⟨t, tn, tb, inside, rest, htokens, ht, htn, htb, hfields⟩ := hwrites
  have hbounded : bounded (fun rounds => recordFields name rounds []) { s with tokens := inside } =
      (Rule.recordFields name []).outcome { s with tokens := inside } := by
    rw [← Rule.parse_eq]
    rfl
  have hcases := outcome_recordFields hfields hunder name [] List.nodup_nil
  rw [List.nil_append, ← hbounded] at hcases
  rcases hcases with ⟨hnodup, hok⟩ | ⟨path, hpath, w, hw, herror⟩
  · exact .inl ⟨hnodup, t, tn, tb, inside, _, htokens, ht, htn, htb, hok⟩
  · refine .inr ⟨path, hpath, ?_, w, hw, ?_⟩
    · rintro ⟨t', tn', tb', inside', s₁, htokens', -, -, -, hok⟩
      obtain ⟨-, -, -, rfl⟩ : t = t' ∧ tn = tn' ∧ tb = tb' ∧ inside = inside' := by
        simpa [htokens] using htokens'
      exact absurd (herror.symm.trans hok) (by simp)
    · obtain ⟨tokens, ending, Γ⟩ := s
      obtain rfl : tokens = t :: tn :: tb :: inside := htokens
      have hrecord : expect (.keyword .record)
          ((⟨tn :: tb :: inside, ending, Γ⟩ : ParseState).before [t]) =
          .ok (t, ⟨tn :: tb :: inside, ending, Γ⟩) := expect_before ht
      have hident : expectIdent ((⟨tb :: inside, ending, Γ⟩ : ParseState).before [tn]) =
          .ok ((name, tn.line), ⟨tb :: inside, ending, Γ⟩) := expectIdent_before htn
      have hbrace : expect (.mark .openBrace) ((⟨inside, ending, Γ⟩ : ParseState).before [tb]) =
          .ok (tb, ⟨inside, ending, Γ⟩) := expect_before htb
      refine (bind_of_ok hrecord).trans ((bind_of_ok hident).trans ((bind_of_ok hbrace).trans ?_))
      change Except.bind (bounded _ _) _ = _
      rw [herror]
      rfl

/-- A statement that begins with the word for records is the declaration of a record. -/
theorem calls_record {s : ParseState}
    (h : (s.tokens.head?.any fun t => decide (t.token = .keyword .record)) = true) :
    Activation.Calls (fun _ r => r.outcome) ⟨.statementsToEnd, s⟩ ⟨.statement, s⟩ ∧
      Activation.Calls (fun _ r => r.outcome) ⟨.statement, s⟩ ⟨.record, s⟩ ∧
      ∀ st s', statement s = .ok (st, s') →
        Activation.Calls (fun _ r => r.outcome) ⟨.statementsToEnd, s⟩ ⟨.statementsToEnd, s'⟩ := by
  obtain ⟨tokens, ending, Γ⟩ := s
  cases tokens with
  | nil => simp at h
  | cons t rest =>
    obtain ⟨token, line⟩ := t
    obtain rfl : token = .keyword .record := by simpa using h
    refine ⟨⟨_, _, rfl, .inl rfl⟩, ⟨_, _, rfl, .inl rfl⟩, fun st s' hst => ?_⟩
    rw [Rule.statement_eq] at hst
    exact ⟨_, _, rfl, .inr ⟨st, s', hst, .inl rfl⟩⟩

end Parse

/-- **Layouts of records.**  Where the parser arrives at the declaration of a record in a text:

* If it accepts the declaration, it adds a record type with one leaf for each path from the fields
  that are written down to a primitive field, in their order; the records on the way are such that
  were accepted before and are in sight.  All leaves are of primitive types that have values, and no
  two have one path; so no two primitive fields have one name.  If the names of the fields are
  distinct, and so are those in the records under them, then no leaf is the beginning of another
  one.
* If it does not, the text is refused with that error.
* A declaration with known types is read if, and only if, no two of its leaves have one path.
  Otherwise it is refused with an error of declarations that names such a path. -/
theorem record_layouts {source : String} {globals : Globals} {slots : List Slot} {s : ParseState}
    (hglobals : globalSlots globals = .ok slots)
    (harrives : Parse.Arrives source slots ⟨.record, s⟩) :
    (∀ s', Parse.recordDeclaration s = .ok ((), s') →
      ∃ name written shape, Parse.Accepts source slots s name written ∧
        Parse.Under source slots s.scopes written shape ∧
        s'.scopes = s.scopes.extend [] [(name, shape.layout)] ∧
        (∀ leaf ∈ shape.layout, leaf.2 = .int ∨ leaf.2 = .float ∨ leaf.2 = .string ∨
          leaf.2 = .bool) ∧
        (shape.layout.map Prod.fst).Nodup ∧ shape.primitives.Nodup ∧
        (shape.Distinct → ∀ p ∈ shape.layout, ∀ q ∈ shape.layout,
          ¬(p.1 ++ ".").toList <+: q.1.toList)) ∧
    (∀ e, Parse.recordDeclaration s = .error e → parseProgram source globals = .error e) ∧
    ∀ name written shape, Parse.WritesRecord s.tokens name written →
      Parse.Under source slots s.scopes written shape →
      (Parse.WrittenRecord s name shape.layout ↔ (shape.layout.map Prod.fst).Nodup) ∧
      (¬(shape.layout.map Prod.fst).Nodup →
        ∃ e path, Parse.recordDeclaration s = .error e ∧ e.cause = .repeatedField path name ∧
          e.cause.kind = .declaration ∧ [path, path].Sublist (shape.layout.map Prod.fst) ∧
          ∃ w ∈ written, e.line = w.1.line) := by
  refine ⟨?_, fun e he => harrives.parseProgram_eq_error hglobals he, ?_⟩
  · intro s' h
    obtain ⟨name, written, shape, haccepts, hunder, hnodup, hscopes⟩ :=
      Parse.recordDeclaration_under harrives (Parse.arrives_declared harrives) h
    refine ⟨name, written, shape, haccepts, hunder, hscopes, ?_, hnodup,
      hnodup.sublist shape.primitives_sublist, ?_⟩
    · intro leaf hleaf
      have := hunder.isLeaf leaf hleaf
      revert this
      cases leaf.2 <;> simp [Ty.isLeaf]
    · intro hdistinct p hp q hq
      obtain ⟨p, hp', rfl⟩ := List.mem_map.1 hp
      obtain ⟨q, hq', rfl⟩ := List.mem_map.1 hq
      exact Shape.not_continues hdistinct (hunder.named haccepts.named) hp' hq'
  · intro name written shape hwrites hunder
    rcases hwrites.cases hunder with ⟨hnodup, hread⟩ | ⟨path, hpath, hnot, w, hw, herror⟩
    · exact ⟨iff_of_true hread hnodup, fun h => absurd hnodup h⟩
    · have hdouble : ¬(shape.layout.map Prod.fst).Nodup :=
        fun h => List.nodup_iff_sublist.1 h path hpath
      exact ⟨iff_of_false hnot hdouble, fun _ => ⟨_, path, herror, rfl, rfl, hpath, w, hw, rfl⟩⟩

/-- A record with a record in it, which was declared before. -/
theorem record_layouts_nested :
    ∃ source s s' name written shape,
      source = "record P \x7b int x; float y; \x7d record R \x7b string a; P b; bool c; \x7d" ∧
      Parse.Arrives source [] ⟨.record, s⟩ ∧ Parse.recordDeclaration s = .ok ((), s') ∧
      Parse.Accepts source [] s name written ∧ Parse.Under source [] s.scopes written shape ∧
      s'.scopes = s.scopes.extend [] [(name, shape.layout)] ∧ (shape.layout.map Prod.fst).Nodup ∧
      (name, shape.layout) =
        ("R", [("a", .string), ("b.x", .int), ("b.y", .float), ("c", .bool)]) := by
  generalize hsource :
    "record P \x7b int x; float y; \x7d record R \x7b string a; P b; bool c; \x7d" = source
  generalize hstart :
    ({ ParseState.start source with scopes := Scopes.push [] [] } : ParseState) = s₀
  -- The first declaration is a statement, and the second one begins after it.
  obtain ⟨⟨st, s⟩, hfirst, hhead₀, hhead, ⟨u, s'⟩, haccepted, htype⟩ :
      ∃ r, Parse.statement s₀ = .ok r ∧
        s₀.tokens.head?.any (fun t => decide (t.token = .keyword .record)) = true ∧
        r.2.tokens.head?.any (fun t => decide (t.token = .keyword .record)) = true ∧
        ∃ r', Parse.recordDeclaration r.2 = .ok r' ∧ r'.2.scopes.top.types.getLast? =
          some ("R", [("a", .string), ("b.x", .int), ("b.y", .float), ("c", .bool)]) := by
    subst hstart hsource
    decide +kernel
  have harrives : Parse.Arrives source [] ⟨.record, s⟩ := by
    rw [Parse.Arrives, hstart]
    refine .head (.inl rfl) (.head ((Parse.calls_record hhead₀).2.2 _ _ hfirst) ?_)
    exact .head (Parse.calls_record hhead).1 (.single (Parse.calls_record hhead).2.1)
  obtain ⟨name, written, shape, haccepts, hunder, hscopes, -, hnodup, -⟩ :=
    (record_layouts (show globalSlots [] = .ok [] from rfl) harrives).1 s' haccepted
  refine ⟨source, s, s', name, written, shape, rfl, harrives, haccepted, haccepts, hunder, hscopes,
    hnodup, ?_⟩
  rw [hscopes] at htype
  cases hΓ : s.scopes with
  | nil => simp [hΓ, Scopes.extend, Scopes.top, Scope.empty] at htype
  | cons scope outer => simpa [hΓ, Scopes.extend, Scopes.top] using htype

/-- A primitive field and a record may have one name. Then one leaf is the beginning of another
one. -/
theorem repeated_field_accepted :
    ∃ root, parseProgram "record P \x7b int x; \x7d record R \x7b int a; P a; \x7d" [] = .ok root ∧
      root.types.lookup "R" = some [("a", .int), ("a.x", .int)] := by
  decide +kernel

end BindScript
