/-
**Arguments that are left out.**

The defaults of a function are filled in at two places.  Elaboration writes them into the tree,
except that it leaves out the empty strings at the end of a `Concat`, even those that were given.
The machine adds them to the values that it finds, except to those of a `Concat`, which joins what
is there.  A default is a literal, and an empty string adds nothing to what is joined, so all of
this comes to the same: a call means what it means with all defaults written out.

This needs a host that leaves `Concat` to the catalog.  Hosts that take over only the functions that
need a host do.

Main results:

* `defaults_supplied` — **what is left out means the same in the tree and on the machine**.
-/

import BindScript.Binding.Environment
import BindScript.Proofs.Machine.Placement
import BindScript.Proofs.Machine.Termination
import BindScript.Proofs.Rebuilding

namespace BindScript

variable {σ : Type} {host : Host σ}

/-! ### Hosts -/

/-- The host leaves to the catalog all functions that need no host. -/
def Host.Sparing (host : Host σ) : Prop :=
  ∀ b : Builtin, b.needsHost = false → ∀ args s, host.call b.name args s = none

theorem Snapshot.host_sparing (symbols : Table String) : (Snapshot.host symbols).Sparing := by
  intro b hb args s
  change Snapshot.call? b.name args s = none
  unfold Snapshot.call?
  rw [b.ofName?_name]
  cases b with
  | selectedOptionId => cases hb
  | selectedOptionExtraValue => cases hb
  | setValue => cases hb
  | _ => rfl

/-! ### The catalog -/

variable {n : Nat} {vs : List Value}

namespace Builtin

/-- The numbers of arguments that a function takes: no more than it has parameters, and one for each
parameter without a default. -/
def InRange (b : Builtin) (n : Nat) : Prop :=
  b.signature.required ≤ n ∧ n ≤ b.signature.params.length

instance (b : Builtin) (n : Nat) : Decidable (b.InRange n) := inferInstanceAs (Decidable (_ ∧ _))

/-- The arguments with the defaults of those that are missing. -/
def withDefaults (b : Builtin) (args : List Value) : List Value :=
  args ++ b.signature.defaultsAfter args.length

theorem isSome_default (b : Builtin) :
    ∀ p ∈ b.signature.params.drop b.signature.required, p.default.isSome = true := by
  refine List.all_eq_true.1 ?_
  cases b <;> rfl

theorem length_defaultsAfter {b : Builtin} (h : b.signature.required ≤ n) :
    (b.signature.defaultsAfter n).length = b.signature.params.length - n := by
  have hsome : ∀ p ∈ b.signature.params.drop n, p.default.isSome = true := by
    intro p hp
    refine b.isSome_default p ?_
    rw [← Nat.add_sub_cancel' h, ← List.drop_drop] at hp
    exact List.mem_of_mem_drop hp
  rw [Signature.defaultsAfter, List.length_filterMap_eq_countP, List.countP_eq_length.2 hsome,
    List.length_drop]

variable {b : Builtin} {args : List Value}

theorem InRange.length_withDefaults (h : b.InRange args.length) :
    (b.withDefaults args).length = b.signature.params.length := by
  have hle := h.2
  rw [withDefaults, List.length_append, length_defaultsAfter h.1]
  omega

theorem InRange.withDefaults (h : b.InRange args.length) :
    b.InRange (b.withDefaults args).length := by
  rw [h.length_withDefaults]
  exact ⟨Nat.le_trans h.1 h.2, Nat.le_refl _⟩

theorem InRange.withDefaults_withDefaults (h : b.InRange args.length) :
    b.withDefaults (b.withDefaults args) = b.withDefaults args := by
  rw [Builtin.withDefaults, h.length_withDefaults]
  simp [Signature.defaultsAfter]

theorem defaultsAfter_concat (n : Nat) :
    ∀ v ∈ concat.signature.defaultsAfter n, v = .string "" := by
  intro v hv
  obtain ⟨p, hp, hdefault⟩ := List.mem_filterMap.1 hv
  have hall : ∀ p ∈ concat.signature.params, ∀ v, p.default = some v → v = .string "" := by
    simp [Builtin.signature]
  exact hall p (List.mem_of_mem_drop hp) v hdefault

/-- Empty strings add nothing to what is joined, and no error. -/
theorem joinStrings_append (hvs : ∀ v ∈ vs, v = .string "") (args : List Value) :
    joinStrings (args ++ vs) = joinStrings args := by
  have hempty : joinStrings vs = .ok "" := by
    induction vs with
    | nil => rfl
    | cons v vs ih =>
      obtain ⟨rfl, hrest⟩ := List.forall_mem_cons.1 hvs
      rw [joinStrings, ih hrest]
      rfl
  induction args with
  | nil => exact hempty
  | cons v args ih =>
    cases v with
    | string s => rw [List.cons_append, joinStrings, joinStrings, ih]
    | _ => rfl

end Builtin

/-! ### Values -/

namespace Machine

variable {b : Builtin} {args : List Value}

theorem completeArgs_of_inRange (h : b.InRange args.length) :
    completeArgs b args = .ok (if b = .concat then args else b.withDefaults args) := by
  have hrange : ¬(args.length < b.signature.required ∨
    b.signature.params.length < args.length) := by
    obtain ⟨hlow, hhigh⟩ := h
    omega
  unfold completeArgs
  simp only [if_neg hrange]
  split <;> rfl

theorem completeArgs_of_not_inRange (h : ¬b.InRange args.length) :
    completeArgs b args = .error (.arity b.name b.signature.params.length args.length) := by
  have hrange : args.length < b.signature.required ∨ b.signature.params.length < args.length := by
    unfold Builtin.InRange at h
    omega
  unfold completeArgs
  simp only [if_pos hrange]

theorem callWithValues_concat (hhost : host.Sparing) (hvs : ∀ v ∈ vs, v = .string "")
    (args : List Value) (m : Machine σ) :
    callWithValues host Builtin.concat.name (args ++ vs) m =
      callWithValues host Builtin.concat.name args m := by
  have hcatalog : ∀ values, callWithValues host Builtin.concat.name values m =
      ((Builtin.joinStrings values).map .string, m) := by
    intro values
    rw [callWithValues, hhost .concat rfl, Builtin.callByName, Builtin.concat.ofName?_name]
    rfl
  rw [hcatalog, hcatalog, Builtin.joinStrings_append hvs]

/-- **A call comes to what it comes to with all defaults written out.** -/
theorem applyValues_eq (hhost : host.Sparing) (h : b.InRange args.length) (m : Machine σ) :
    applyValues host b args m = callWithValues host b.name (b.withDefaults args) m := by
  rw [applyValues_of_ok (completeArgs_of_inRange h)]
  by_cases hb : b = .concat
  · subst hb
    rw [if_pos rfl, Builtin.withDefaults,
      callWithValues_concat hhost (Builtin.defaultsAfter_concat _)]
  · rw [if_neg hb]

theorem applyValues_withDefaults (hhost : host.Sparing) (h : b.InRange args.length)
    (m : Machine σ) :
    applyValues host b (b.withDefaults args) m = applyValues host b args m := by
  rw [applyValues_eq hhost h, applyValues_eq hhost h.withDefaults, h.withDefaults_withDefaults]

theorem applyValues_concat (hhost : host.Sparing) (hvs : ∀ v ∈ vs, v = .string "")
    (h : Builtin.concat.InRange args.length) (h' : Builtin.concat.InRange (args ++ vs).length)
    (m : Machine σ) :
    applyValues host .concat (args ++ vs) m = applyValues host .concat args m := by
  rw [applyValues_of_ok (completeArgs_of_inRange h), applyValues_of_ok (completeArgs_of_inRange h'),
    if_pos rfl, if_pos rfl, callWithValues_concat hhost hvs]

/-- Wherever the function is called, if its arguments come to these values and leave the machine as
given, then the call comes to the result. -/
def CallGives (host : Host σ) (b : Builtin) (args : List Value) (m : Machine σ)
    (r : Result σ Value) : Prop :=
  ∀ (code : Array Instruction) (ev : Machine σ → Option (Result σ Value)) (before : Machine σ),
    collectArgs ev args.length before = some (.ok args, m) →
      evalFetched host code ev (.call b.name args.length) before = some r

theorem gives_applyValues (host : Host σ) (hvalues : b.takesReference = false) (args : List Value)
    (m : Machine σ) :
    CallGives host b args m (applyValues host b args m) := by
  intro code ev before hargs
  rw [evalFetched_applyValues hvalues, hargs, andThen_ok]

/-! ### Expressions -/

/-- A literal that stands in a source, with its line. -/
structure Constant where
  line : Nat
  value : Value
  isLiteral : value.isLiteral = true

def Constant.expr (c : Constant) : Expr := .literal c.line c.value

/-- Two results that differ at most in the position of the machine. -/
def Alike {α : Type} (x y : Option (Result σ α)) : Prop :=
  ∃ p, y = x.map fun r => (r.1, r.2.moved p)

theorem Agrees.alike {α : Type} {stop stop' : Nat} {x y : Option (Result σ α)}
    (h : Agrees stop stop' x y) :
    Alike x y := by
  cases h with
  | none => exact ⟨0, rfl⟩
  | ok a hlimit => exact ⟨stop', rfl⟩
  | error e m p p' => exact ⟨p', rfl⟩

end Machine

namespace Expr

open Machine

theorem length_actOnAll {args : List Expr} {m m' : Machine σ} {values : List Value}
    (h : actOnAll host args m = some (.ok values, m')) : values.length = args.length := by
  induction args generalizing m m' values with
  | nil =>
    obtain ⟨rfl, -⟩ : [] = values ∧ m = m' := by simpa [actOnAll] using h
    rfl
  | cons arg args ih =>
    rw [actOnAll] at h
    rcases andThen_eq_some.1 h with ⟨e, m₁, -, herror⟩ | ⟨v, m₁, -, h⟩
    · exact absurd (congrArg Prod.fst herror) (by simp)
    · rcases andThen_eq_some.1 h with ⟨e, m₂, -, herror⟩ | ⟨vs, m₂, hvs, h⟩
      · exact absurd (congrArg Prod.fst herror) (by simp)
      · obtain ⟨rfl, -⟩ : v :: vs = values ∧ m₂ = m' := by simpa using h
        rw [List.length_cons, List.length_cons, ih hvs]

theorem actOnAll_constants (cs : List Constant) (m : Machine σ) :
    actOnAll host (cs.map Constant.expr) m = some (.ok (cs.map Constant.value), m) := by
  induction cs with
  | nil => rfl
  | cons c cs ih =>
    have hfirst : c.expr.actOn host m = some (.ok c.value, m) := by
      obtain ⟨line, v, hliteral⟩ := c
      cases v with
      | void => simp [Value.isLiteral] at hliteral
      | record leaves => simp [Value.isLiteral] at hliteral
      | _ => rfl
    rw [List.map_cons, actOnAll, hfirst, andThen_ok, ih, andThen_ok, List.map_cons]

theorem actOnAll_append_constants (args : List Expr) (cs : List Constant) (m : Machine σ) :
    actOnAll host (args ++ cs.map Constant.expr) m =
      andThen (actOnAll host args m) fun values m =>
        some (.ok (values ++ cs.map Constant.value), m) := by
  induction args generalizing m with
  | nil => exact actOnAll_constants cs m
  | cons arg args ih =>
    rw [List.cons_append, actOnAll, actOnAll]
    rcases arg.actOn host m with _ | ⟨_ | v, m₁⟩
    · rfl
    · rfl
    · rw [andThen_ok, andThen_ok, ih]
      rcases actOnAll host args m₁ with _ | ⟨_ | _, _⟩ <;> rfl

/-- Expressions that evaluate alike, wherever the code of each of them stands. -/
def Equivalent (host : Host σ) (e e' : Expr) : Prop :=
  ∀ (program program' : Array Instruction) (p p' fuel fuel' : Nat) (m : Machine σ),
    m.limit = .none →
    Code.At program p (e.codeAt p) → Code.At program' p' (e'.codeAt p') →
    (e.codeAt p).length ≤ fuel → (e'.codeAt p').length ≤ fuel' →
    Agrees (p + (e.codeAt p).length) (p' + (e'.codeAt p').length)
      (Machine.eval host program fuel (m.moved p)) (Machine.eval host program' fuel' (m.moved p'))

theorem equivalent_of_actOn {e e' : Expr} (h : ∀ m, e'.actOn host m = e.actOn host m) :
    e.Equivalent host e' := by
  intro program program' p p' fuel fuel' m hlimit hcode hcode' hfuel hfuel'
  have hends : EndsAt _ (e'.actOn host m) _ := eval_endsAt e' hlimit hcode' hfuel'
  rw [h] at hends
  exact (eval_endsAt e hlimit hcode hfuel).agrees hends

theorem Equivalent.symm {e e' : Expr} (h : e.Equivalent host e') : e'.Equivalent host e := by
  intro program program' p p' fuel fuel' m hlimit hcode hcode' hfuel hfuel'
  exact (h program' program p' p fuel' fuel m hlimit hcode' hcode hfuel' hfuel).symm

theorem Equivalent.evaluate {e e' : Expr} (h : e.Equivalent host e') (m : Machine σ)
    {fuel fuel' : Nat} (hfuel : e.code.length ≤ fuel) (hfuel' : e'.code.length ≤ fuel') :
    Alike (evaluateFuel host e.code.toArray fuel m) (evaluateFuel host e'.code.toArray fuel' m) :=
  (h e.code.toArray e'.code.toArray 0 0 fuel fuel' m.reset rfl
    (Code.at_self e.code) (Code.at_self e'.code) hfuel hfuel').alike

/-- An expression comes to a result if there is room for the arguments of its calls. -/
theorem isSome_evaluateFuel (host : Host σ) (e : Expr) (hroom : ∀ i ∈ e.code, HasRoom i)
    (m : Machine σ) {fuel : Nat} (hfuel : e.code.length < fuel) :
    (evaluateFuel host e.code.toArray fuel m).isSome = true := by
  obtain ⟨x, m', heval, -⟩ := exists_eval_eq (Code.valid_of_validate e.validate_code)
    (by simpa using hroom) host m.reset
  rw [evaluateFuel, heval fuel (Nat.lt_of_le_of_lt (Nat.sub_le _ _) (by simpa using hfuel))]
  rfl

/-- Literals may stand at the end of a call if they change nothing for any values before them. -/
theorem call_append_equivalent {b : Builtin} (hvalues : b.takesReference = false) {args : List Expr}
    {cs : List Constant} (hmany : args.length + cs.length ≤ b.signature.params.length)
    (hsame : ∀ values : List Value, values.length = args.length → ∀ m : Machine σ,
      applyValues host b (values ++ cs.map Constant.value) m = applyValues host b values m)
    (line : Nat) (ty : Ty) :
    (Expr.call line b ty (args ++ cs.map Constant.expr)).Equivalent host
      (.call line b ty args) := by
  refine equivalent_of_actOn fun m => ?_
  have hroom : (args ++ cs.map Constant.expr).length ≤ maxArguments :=
    room_of_params (by rw [List.length_append, List.length_map]; exact hmany)
  have hroom' : args.length ≤ maxArguments := room_of_params (Nat.le_of_add_right_le hmany)
  rw [actOn, actOn, actOnAll_append_constants]
  simp only [hvalues, Bool.false_eq_true, if_false, if_pos hroom, if_pos hroom']
  rcases hargs : actOnAll host args m with _ | ⟨_ | values, m₁⟩
  · rfl
  · rfl
  · rw [andThen_ok, andThen_ok, andThen_ok, hsame values (length_actOnAll hargs)]

theorem required_of_takesReference {f : Builtin} (h : f.takesReference = true) :
    f.signature.required = 1 := by
  cases f with
  | inc => rfl
  | dec => rfl
  | _ => cases h

theorem exists_append_dropEmptyStrings (keep : Nat) (args : List Expr) :
    ∃ cs : List Constant, args = dropEmptyStrings keep args ++ cs.map Constant.expr ∧
      ∀ v ∈ cs.map Constant.value, v = .string "" := by
  have hempty : ∀ e ∈ ((args.drop keep).reverse.takeWhile isEmptyString).reverse,
      e.isEmptyString = true := by
    intro e he
    exact List.all_eq_true.1 List.all_takeWhile e (List.mem_reverse.1 he)
  have hconstants : ∀ es : List Expr, (∀ e ∈ es, e.isEmptyString = true) →
      ∃ cs : List Constant, es = cs.map Constant.expr ∧
        ∀ v ∈ cs.map Constant.value, v = .string "" := by
    intro es hes
    induction es with
    | nil => exact ⟨[], rfl, by simp⟩
    | cons e es ih =>
      obtain ⟨he, hrest⟩ := List.forall_mem_cons.1 hes
      obtain ⟨cs, rfl, hcs⟩ := ih hrest
      cases e with
      | literal line v =>
        cases v with
        | string s =>
          obtain rfl : s = "" := by simpa [isEmptyString] using he
          exact ⟨⟨line, .string "", rfl⟩ :: cs, rfl, by simpa using hcs⟩
        | _ => simp [isEmptyString] at he
      | _ => simp [isEmptyString] at he
  obtain ⟨cs, hcs, hvalues⟩ := hconstants _ hempty
  refine ⟨cs, ?_, hvalues⟩
  rw [← hcs, dropEmptyStrings, List.append_assoc, ← List.reverse_append,
    List.takeWhile_append_dropWhile, List.reverse_reverse, List.take_append_drop]

/-- The defaults of the catalog, as they are written into a call. -/
theorem exists_constants_defaults {b : Builtin}
    (h : (b.signature.params.drop n).map Param.default = vs.map some) (line : Nat) :
    b.signature.defaultsAfter n = vs ∧
      ∃ cs : List Constant, vs.map (literal line) = cs.map Constant.expr ∧
        vs = cs.map Constant.value := by
  have hliteral : ∀ v ∈ vs, v.isLiteral = true := by
    intro v hv
    obtain ⟨p, hp, hdefault⟩ := exists_default h hv
    exact isLiteral_default b p hp v hdefault
  refine ⟨?_, vs.attach.map fun v => ⟨line, v.1, hliteral v.1 v.2⟩, ?_, ?_⟩
  · have hfilter : b.signature.defaultsAfter n =
        ((b.signature.params.drop n).map Param.default).filterMap id := by
      rw [List.filterMap_map]
      rfl
    rw [hfilter, h, List.filterMap_map]
    exact List.filterMap_some
  · rw [List.map_map]
    exact (List.attach_map_val (l := vs) (f := literal line)).symm
  · rw [List.map_map]
    exact (List.attach_map_subtype_val vs).symm

/-- **An elaborated call means what was written.** -/
theorem mkCall_equivalent (hhost : host.Sparing) {line : Nat} {name : String} {args : List Expr}
    {node : Expr} (h : mkCall line name args = .ok node) :
    ∃ f, Builtin.ofName? name = some f ∧
      node.Equivalent host (.call line f f.signature.ret args) := by
  obtain ⟨f, vs, hname, hmany, hrequired, hvs, rfl⟩ := mkCall_eq h
  refine ⟨f, hname, ?_⟩
  by_cases hf : f = .concat
  · -- what was dropped from the arguments may be put back
    subst hf
    obtain ⟨n, hkeep, -, hdrop⟩ := dropEmptyStrings_eq_take hrequired
    obtain ⟨cs, hargs, hempty⟩ :=
      exists_append_dropEmptyStrings Builtin.concat.signature.required args
    rw [if_pos rfl]
    generalize dropEmptyStrings Builtin.concat.signature.required args = kept at hdrop hargs ⊢
    subst hargs
    have hkept : Builtin.concat.signature.required ≤ kept.length := by
      rw [hdrop, List.length_take]
      omega
    rw [List.length_append, List.length_map] at hmany
    refine (call_append_equivalent rfl hmany ?_ line _).symm
    intro values hlength m
    rw [← hlength] at hmany
    rw [← hlength] at hkept
    refine applyValues_concat hhost hempty ⟨hkept, by omega⟩ ?_ m
    rw [List.length_append, List.length_map]
    exact ⟨by omega, hmany⟩
  · rw [if_neg hf]
    obtain ⟨hdefaults, cs, hexprs, hvalues⟩ := exists_constants_defaults hvs line
    rw [hexprs]
    cases href : f.takesReference with
    | true =>
      -- nothing can be left out of a call by reference
      have hone := params_length_of_takesReference href
      have hnone : cs = [] := by
        have hlength := Builtin.length_defaultsAfter hrequired
        rw [hdefaults, hvalues, List.length_map] at hlength
        refine List.length_eq_zero_iff.1 ?_
        have := required_of_takesReference href
        omega
      rw [hnone, List.map_nil, List.append_nil]
      exact equivalent_of_actOn fun _ => rfl
    | false =>
      have hlength := Builtin.length_defaultsAfter hrequired
      rw [hdefaults, hvalues, List.length_map] at hlength
      refine call_append_equivalent href (by omega) ?_ line _
      intro values hlength m
      have hrange : f.InRange values.length := by
        rw [hlength]
        exact ⟨hrequired, hmany⟩
      have hall : values ++ cs.map Constant.value = f.withDefaults values := by
        rw [← hvalues, ← hdefaults, Builtin.withDefaults, hlength]
      rw [hall, applyValues_withDefaults hhost hrange]

end Expr

/-! ### All together -/

open Machine in
/-- **What is left out of a call means the same in the tree and on the machine.** A function that
takes values and gets a number of arguments in its range comes to what it comes to with all defaults
written out; any other number is an error. And a call that is elaborated evaluates to what it would
without that, with just the arguments that were given; it comes to a result if there is room for the
arguments of the calls in it. -/
theorem defaults_supplied (hhost : host.Sparing) :
    (∀ (b : Builtin) (args : List Value) (m : Machine σ) (p : Nat), b.takesReference = false →
      b.InRange args.length →
      let r := callWithValues host b.name (b.withDefaults args) m
      CallGives host b args m r ∧
      CallGives host b (b.withDefaults args) (m.moved p) (r.1, r.2.moved p)) ∧
    (∀ (b : Builtin) (args : List Value) (m : Machine σ), b.takesReference = false →
      ¬b.InRange args.length →
      CallGives host b args m (.error (.arity b.name b.signature.params.length args.length), m)) ∧
    (∀ (b : Builtin) (argc : Nat) (code : Array Instruction)
      (ev : Machine σ → Option (Result σ Value)) (m : Machine σ), b.takesReference = true →
      ¬b.InRange argc →
      evalFetched host code ev (.call b.name argc) m =
        some (.error (.arity b.name b.signature.params.length argc), m)) ∧
    ∀ (line : Nat) (name : String) (args : List Expr) (node : Expr),
      Expr.mkCall line name args = .ok node →
      ∃ f, Builtin.ofName? name = some f ∧
        node.Equivalent host (.call line f f.signature.ret args) ∧
        ∀ m fuel fuel', node.code.length < fuel →
          (Expr.call line f f.signature.ret args).code.length < fuel' →
          Alike (evaluateFuel host node.code.toArray fuel m)
            (evaluateFuel host (Expr.call line f f.signature.ret args).code.toArray fuel' m) ∧
          ((∀ i ∈ node.code, HasRoom i) →
            (evaluateFuel host node.code.toArray fuel m).isSome = true) := by
  refine ⟨?_, ?_, ?_, ?_⟩
  · intro b args m p hvalues hrange
    refine ⟨?_, ?_⟩
    · have hgives := gives_applyValues host hvalues args m
      rwa [applyValues_eq hhost hrange] at hgives
    · have hgives := gives_applyValues host hvalues (b.withDefaults args) (m.moved p)
      rwa [applyValues_eq hhost hrange.withDefaults, hrange.withDefaults_withDefaults,
        callWithValues_moved]
        at hgives
  · intro b args m hvalues hrange
    have hgives := gives_applyValues host hvalues args m
    rwa [applyValues_of_error (completeArgs_of_not_inRange hrange)] at hgives
  · intro b argc code ev m href hrange
    have hparams := Expr.params_length_of_takesReference href
    have hrequired := Expr.required_of_takesReference href
    have hne : argc ≠ 1 := by
      rintro rfl
      exact hrange ⟨Nat.le_of_eq hrequired, Nat.le_of_eq hparams.symm⟩
    rw [evalFetched_call_reference b.ofName?_name href, callByReference_eq, if_pos hne, hparams]
  · intro line name args node hcall
    obtain ⟨f, hname, hsame⟩ := Expr.mkCall_equivalent hhost hcall
    exact ⟨f, hname, hsame, fun m fuel fuel' hfuel hfuel' =>
      ⟨hsame.evaluate m (Nat.le_of_lt hfuel) (Nat.le_of_lt hfuel'),
        fun hroom => node.isSome_evaluateFuel host hroom m hfuel⟩⟩

open Machine in
/-- `WriteLn` without an argument ends a line; one string is not enough for `Concat`; and the empty
string at the end of a `Concat` is left out of the tree, which changes nothing. -/
theorem defaults_supplied_lines :
    let host := Snapshot.host []
    let m : Machine Snapshot := Machine.start [] Console.empty
    let greeting : List Expr :=
      [.literal 1 (.string "a"), .host 1 "ui.mode", .literal 2 (.string "")]
    CallGives host .writeLn [] m
      (.ok .void, { m with console := { m.console with output := "\n" } }) ∧
    CallGives host .concat [.string "a"] m (.error (.arity "Concat" 10 1), m) ∧
    Expr.mkCall 1 "Concat" greeting = .ok (.call 1 .concat .string (greeting.take 2)) ∧
    Alike (evaluateFuel host (Expr.call 1 .concat .string (greeting.take 2)).code.toArray 4 m)
      (evaluateFuel host (Expr.call 1 .concat .string greeting).code.toArray 5 m) := by
  intro host m greeting
  obtain ⟨hvalues, hcount, -, htree⟩ := defaults_supplied (Snapshot.host_sparing [])
  refine ⟨(hvalues .writeLn [] m 0 rfl (by decide)).1,
    hcount .concat [.string "a"] m rfl (by decide), rfl, ?_⟩
  obtain ⟨f, hname, -, halike⟩ := htree 1 "Concat" greeting _ rfl
  obtain rfl : Builtin.concat = f := Option.some.inj hname
  exact (halike m 4 5 (by decide) (by decide)).1

end BindScript
