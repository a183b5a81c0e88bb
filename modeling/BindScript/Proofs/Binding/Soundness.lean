/-
**Bindings keep to their types.**

A binding has no variables, and its host knows every name and every function that an accepted
expression can ask for: names resolve to texts, and the functions on snapshots take and give what
the catalog says.  So each expression of compiled bindings comes to a value of its type, whatever
the symbols and the snapshot are, or it fails because a value of the right type is out of range.  A
kind that wants a truth value refuses the others, but only after the expression has been evaluated.

Main results:

* `Session.run_sound` — **type soundness of bindings**.
-/

import BindScript.Proofs.Binding.Session
import BindScript.Proofs.Soundness.Errors

namespace BindScript

/-! ### Errors and values -/

/-- The errors of values that are of the right type, but out of range. -/
def RuntimeError.isOutOfRange : RuntimeError → Bool
  | .divisionByZero | .overflow _ | .invalidArgument _ _ => true
  | _ => false

/-- An error that values cause although they are of the right type. -/
theorem RuntimeError.Expected.isOutOfRange {e : RuntimeError} (h : e.Expected)
    (hvalues : e.OfValues) :
    e.isOutOfRange = true := by
  cases e with
  | divisionByZero => rfl
  | overflow operation => rfl
  | invalidArgument name problem => rfl
  | unsupported name => exact absurd hvalues id
  | _ => exact absurd h id

/-- Only null and the value of calls for their effect have no type of their own. -/
theorem Value.eq_of_ty_void {v : Value} (h : v.ty = .void) : v = .null ∨ v = .void := by
  cases v with
  | null => exact .inl rfl
  | void => exact .inr rfl
  | _ => simp [Value.ty] at h

/-- A result that an expression may come to: a value of its type, or an error of values out of
range. An expression without a type of its own comes to null or to no value. -/
def Expr.Settles (e : Expr) : Except RuntimeError Value → Prop
  | .ok v => v.ty = e.ty ∧ (e.ty = .void → v = .null ∨ v = .void)
  | .error err => err.isOutOfRange = true

/-! ### Operations on a snapshot -/

open Machine in
/-- The result of an operation that keeps to its type, and that fails because of values only. -/
theorem Gives.answers {ty : Ty} {r : Except RuntimeError Value} (h : Gives ty r)
    (hblames : BlamesValues r) :
    Answers (fun v => v.ty = ty) (fun e => e.isOutOfRange = true) r := by
  cases r with
  | ok v => exact h
  | error e => exact RuntimeError.Expected.isOutOfRange h (hblames e rfl)

theorem types_of_forall₂ {tys : List Ty} {values : List Value}
    (h : List.Forall₂ (fun ty v => Value.ty v = ty) tys values) : values.map Value.ty = tys := by
  induction h with
  | nil => rfl
  | cons hv _ ih => rw [List.map_cons, hv, ih]

namespace Snapshot

variable {args : List Value}

theorem textArg_eq (f : Builtin) (index : Nat) (h : (args.map Value.ty)[index]? = some .string) :
    ∃ text, textArg f args index = .ok text := by
  rw [List.getElem?_map, Option.map_eq_some_iff] at h
  obtain ⟨v, hv, hty⟩ := h
  obtain ⟨text, rfl⟩ := Value.eq_string_of_ty hty
  exact ⟨text, by rw [textArg, hv]⟩

theorem placeArg_eq (h : (args.map Value.ty)[(2 : Nat)]? = some .int) :
    ∃ n, placeArg args = .ok n := by
  rw [List.getElem?_map, Option.map_eq_some_iff] at h
  obtain ⟨v, hv, hty⟩ := h
  obtain ⟨n, rfl⟩ := Value.eq_int_of_ty hty
  exact ⟨n, by rw [placeArg, hv]⟩

/-- The functions on snapshots keep to their types, and never fail. -/
theorem call?_gives {f : Builtin} {snapshot : Snapshot} {r : Except RuntimeError Value × Snapshot}
    (htakes : f.Takes (args.map Value.ty)) (hcall : call? f.name args snapshot = some r) :
    ∃ v, r.1 = .ok v ∧ v.ty = f.signature.ret := by
  have htext : f ≠ .concat → ∀ index, (f.signature.params.map (·.ty))[index]? = some .string →
      ∃ text, textArg f args index = .ok text := by
    intro hf index hparam
    refine textArg_eq f index ?_
    rw [htakes.eq_params hf, hparam]
  simp only [call?, f.ofName?_name] at hcall
  split at hcall
  · rename_i hf
    obtain rfl : f = .selectedOptionId := Option.some.inj hf
    obtain ⟨container, hcontainer⟩ := htext (by decide) 0 rfl
    obtain ⟨key, hkey⟩ := htext (by decide) 1 rfl
    rw [← Option.some.inj hcall]
    simp only [selectedId, hcontainer, hkey]
    exact ⟨_, rfl, rfl⟩
  · rename_i hf
    obtain rfl : f = .selectedOptionExtraValue := Option.some.inj hf
    obtain ⟨container, hcontainer⟩ := htext (by decide) 0 rfl
    obtain ⟨key, hkey⟩ := htext (by decide) 1 rfl
    obtain ⟨place, hplace⟩ := placeArg_eq (by rw [htakes.eq_params (by decide)]; rfl)
    rw [← Option.some.inj hcall]
    simp only [selectedExtra, hcontainer, hkey, hplace]
    exact ⟨_, rfl, rfl⟩
  · rename_i hf
    obtain rfl : f = .setValue := Option.some.inj hf
    obtain ⟨container, hcontainer⟩ := htext (by decide) 0 rfl
    obtain ⟨key, hkey⟩ := htext (by decide) 1 rfl
    obtain ⟨text, htext⟩ := htext (by decide) 2 rfl
    have hset : withValue args snapshot = .ok (snapshot.setText container key text) := by
      simp only [withValue, hcontainer, hkey, htext]
      rfl
    rw [hset] at hcall
    rw [← Option.some.inj hcall]
    exact ⟨_, rfl, rfl⟩
  · cases hcall

/-- The host takes the calls of all functions that only a host has. -/
theorem needsHost_of_call?_eq_none {f : Builtin} {snapshot : Snapshot}
    (h : call? f.name args snapshot = none) : f.needsHost = false := by
  simp only [call?, f.ofName?_name] at h
  cases f with
  | selectedOptionId => simp at h
  | selectedOptionExtraValue => simp at h
  | setValue =>
    simp only at h
    split at h <;> simp at h
  | _ => decide

open Machine in
/-- **All operations on a snapshot keep to their types**, with no variable in sight. -/
theorem host_lawful (symbols : Table String) :
    Lawful (Snapshot.host symbols) [Scope.empty] [] (fun ty v => v.ty = ty)
      (fun e => e.isOutOfRange = true) where
  literal _ := rfl
  load h := by
    obtain ⟨-, slot, hslot, -⟩ := h
    simp [Scopes.slot?, Scope.slot?, Scope.empty] at hslot
  resolve _ _ := rfl
  negate hop hv := by
    rw [← hv] at hop ⊢
    have hgives := Value.negate_gives hop
    rw [← Value.negateAny_eq hop] at hgives
    exact hgives.answers (Value.negateAny_blames _)
  binary hne hl hr := by
    rw [← hl, ← hr] at hne ⊢
    exact (Value.binary_gives hne).answers (Value.binary_blames _ _ _)
  call {f args values} m haccepts href hvalues := by
    have htakes : f.Takes (values.map Value.ty) := by
      rw [types_of_forall₂ hvalues]
      exact haccepts.takes
    unfold callWithValues
    split
    · rename_i r s hcall
      obtain ⟨v, rfl, hv⟩ := call?_gives htakes hcall
      exact hv
    · rename_i hcall
      simp only [Builtin.callByName, f.ofName?_name]
      have hhost := needsHost_of_call?_eq_none hcall
      exact (Builtin.call_gives htakes href m.console).answers (Builtin.call_blames hhost href _ _)
  update m _ h := by
    obtain ⟨-, slot, hslot, -⟩ := h
    simp [Scopes.slot?, Scope.slot?, Scope.empty] at hslot

end Snapshot

/-! ### Sessions -/

theorem Bindings.find?_map (trees : Bindings Expr) (kind : Binding.Kind) :
    (trees.map Expr.code).find? kind = (trees.find? kind).map (Binding.Body.map Expr.code) := by
  induction trees with
  | nil => rfl
  | cons b trees ih =>
    obtain ⟨k, body⟩ := b
    simp only [Bindings.find?, Bindings.map, List.map_cons, List.lookup_cons] at ih ⊢
    cases kind == k with
    | true => rfl
    | false => exact ih

variable {s : Session}

namespace Session

/-- A program that is a typed expression settles, without a limit. -/
theorem evaluate_settles {e : Expr} (he : e.Typed [Scope.empty]) {fuel : Nat}
    (hfuel : e.code.length < fuel) :
    Meets (fun s => s.limit = ⟨0⟩) (evaluate fuel e.code) e.Settles := by
  intro s hlimit
  have hnone : s.nextLimit = .none := by
    rw [nextLimit, hlimit]
    rfl
  have hrun := Machine.run_code (Snapshot.host_orderly s.symbols)
    (Snapshot.host_lawful s.symbols) he hfuel s.machine
  rw [← hnone] at hrun
  rcases hrun with ⟨v, m, hrun, hv⟩ | ⟨err, m, hrun, herr, -⟩
  · refine ⟨_, _, evaluate_eq_some hrun, ⟨hv, fun hvoid => ?_⟩, hlimit⟩
    exact Value.eq_of_ty_void (hv.trans hvoid)
  · exact ⟨_, _, evaluate_eq_some hrun, herr, hlimit⟩

/-- The results that entries may come to: a value for each name, or an error of values out of
range. -/
def EntriesSettle (es : Table Expr) : Except RuntimeError (Table Value) → Prop
  | .ok vs => List.Forall₂ (fun e v => v.1 = e.1 ∧ e.2.Settles (.ok v.2)) es vs
  | .error err => err.isOutOfRange = true

theorem EachMeets.entriesSettle {es : Table Expr} {r : Except RuntimeError (Table Value)}
    (h : EachMeets Prod.fst (fun e : String × Expr => e.2.Settles) es r) : EntriesSettle es r := by
  induction h with
  | nil => exact .nil
  | first hi => exact hi
  | later _ _ ih => exact ih
  | cons hi _ ih => exact .cons ⟨rfl, hi⟩ ih

theorem evaluateAll_settles {es : Table Expr} (hes : ∀ e ∈ es, e.2.Typed [Scope.empty]) {fuel : Nat}
    (hfuel : ∀ e ∈ es, e.2.code.length < fuel) :
    Meets (fun s => s.limit = ⟨0⟩) (evaluateAll fuel (es.map fun e => (e.1, e.2.code)))
      (EntriesSettle es) := by
  intro s hs
  obtain ⟨r, t, hall, hr, ht⟩ := each_meets Prod.fst
    (fun e he => evaluate_settles (hes e he) (hfuel e he)) s hs
  refine ⟨r, t, ?_, hr.entriesSettle, ht⟩
  rw [evaluateAll, each_map]
  exact hall

/-- The kinds that want a truth value. -/
def wantsBool (kind : Binding.Kind) : Prop := kind = .visible ∨ kind = .enabled

/-- A kind that wants a truth value takes it and refuses all else. -/
theorem outcome_of_wantsBool {kind : Binding.Kind} (hkind : wantsBool kind) (v : Value) :
    (∃ b, v = .bool b ∧ outcome kind v = .ok (.value v)) ∨
      (v.ty ≠ .bool ∧ outcome kind v = .error (.wrongKind .bool v.kind)) := by
  rcases hkind with rfl | rfl <;> cases v <;>
    first | exact .inl ⟨_, rfl, rfl⟩ | exact .inr ⟨by simp [Value.ty], rfl⟩

/-- What a run gives whose kind wants a truth value and is bound to an expression. -/
structure Decides (fuel : Nat) (s : Session) (kind : Binding.Kind) (e : Expr) : Prop where
  ends : ∃ r t, s.run fuel kind = some (r, t)
  bool : ∀ o t, s.run fuel kind = some (.ok o, t) → ∃ b, o = .value (.bool b)
  refused : (∃ k t, s.run fuel kind = some (.error (.wrongKind .bool k), t)) ↔
    e.ty ≠ .bool ∧ ∃ v t, s.evaluate fuel e.code = some (.ok v, t)
  failed : ∀ err t, s.evaluate fuel e.code = some (.error err, t) →
    s.run fuel kind = some (.error err, t)

theorem decides {fuel : Nat} {kind : Binding.Kind} {e : Expr} (hkind : wantsBool kind)
    (hbody : s.bindings.find? kind = some (.expr e.code))
    {r : Except RuntimeError Value} {t : Session} (hvalue : s.evaluate fuel e.code = some (r, t))
    (he : e.Settles r) : Decides fuel s kind e := by
  have hrun : s.run fuel kind = some (r.bind (outcome kind), t) := by
    rw [run_expr hbody, hvalue]
    rfl
  cases r with
  | error err =>
    have hrun : s.run fuel kind = some (.error err, t) := hrun
    refine ⟨⟨_, t, hrun⟩, by simp [hrun], ?_, ?_⟩
    · constructor
      · rintro ⟨k, t', hk⟩
        -- an expression never fails with a wrong kind itself
        obtain ⟨herr, -⟩ := Prod.mk.inj (Option.some.inj (hrun.symm.trans hk))
        cases herr
        simp [Expr.Settles, RuntimeError.isOutOfRange] at he
      · rintro ⟨-, v, t', hv⟩
        simp [hvalue] at hv
    · intro err' t' herr'
      obtain ⟨hsame, rfl⟩ := Prod.mk.inj (Option.some.inj (hvalue.symm.trans herr'))
      rw [hrun, Except.error.inj hsame]
  | ok v =>
    have hrun : s.run fuel kind = some (outcome kind v, t) := hrun
    have hfailed : ∀ err t', s.evaluate fuel e.code = some (.error err, t') →
        s.run fuel kind = some (.error err, t') := by
      simp [hvalue]
    rcases outcome_of_wantsBool hkind v with ⟨b, rfl, houtcome⟩ | ⟨hne, houtcome⟩
    · rw [houtcome] at hrun
      refine ⟨⟨_, t, hrun⟩, fun o t' ho => ⟨b, ?_⟩, ?_, hfailed⟩
      · obtain ⟨hsame, -⟩ := Prod.mk.inj (Option.some.inj (hrun.symm.trans ho))
        exact (Except.ok.inj hsame).symm
      · constructor
        · rintro ⟨k, t', hk⟩
          simp [hrun] at hk
        · rintro ⟨hne, -⟩
          exact absurd he.1.symm hne
    · rw [houtcome] at hrun
      refine ⟨⟨_, t, hrun⟩, by simp [hrun], ?_, hfailed⟩
      rw [he.1] at hne
      exact ⟨fun _ => ⟨hne, v, t, hvalue⟩, fun _ => ⟨v.kind, t, hrun⟩⟩

/-- **Type soundness of bindings.** Without a limit, every expression of compiled bindings comes to
a value of its type or fails because of a value out of range, whatever the symbols, the snapshot and
the draws are; so do the entries of a kind.  A kind that wants a truth value gives one whenever it
succeeds; it refuses what it was given exactly if the expression has another type and does not fail
itself. -/
theorem run_sound {source : String} {p : Bindings Code}
    (hcompile : compileBindings source = .ok p) :
    ∃ trees, parseBindings source = .ok trees ∧ p = trees.map Expr.code ∧
      ∀ (s : Session) (fuel : Nat), s.limit = ⟨0⟩ → (∀ e ∈ trees.codes, e.code.length < fuel) →
        (∀ e ∈ trees.codes, ∃ r t, s.evaluate fuel e.code = some (r, t) ∧ e.Settles r) ∧
        (s.bindings = p → ∀ kind,
          (trees.find? kind = none → s.run fuel kind = some (.ok .nothing, s)) ∧
          (∀ es, trees.find? kind = some (.entries es) → ∃ r t, EntriesSettle es r ∧
            s.run fuel kind = some (r.map .entries, t)) ∧
          (wantsBool kind → ∀ body, trees.find? kind = some body →
            ∃ e, body = .expr e ∧ e ∈ trees.codes ∧ Decides fuel s kind e)) := by
  obtain ⟨trees, hparse, rfl⟩ := except_map_eq_ok.1 hcompile
  have htyped := parseBindings_typed hparse
  have hshape := (parseBindings_parsed hparse).wellFormed
  refine ⟨trees, hparse, rfl, fun s fuel hlimit hfuel => ⟨?_, ?_⟩⟩
  · intro e he
    obtain ⟨r, t, hvalue, hr, -⟩ := evaluate_settles (htyped e he) (hfuel e he) s hlimit
    exact ⟨r, t, hvalue, hr⟩
  · intro hbindings kind
    have hfind : s.bindings.find? kind = (trees.find? kind).map (Binding.Body.map Expr.code) := by
      rw [hbindings, Bindings.find?_map]
    refine ⟨?_, ?_, ?_⟩
    · intro hnone
      rw [hnone] at hfind
      exact run_none hfind
    · intro es hes
      rw [hes] at hfind
      have hmem : ∀ e ∈ es, e.2 ∈ trees.codes := fun e he =>
        List.mem_flatMap.2 ⟨_, Bindings.mem_of_find? hes, List.mem_map_of_mem he⟩
      obtain ⟨r, t, hall, hr, -⟩ := evaluateAll_settles (fun e he => htyped _ (hmem e he))
        (fun e he => hfuel _ (hmem e he)) s hlimit
      refine ⟨r, t, hr, ?_⟩
      rw [run_entries hfind]
      exact congrArg (Option.map _) hall
    · intro hkind body hbody
      have hsuits := hshape.bodies _ (Bindings.mem_of_find? hbody)
      cases body with
      | entries es =>
        have hentries : kind.hasEntries = true := hsuits.1
        rcases hkind with rfl | rfl <;> exact absurd hentries (by decide)
      | expr e =>
        have he : e ∈ trees.codes :=
          List.mem_flatMap.2 ⟨_, Bindings.mem_of_find? hbody, List.mem_singleton.2 rfl⟩
        rw [hbody] at hfind
        obtain ⟨r, t, hvalue, hr, -⟩ := evaluate_settles (htyped e he) (hfuel e he) s hlimit
        exact ⟨e, rfl, he, decides hkind hfind hvalue hr⟩

/-- Bindings of a truth value and of a number that may be missing. -/
def lengthsSource : String :=
  "visible: \x7b @ui.mode == 'dark' \x7d, enabled: \x7b 7 / Length(@ui.mode) \x7d"

/-- A quotient is refused as a truth value, unless it fails itself because there is nothing to
divide by. -/
theorem run_sound_lengths :
    ∃ (p : Bindings Code) (e : Expr) (b : Bool) (k : Value.Kind) (err : RuntimeError)
      (s t u v : Session),
      compileBindings lengthsSource = .ok p ∧ e.ty = .int ∧
      (plain p darkMode).run 9 .visible = some (.ok (.value (.bool b)), s) ∧
      (plain p darkMode).run 9 .enabled = some (.error (.wrongKind .bool k), t) ∧
      (plain p []).evaluate 9 e.code = some (.error err, u) ∧ err.isOutOfRange = true ∧
      (plain p []).run 9 .enabled = some (.error err, v) := by
  obtain ⟨trees', hparse', hfuel, hshown, hvisible, hgiven⟩ :
      ∃ trees, parseBindings lengthsSource = .ok trees ∧ (∀ e ∈ trees.codes, e.code.length < 9) ∧
        (trees.find? .visible).isSome = true ∧
        (((plain (trees.map Expr.code) darkMode).run 9 .visible).any fun x => x.1.isOk) = true ∧
        ((trees.find? .enabled).any fun body => body.codes.all fun e => e.ty == .int &&
          (((plain (trees.map Expr.code) darkMode).evaluate 9 e.code).any fun x => x.1.isOk) &&
          ((plain (trees.map Expr.code) []).evaluate 9 e.code).any fun x => !x.1.isOk) = true := by
    decide +kernel
  have hcompile : compileBindings lengthsSource = .ok (trees'.map Expr.code) :=
    except_map_eq_ok.2 ⟨trees', hparse', rfl⟩
  obtain ⟨trees, hparse, heq, hsound⟩ := run_sound hcompile
  obtain rfl : trees = trees' := Except.ok.inj (hparse.symm.trans hparse')
  obtain ⟨body, hbody⟩ := Option.isSome_iff_exists.1 hshown
  obtain ⟨body', hbody', hall⟩ := (Option.any_eq_true _ _).1 hgiven
  have hdark := (hsound (plain (trees.map Expr.code) darkMode) 9 rfl hfuel).2 rfl
  have hempty := hsound (plain (trees.map Expr.code) []) 9 rfl hfuel
  -- the truth value
  obtain ⟨⟨_ | o, s⟩, ho, hok⟩ := (Option.any_eq_true _ _).1 hvisible
  · simp [Except.isOk, Except.toBool] at hok
  obtain ⟨_, -, -, hshows⟩ := (hdark .visible).2.2 (.inl rfl) body hbody
  obtain ⟨b, rfl⟩ := hshows.bool o s ho
  -- the quotient, with a text of four letters and with none
  obtain ⟨e, rfl, he, henabled⟩ := (hdark .enabled).2.2 (.inr rfl) body' hbody'
  obtain ⟨e', heq, -, hmissing⟩ := ((hempty.2 rfl) .enabled).2.2 (.inr rfl) _ hbody'
  obtain rfl : e = e' := Binding.Body.expr.inj heq
  have htests := List.all_eq_true.1 hall e (List.mem_singleton.2 rfl)
  simp only [Bool.and_eq_true, beq_iff_eq] at htests
  obtain ⟨⟨hty, hgives⟩, hfails⟩ := htests
  obtain ⟨⟨_ | v, t₀⟩, hv, hok⟩ := (Option.any_eq_true _ _).1 hgives
  · simp [Except.isOk, Except.toBool] at hok
  obtain ⟨k, t, hk⟩ := henabled.refused.2 ⟨by rw [hty]; decide, v, t₀, hv⟩
  obtain ⟨r, u, hr, hsettles⟩ := hempty.1 e he
  obtain ⟨x, hx, hxfails⟩ := (Option.any_eq_true _ _).1 hfails
  obtain rfl := Option.some.inj (hr.symm.trans hx)
  cases r with
  | ok v => simp [Except.isOk, Except.toBool] at hxfails
  | error err =>
    exact ⟨_, e, b, k, err, s, t, u, u, hcompile, hty, ho, hk, hr, hsettles,
      hmissing.failed err u hr⟩

end Session

end BindScript
