/-
**Runs keep variables to their types.**

The frames of a machine that runs an accepted program fit the open blocks: they have the layouts of
the variables that are in sight.  Where record names are fresh, evaluation then comes to values of
the types that the type rules promise, or fails with an expected error; and a simple statement,
which stores such values, leaves frames that fit again.

Main results:

* `Machine.typing_kept` — **runs keep variables to their types**.
-/

import BindScript.Proofs.Effects.Rest

namespace BindScript

variable {root : Block} {fresh : Prop} {ctx : Context} {Γ : Scopes} {frames frames' : Frames}
    {b : Block}
  {before rest : List Stmt} {s : Stmt}

/-- Scopes in which the next statement of a block is well typed, after the record types that are
declared before it, and those after the statement. -/
theorem Stack.statement {split : b.statements = before ++ s :: rest}
    (h : Stack fresh (⟨b, before, s :: rest, split⟩ :: ctx) Γ) :
    ∃ scope scope' outer, Stack fresh (⟨b, before, s :: rest, split⟩ :: ctx) (scope :: outer) ∧
      Stmt.Typed fresh (scope :: outer) s (scope' :: outer) ∧
      ∀ split', Stack fresh (⟨b, before ++ [s], rest, split'⟩ :: ctx) (scope' :: outer) := by
  cases h with
  | @cons _ _ _ outer hstack hopens hbefore hafter =>
    obtain ⟨Δ, Δ', hrecords, hs, hrest⟩ := hafter.head
    have hbefore := hbefore.append hrecords
    rw [List.append_nil] at hbefore
    obtain ⟨scope, rfl⟩ := hbefore.exists_scope
    obtain ⟨scope', rfl⟩ := (TypedAll.cons hs .nil).exists_scope
    exact ⟨scope, scope', outer, .cons hstack hopens hbefore (.cons hs hrest), hs,
      fun _ => .cons hstack hopens (hbefore.append (.cons hs .nil)) hrest⟩

namespace Machine

/-! ### Evaluation -/

theorem answers_of_gives {ty : Ty} (hty : ∀ record, ty ≠ .record record)
    {r : Except RuntimeError Value} (h : Gives ty r) :
    Answers (fun v => v.HasType Γ.type? ty) RuntimeError.Expected r := by
  cases r with
  | ok v => exact (Value.hasType_iff_ty hty).2 h
  | error e => exact h

/-- **Evaluation keeps to the types**, if the frames fit. -/
theorem lawful_typed (hΓ : Γ.Settled) (h : Frames.Fits ctx Γ frames) :
    Lawful .plain Γ frames (fun ty v => v.HasType Γ.type? ty) RuntimeError.Expected where
  literal {v} hv := by
    cases v with
    | record leaves => simp [Value.isLiteral] at hv
    | _ => rfl
  load hp := by
    obtain ⟨v, hread, hv⟩ := h.read hΓ hp
    rw [hread]
    exact hv
  resolve name _ := .inl ⟨name, rfl⟩
  negate {ty v logical} hop hv := by
    have hprimitive := Ty.ne_record_of_negate hop
    obtain rfl := (Value.hasType_iff_ty hprimitive).1 hv
    have hgives := Value.negate_gives hop
    rw [← Value.negateAny_eq hop] at hgives
    exact answers_of_gives hprimitive hgives
  binary {op a b l r} hne hl hr := by
    obtain ⟨hleft, hright, hresult⟩ := Operator.operands_ne_record hne
    obtain rfl := (Value.hasType_iff_ty hleft).1 hl
    obtain rfl := (Value.hasType_iff_ty hright).1 hr
    exact answers_of_gives hresult (Value.binary_gives hne)
  call {f args values} m haccepts href hvalues := by
    have htakes := haccepts.takes
    rw [← types_of_hasType (fun arg harg => haccepts.arg_leaf harg) hvalues] at htakes
    simp only [callWithValues, Host.plain, Builtin.callByName, f.ofName?_name]
    exact answers_of_gives f.ret_ne_record (Builtin.call_gives htakes href m.console)
  update {f p} m href hp hty hframes := by
    obtain ⟨v, hread, hv⟩ := h.read hΓ hp
    rw [hty] at hv
    obtain ⟨n, rfl⟩ := Value.eq_int_of_ty hv
    rw [← hframes] at hread h
    simp only [updateTarget, hread]
    have hgives := Value.checkedInt_gives f.name (n.toInt + referenceStep f)
    cases hc : Value.checkedInt f.name (n.toInt + referenceStep f) with
    | error e =>
      rw [hc] at hgives
      exact hgives
    | ok w =>
      rw [hc] at hgives
      obtain ⟨frames', hwrite, -⟩ := h.write hΓ hp (v := w) (by rw [hty]; exact hgives)
      simp only [assign, hwrite]
      rfl

theorem stores_typed (hΓ : Γ.Settled) (h : Frames.Fits ctx Γ frames) (hframes : frames ≠ []) :
    Stores Γ frames (fun ty v => v.HasType Γ.type? ty) RuntimeError.Expected where
  write htarget hv hwrite := by
    obtain ⟨frames', hok, -⟩ := h.write hΓ htarget hv
    rw [hok] at hwrite
    cases hwrite
  declare hdeclare := absurd hdeclare (Frames.declare_ne_error hframes)

/-! ### Simple statements -/

theorem typing_declare {scope scope' : Scope} {o o' : Open} (hΓ : Scopes.Settled (scope :: Γ))
    {ty : Ty} {name : String} {line : Nat}
    (hadd : Scopes.addVariable (scope :: Γ) ty name line = (.ok (), scope' :: Γ))
    {later : List Slot} (hlater : o.block.slots = scope'.slots ++ later)
    (hsame : o'.block = o.block) {value : Option Value}
    (hvalue : ∀ v, value = some v → v.HasType (Scopes.type? (scope :: Γ)) ty)
    (h : Frames.Fits (o :: ctx) (scope :: Γ) frames)
    (hdeclare : frames.declare name value = .ok frames') :
    Frames.Fits (o' :: ctx) (scope' :: Γ) frames' := by
  obtain ⟨s, outer, start, heq, hnew, -, hzero, hgrown⟩ := Scopes.addVariable_eq_ok hadd
  cases heq
  have hslots : scope'.slots = scope.slots ++ [⟨name, ty, start, false⟩] :=
    congrArg Scope.slots (List.cons.inj hgrown).1
  have hlayout : ∀ v, value = some v → v.layout = start.layout := fun v hv =>
    hΓ.layout_eq hzero (hvalue v hv)
  have hblock : o.block.slots = scope.slots ++ ⟨name, ty, start, false⟩ :: later := by
    rw [hlater, hslots]
    simp
  obtain ⟨_, hok, hfits⟩ := h.declare hblock hnew hlayout hsame hslots
  obtain rfl := Except.ok.inj (hok.symm.trans hdeclare)
  exact hfits

/-- **Simple statements** that store values of their types leave frames that fit. -/
theorem typing_next {scope scope' : Scope} {split : b.statements = before ++ s :: rest}
    (hΓ : Scopes.Settled (scope :: Γ)) (hs : Stmt.Typed fresh (scope :: Γ) s (scope' :: Γ))
    (split' : b.statements = (before ++ [s]) ++ rest)
    (hnext : Stack fresh (⟨b, before ++ [s], rest, split'⟩ :: ctx) (scope' :: Γ))
    (hsimple : s.isSimple = true)
    (h : Frames.Fits (⟨b, before, s :: rest, split⟩ :: ctx) (scope :: Γ) frames)
    (hperforms : s.Performs (scope :: Γ) (fun ty v => v.HasType (Scopes.type? (scope :: Γ)) ty)
      frames frames') :
    Frames.Fits (⟨b, before ++ [s], rest, split'⟩ :: ctx) (scope' :: Γ) frames' := by
  obtain ⟨later, hlater⟩ : ∃ later, b.slots = scope'.slots ++ later := by
    cases hnext with
    | cons _ _ _ hafter =>
      obtain ⟨later, types, hgrown, -, -⟩ := hafter.extends
      exact ⟨later, congrArg Scope.slots (List.cons.inj hgrown).1⟩
  have hwritten : ∀ {target : Place} {v : Value}, target.Typed (scope :: Γ) →
      v.HasType (Scopes.type? (scope :: Γ)) target.ty →
      frames.write target.fullName v = .ok frames' →
      Frames.Fits (⟨b, before ++ [s], rest, split'⟩ :: ctx) (scope :: Γ) frames' := by
    intro target v htarget hv hwrite
    obtain ⟨_, hok, hfits⟩ := h.write hΓ htarget hv
    obtain rfl := Except.ok.inj (hok.symm.trans hwrite)
    exact hfits.congr rfl rfl
  cases hs with
  | declare hadd | declareInit _ _ _ hadd =>
    obtain ⟨v, hv, hdeclare⟩ := hperforms
    exact typing_declare hΓ hadd hlater rfl hv h hdeclare
  | assign htarget _ _ _ =>
    obtain ⟨v, hv, hwrite⟩ := hperforms
    exact hwritten htarget hv hwrite
  | perform _ =>
    rcases hperforms with rfl | ⟨target, v, htarget, hv, hwrite⟩
    · exact h.congr rfl rfl
    · exact hwritten htarget hv hwrite
  | _ => simp [Stmt.isSimple] at hsimple

/-! ### Runs -/

/-- Frames have the layouts of the variables in sight, evaluation comes to values of their types,
and errors are expected. -/
def typing (fresh : Prop) : Invariant where
  fresh := fresh
  frames ctx frames := ∃ Γ, Stack fresh ctx Γ ∧ Frames.Fits ctx Γ frames
  values Γ ty v := v.HasType Γ.type? ty
  errors := RuntimeError.Expected

/-- Frames that fit one of the scopes of a place fit the others. -/
theorem fits_of_stack {Δ : Scopes} (hΓ : Stack fresh ctx Γ) (hΔ : Stack fresh ctx Δ)
    (h : Frames.Fits ctx Γ frames) : Frames.Fits ctx Δ frames :=
  h.of_slots (hΔ.slots_eq.trans hΓ.slots_eq.symm)

theorem typing_stores (hfresh : fresh) (hstack : Stack fresh ctx Γ) (h : Frames.Fits ctx Γ frames)
    (hctx : ctx ≠ []) :
    Stores Γ frames (fun ty v => v.HasType Γ.type? ty) RuntimeError.Expected := by
  refine stores_typed (hstack.settled hfresh) h ?_
  obtain ⟨env, henv, rfl⟩ := h
  cases hstack with
  | nil => exact absurd rfl hctx
  | cons _ _ _ _ =>
    cases henv with
    | cons _ _ => simp [Context.laters, Frames.holding]

/-- **Runs keep variables to their types.** -/
theorem typing_kept (hfresh : fresh) (hroot : root.Opens fresh []) : (typing fresh).Kept root where
  governs {p ctx part frames} hsite := by
    rintro ⟨Γ₀, hstack₀, hfits₀⟩
    cases part with
    | stmt s =>
      cases hsite with
      | statement split hb =>
        obtain ⟨scope, scope', Γ, hstack, hs, hnext⟩ := hstack₀.statement
        have hfits := fits_of_stack hstack₀ hstack hfits₀
        have hΓ := hstack.settled hfresh
        refine ⟨_, ⟨_, hs⟩, lawful_typed hΓ hfits, typing_stores hfresh hstack hfits, ?_⟩
        rintro _ _ _ _ _ _ frames' split' ⟨rfl, rfl⟩ ⟨rfl⟩ hsimple hperforms
        exact ⟨_, hnext split', typing_next hΓ hs split' (hnext split') hsimple hfits hperforms⟩
    | _ =>
      obtain ⟨Γ, hstack, htyped⟩ := hsite.typed hroot
      have hfits := fits_of_stack hstack₀ hstack hfits₀
      exact ⟨Γ, htyped, lawful_typed (hstack.settled hfresh) hfits,
        typing_stores hfresh hstack hfits, fun _ _ hpart => absurd hpart (by simp)⟩
  past split' hs := by
    rintro ⟨Γ₀, hstack₀, hfits₀⟩
    obtain ⟨scope, scope', Γ, hstack, htyped, hnext⟩ := hstack₀.statement
    obtain ⟨slots, hgrown, -, hnames⟩ := htyped.extends
    have hnone : slots = [] := by simpa [hs] using hnames
    have hslots : scope'.slots = scope.slots := by
      simpa [Scopes.extend, hnone] using congrArg Scope.slots (List.cons.inj hgrown).1
    exact ⟨_, hnext split', (fits_of_stack hstack₀ hstack hfits₀).congr rfl hslots⟩
  enter hsite := by
    rintro ⟨Γ₀, hstack₀, hfits₀⟩
    obtain ⟨Γ, hstack, hopens⟩ := hsite.typed hroot
    exact ⟨_, .cons hstack hopens .nil hopens.typed,
      (fits_of_stack hstack₀ hstack hfits₀).enter hopens rfl rfl⟩
  leave := by
    rintro o ctx frames ⟨Γ, hstack, hfits⟩
    cases hstack with
    | cons hstack _ _ _ => exact ⟨_, hstack, hfits.leave⟩

end Machine

end BindScript
