/-
**Execution keeps stores to their types.**

Trees are well typed, so the rules of execution keep the variables of a store to the layouts of the
scopes. Where the scopes are settled, an expression comes to a value of its type or to an error, and
leaves the layouts as they are; and statements that end normally leave a store for the scopes that
are open after them.

Main results:

* `Stmt.Exec.fits`, `Block.Exec.fits`, `ExecAll.fits` — **statements and blocks keep stores to their
  types**.
-/

import BindScript.Proofs.Execution
import BindScript.Proofs.Soundness.Values
import BindScript.Proofs.Soundness.Variables

namespace BindScript

variable {fresh : Prop} {Γ Γ' : Scopes} {st st' : Store} {e : Expr} {α β : Type}

/-! ### Expressions -/

/-- The variables have the layouts of the scopes after an evaluation, and its result is good. -/
def Keeps (Γ : Scopes) (good : α → Prop) (r : Except RuntimeError α × Store) : Prop :=
  Env.Fits Γ r.2.env ∧ ∀ a, r.1 = .ok a → good a

theorem Keeps.chain {good : α → Prop} {good' : β → Prop} {r : Except RuntimeError α × Store}
    {next : α → Store → Except RuntimeError β × Store} (h : Keeps Γ good r)
    (hnext : ∀ a st, good a → Env.Fits Γ st.env → Keeps Γ good' (next a st)) :
    Keeps Γ good' (chain r next) := by
  obtain ⟨_ | a, st⟩ := r
  · exact ⟨h.1, fun _ hok => absurd hok (by simp [BindScript.chain])⟩
  · exact hnext a st (h.2 a rfl) h.1

theorem keeps_of_gives {ty : Ty} (hty : ∀ record, ty ≠ .record record)
    {r : Except RuntimeError Value} (h : Gives ty r) (hst : Env.Fits Γ st.env) :
    Keeps Γ (fun v => v.HasType Γ.type? ty) (r, st) := by
  refine ⟨hst, fun v hok => (Value.hasType_iff_ty hty).2 ?_⟩
  obtain rfl : r = .ok v := hok
  exact h

theorem types_of_hasType {args : List Expr} (hleaf : ∀ arg ∈ args, arg.ty.isLeaf = true)
    {values : List Value}
    (h : List.Forall₂ (fun ty v => v.HasType Γ.type? ty) (args.map Expr.ty) values) :
    values.map Value.ty = args.map Expr.ty := by
  induction args generalizing values with
  | nil =>
    cases h
    rfl
  | cons arg args ih =>
    cases h with
    | cons hv hvs =>
      have hty := (Value.hasType_iff_ty (Ty.ne_record (hleaf arg (by simp)))).1 hv
      rw [List.map_cons, List.map_cons, hty,
        ih (fun a ha => hleaf a (List.mem_cons_of_mem _ ha)) hvs]

/-- Adding one to a place, or taking one from it, keeps the layouts. -/
theorem adjust_keeps (hΓ : Γ.Settled) {f : Builtin} {p : Place} (hp : p.Typed Γ) (hty : p.ty = .int)
    (hst : Env.Fits Γ st.env) : Keeps Γ (fun v => v = .void) (adjust f p st) := by
  unfold adjust
  obtain ⟨v, hread, hv⟩ := hst.read hΓ hp
  rw [hty] at hv
  obtain ⟨n, rfl⟩ := Value.eq_int_of_ty hv
  rw [hread]
  have hgives := Value.checkedInt_gives f.name (if f = .inc then n.toInt + 1 else n.toInt - 1)
  cases hc : Value.checkedInt f.name (if f = .inc then n.toInt + 1 else n.toInt - 1) with
  | error e => simp only [hc]; exact ⟨hst, by simp⟩
  | ok w =>
    rw [hc] at hgives
    obtain ⟨env, hwrite, hfits⟩ := hst.write hΓ hp (v := w) (by rw [hty]; exact hgives)
    simp only [hc, Store.write, hwrite]
    exact ⟨hfits, fun _ hok => (Except.ok.inj hok).symm⟩

/-- The arguments of a call, if each of them keeps the layouts. -/
theorem evalAll_keeps {args : List Expr}
    (hargs : ∀ arg ∈ args, ∀ st, Env.Fits Γ st.env →
      Keeps Γ (fun v => v.HasType Γ.type? arg.ty) (arg.eval st))
    (hst : Env.Fits Γ st.env) :
    Keeps Γ (List.Forall₂ (fun ty v => v.HasType Γ.type? ty) (args.map Expr.ty))
      (Expr.evalAll args st) := by
  induction args generalizing st with
  | nil =>
    rw [Expr.evalAll]
    exact ⟨hst, fun _ hok => Except.ok.inj hok ▸ .nil⟩
  | cons arg args ih =>
    rw [Expr.evalAll]
    refine (hargs arg (by simp) st hst).chain fun v st₁ hv hst₁ => ?_
    refine (ih (fun a ha => hargs a (List.mem_cons_of_mem _ ha)) hst₁).chain fun vs st₂ hvs hst₂ =>
      ?_
    exact ⟨hst₂, fun _ hok => Except.ok.inj hok ▸ .cons hv hvs⟩

/-- **Expressions keep the layouts and come to values of their types.** -/
theorem Expr.Typed.eval_keeps (hΓ : Γ.Settled) (h : e.Typed Γ) (st : Store)
    (hst : Env.Fits Γ st.env) :
    Keeps Γ (fun v => v.HasType Γ.type? e.ty) (e.eval st) := by
  induction h generalizing st with
  | @literal line v hv =>
    rw [Expr.eval]
    refine ⟨hst, fun _ hok => Except.ok.inj hok ▸ ?_⟩
    cases v with
    | record leaves => simp [Value.isLiteral] at hv
    | _ => rfl
  | load hp =>
    obtain ⟨v, hread, hv⟩ := hst.read hΓ hp
    rw [Expr.eval, hread]
    exact ⟨hst, fun _ hok => Except.ok.inj hok ▸ hv⟩
  | host => exact ⟨hst, by simp [Expr.eval]⟩
  | @negate line logical operand _ hop ih =>
    rw [Expr.eval]
    refine (ih st hst).chain fun v st₁ hv hst₁ => ?_
    have hprimitive := Ty.ne_record_of_negate hop
    have hty := (Value.hasType_iff_ty hprimitive).1 hv
    rw [← hty] at hop hprimitive
    have hkeeps := keeps_of_gives hprimitive (Value.negate_gives hop) hst₁
    rw [hty] at hkeeps
    exact hkeeps
  | binary _ _ hne ihl ihr =>
    rw [Expr.eval]
    refine (ihl st hst).chain fun l st₁ hl hst₁ => ?_
    refine (ihr st₁ hst₁).chain fun r st₂ hr hst₂ => ?_
    obtain ⟨hleft, hright, hresult⟩ := Operator.operands_ne_record hne
    have hlty := (Value.hasType_iff_ty hleft).1 hl
    have hrty := (Value.hasType_iff_ty hright).1 hr
    rw [← hlty, ← hrty] at hne hresult
    have hkeeps := keeps_of_gives hresult (Value.binary_gives hne) hst₂
    rw [hlty, hrty] at hkeeps
    exact hkeeps
  | select _ _ _ _ hsame _ ihc ihy ihn =>
    rw [Expr.eval]
    refine (ihc st hst).chain fun v st₁ _ hst₁ => ?_
    cases v.isTruthy with
    | true => exact ihy st₁ hst₁
    | false =>
      have hkeeps := ihn st₁ hst₁
      rw [hsame] at hkeeps
      exact hkeeps
  | @call line f args htyped haccepts ih =>
    cases href : f.takesReference with
    | true =>
      obtain ⟨q, rfl⟩ := haccepts.reference href
      have hq : q.Typed Γ := by
        cases htyped (.load q) (by simp) with
        | load hq => exact hq
      have hkeeps := adjust_keeps hΓ (f := f) hq (haccepts.reference_int href) hst
      rw [Expr.eval, href]
      refine ⟨hkeeps.1, fun v hok => ?_⟩
      have hvoid : f.signature.ret = .void := by
        revert href
        cases f <;> decide
      obtain rfl := hkeeps.2 v hok
      rw [Expr.ty, hvoid]
      rfl
    | false =>
      rw [Expr.eval_call href]
      refine (evalAll_keeps ih hst).chain fun values st₁ hvalues hst₁ => ?_
      have htakes := haccepts.takes
      rw [← types_of_hasType (fun arg harg => haccepts.arg_leaf harg) hvalues] at htakes
      exact keeps_of_gives f.ret_ne_record (Builtin.call_gives htakes href st₁.console) hst₁

theorem Expr.Typed.fits_of_eval (hΓ : Γ.Settled) (h : e.Typed Γ) (hst : Env.Fits Γ st.env)
    {r : Except RuntimeError Value} (heval : e.eval st = (r, st')) : Env.Fits Γ st'.env := by
  have hkeeps := (h.eval_keeps hΓ st hst).1
  rwa [heval] at hkeeps

theorem Expr.Typed.hasType_of_eval (hΓ : Γ.Settled) (h : e.Typed Γ) (hst : Env.Fits Γ st.env)
    {v : Value} (heval : e.eval st = (.ok v, st')) : v.HasType Γ.type? e.ty :=
  (h.eval_keeps hΓ st hst).2 v (by rw [heval])

/-! ### Stores -/

theorem Scopes.Settled.push (hΓ : Γ.Settled) {slots : List Slot}
    (hslots : ∀ slot ∈ slots, slot.ty = slot.value.ty ∧ slot.ty.isLeaf = true) :
    Scopes.Settled (⟨slots, []⟩ :: Γ) := by
  refine ⟨hΓ.coherent.push (Scopes.lasting_type? True.intro) hslots, ?_⟩
  intro s hs
  rcases List.mem_cons.1 hs with rfl | hs
  · simp
  · exact hΓ.leaves s hs

theorem Scopes.Settled.statements (hfresh : fresh) (hΓ : Γ.Settled) {ss : List Stmt}
    (hss : TypedAll fresh Γ ss Γ') : Γ'.Settled :=
  ⟨hΓ.coherent.statements (Scopes.lasting_type? hfresh) hss, hss.leafTyped hΓ.leaves⟩

/-- The store has the variables of the scopes with values of their layouts; the scopes are settled,
and there is an innermost one. -/
structure Store.Fits (st : Store) (Γ : Scopes) : Prop where
  nonempty : Γ ≠ []
  settled : Γ.Settled
  env : Env.Fits Γ st.env

namespace Store.Fits

theorem eval (h : st.Fits Γ) (he : e.Typed Γ) {r : Except RuntimeError Value}
    (heval : e.eval st = (r, st')) :
    st'.Fits Γ :=
  ⟨h.nonempty, h.settled, he.fits_of_eval h.settled h.env heval⟩

theorem env_ne_nil (h : st.Fits Γ) : st.env ≠ [] := by
  intro hnil
  have hlength := List.Forall₂.length_eq h.env
  rw [hnil] at hlength
  exact h.nonempty (List.length_eq_zero_iff.1 hlength)

/-- The innermost variables, and a name that is not among them. -/
theorem lookup_eq_none {scope : Scope} {outer : Scopes} (h : st.Fits (scope :: outer))
    {name : String} (hnew : scope.slot? name = none) :
    ∃ values env, st.env = values :: env ∧ values.lookup name = none := by
  obtain ⟨values, env, hscope, -, hst⟩ := List.forall₂_cons_left_iff.1 h.env
  refine ⟨values, env, hst, ?_⟩
  rcases hscope.lookup name with ⟨-, hnone⟩ | ⟨slot, v, hfound, -, -⟩
  · exact hnone
  · exact absurd (hnew.symm.trans hfound) (by simp)

/-- Declarations of record types leave the variables as they are. -/
theorem records (hfresh : fresh) (h : st.Fits Γ) (hrecords : TypedAll fresh Γ [] Γ') :
    st.Fits Γ' := by
  obtain ⟨slots, types, hgrown, -, hnames⟩ := hrecords.extends
  obtain rfl : slots = [] := by simpa using hnames
  have hsettled := h.settled.statements hfresh hrecords
  obtain ⟨hne, -, henv⟩ := h
  subst hgrown
  cases Γ with
  | nil => exact absurd rfl hne
  | cons scope outer =>
    obtain ⟨values, env, hscope, hrest, hst⟩ := List.forall₂_cons_left_iff.1 henv
    refine ⟨by simp [Scopes.extend], hsettled, ?_⟩
    rw [hst]
    refine .cons ?_ hrest
    rw [List.append_nil]
    exact hscope

/-- A declaration adds a variable with a value of its layout. -/
theorem declare (h : st.Fits Γ) (hsettled : Γ'.Settled) {name : String} {ty : Ty} {line : Nat}
    (hadd : Γ.addVariable ty name line = (.ok (), Γ')) {v : Value}
    (hv : ∀ start, Γ.zeroValue ty line = .ok start → v.layout = start.layout) :
    (st.declare name v).Fits Γ' := by
  obtain ⟨scope, outer, start, rfl, -, -, hzero, rfl⟩ := Scopes.addVariable_eq_ok hadd
  obtain ⟨values, env, hscope, hrest, hst⟩ := List.forall₂_cons_left_iff.1 h.env
  refine ⟨by simp, hsettled, ?_⟩
  simp only [Store.declare, Env.declare, hst]
  exact .cons (List.rel_append hscope (.cons ⟨rfl, hv start hzero⟩ .nil)) hrest

end Store.Fits

theorem startValue_eq {scope : Scope} {name : String} {ty : Ty} {value : Value} {line : Nat}
    {later : List Slot} (hnew : scope.slot? name = none) (hzero : Γ.zeroValue ty line = .ok value) :
    startValue (scope.slots ++ ⟨name, ty, value, false⟩ :: later) name ty = value := by
  rcases Scopes.zeroValue_eq_ok hzero with ⟨record, fields, rfl, -, rfl⟩ | ⟨hprimitive, rfl⟩
  · have hfind : scope.slots.find? (fun s => s.name == name) = none := hnew
    simp [startValue, List.find?_append, hfind]
  · cases ty with
    | record record => exact absurd rfl (hprimitive record)
    | _ => rfl

/-! ### Statements -/

/-- The slots of a block go on from those of its scope at any point. -/
theorem exists_later {ss : List Stmt} {slots later : List Slot} (h : TypedAll fresh Γ ss Γ')
    (hlater : slots = Γ'.top.slots ++ later) : ∃ before, slots = Γ.top.slots ++ before := by
  obtain ⟨more, types, rfl, -⟩ := h.extends
  cases Γ with
  | nil => exact ⟨later, hlater⟩
  | cons scope outer => exact ⟨more ++ later, by simpa [Scopes.top, Scopes.extend] using hlater⟩

theorem Store.Fits.enter (h : st.Fits Γ) {ss : List Stmt} {slots : List Slot} {types : Table Fields}
    (hss : TypedAll fresh (Scope.empty :: Γ) ss (⟨slots, types⟩ :: Γ)) :
    (st.enter (boundValues slots)).Fits (Scope.empty :: Γ) := by
  obtain ⟨more, types', hgrown, hunbound, -⟩ := hss.extends
  obtain ⟨rfl, -⟩ : slots = more ∧ types = types' := by
    simpa [Scopes.extend, Scope.empty] using hgrown
  refine ⟨by simp, h.settled.push (by simp), ?_⟩
  rw [boundValues_eq (List.nil_append slots).symm (by simp) hunbound]
  exact .cons .nil h.env

theorem Store.Fits.leave {scope : Scope} (hΓ : Γ.Settled) (hne : Γ ≠ [])
    (h : st.Fits (scope :: Γ)) :
    st.leave.Fits Γ := by
  obtain ⟨values, env, -, hrest, hst⟩ := List.forall₂_cons_left_iff.1 h.env
  refine ⟨hne, hΓ, ?_⟩
  rw [Store.leave, hst]
  exact hrest

mutual

/-- **A statement that ends normally** leaves a store for the scopes after it. -/
theorem Stmt.Exec.fits (hfresh : fresh) {slots : List Slot} {s : Stmt} {st : Store} {o : Outcome} :
    Stmt.Exec slots s st o → o.1 = .ok () → ∀ {Γ Γ' : Scopes} {later : List Slot},
      Stmt.Typed fresh Γ s Γ' → slots = Γ'.top.slots ++ later → st.Fits Γ → o.2.Fits Γ'
  | .branchYes heval _ hyes, hok, _, _, _, htyped, _, hst => by
      cases htyped with
      | branch hc _ hy | branchElse hc _ hy _ => exact hyes.fits hfresh hok hy (hst.eval hc heval)
  | .branchNo heval _ hno, hok, _, _, _, htyped, _, hst => by
      cases htyped with
      | branchElse hc _ _ hn => exact hno.fits hfresh hok hn (hst.eval hc heval)
  | .branchSkip heval _, _, _, _, _, htyped, _, hst => by
      cases htyped with
      | branch hc _ _ => exact hst.eval hc heval
  | .loopStop heval _, _, _, _, _, htyped, _, hst => by
      cases htyped with
      | loop hc _ _ => exact hst.eval hc heval
  | .loopNext heval _ hbody hrest, hok, _, _, _, htyped, hlater, hst => by
      cases htyped with
      | loop hc hbool hb =>
        have hst₁ := hbody.fits hfresh rfl hb (hst.eval hc heval)
        exact hrest.fits hfresh hok (.loop hc hbool hb) hlater hst₁
  | .block hbody, hok, _, _, _, htyped, _, hst => by
      cases htyped with
      | block hb => exact hbody.fits hfresh hok hb hst
  | .declare, _, _, _, _, htyped, hlater, hst => by
      have hsettled := hst.settled.statements hfresh (.cons htyped .nil)
      cases htyped with
      | declare hadd =>
        refine hst.declare hsettled hadd fun start hstart => ?_
        obtain ⟨scope, outer, value, rfl, hnew, -, hzero, rfl⟩ := Scopes.addVariable_eq_ok hadd
        obtain rfl : value = start := Except.ok.inj (hzero.symm.trans hstart)
        rw [hlater, Scopes.top, List.headD_cons, List.append_assoc, List.singleton_append,
          startValue_eq hnew hzero]
  | .declareInit heval, _, _, _, _, htyped, _, hst => by
      have hsettled := hst.settled.statements hfresh (.cons htyped .nil)
      cases htyped with
      | declareInit hinit hty _ hadd =>
        have hv := hinit.hasType_of_eval hst.settled hst.env heval
        rw [hty] at hv
        exact (hst.eval hinit heval).declare hsettled hadd fun start hzero =>
          hst.settled.layout_eq hzero hv
  | .assign heval hwrite, _, _, _, _, htyped, _, hst => by
      cases htyped with
      | assign htarget hvalue hty _ =>
        have hv := hvalue.hasType_of_eval hst.settled hst.env heval
        rw [hty] at hv
        have hst₁ := hst.eval hvalue heval
        obtain ⟨env, hok, hfits⟩ := hst₁.env.write hst₁.settled htarget hv
        obtain rfl := Except.ok.inj (hok.symm.trans hwrite)
        exact ⟨hst₁.nonempty, hst₁.settled, hfits⟩
  | .perform heval, _, _, _, _, htyped, _, hst => by
      cases htyped with
      | perform hcall =>
        have hst₁ := hst.eval hcall heval
        exact ⟨hst₁.nonempty, hst₁.settled, hst₁.env⟩
  | .branchFails _, hok, _, _, _, _, _, _ | .loopFails _, hok, _, _, _, _, _, _
  | .loopBodyFails _ _ _, hok, _, _, _, _, _, _ | .declareFails _, hok, _, _, _, _, _, _
  | .assignFails _, hok, _, _, _, _, _, _ | .assignMissing _ _, hok, _, _, _, _, _, _
  | .performFails _, hok, _, _, _, _, _, _ => absurd hok (by simp)

/-- **A block that ends normally** leaves a store for the scopes around it. -/
theorem Block.Exec.fits (hfresh : fresh) {b : Block} {st : Store} {o : Outcome} :
    Block.Exec b st o → o.1 = .ok () → ∀ {Γ : Scopes}, Block.Typed fresh Γ b → st.Fits Γ →
    o.2.Fits Γ
  | .ends hss, _, _, .mk htyped, hst =>
    (hss.fits hfresh rfl htyped (List.append_nil _).symm (hst.enter htyped)).leave hst.settled
      hst.nonempty
  | .fails _, hok, _, _, _ => absurd hok (by simp)

/-- **Statements that end normally** leave a store for the scopes after them. -/
theorem ExecAll.fits (hfresh : fresh) {slots : List Slot} {ss : List Stmt} {st : Store}
    {o : Outcome} :
    ExecAll slots ss st o → o.1 = .ok () → ∀ {Γ Γ' : Scopes} {later : List Slot},
      TypedAll fresh Γ ss Γ' → slots = Γ'.top.slots ++ later → st.Fits Γ → o.2.Fits Γ'
  | .nil, _, _, _, _, htyped, _, hst => hst.records hfresh htyped
  | .cons hs hss, hok, _, _, _, htyped, hlater, hst => by
      obtain ⟨Δ, Δ', hrecords, hfirst, hrest⟩ := htyped.head
      obtain ⟨later', hlater'⟩ := exists_later hrest hlater
      exact hss.fits hfresh hok hrest hlater
        (hs.fits hfresh rfl hfirst hlater' (hst.records hfresh hrecords))
  | .fails _, hok, _, _, _, _, _, _ => absurd hok (by simp)

end

end BindScript
