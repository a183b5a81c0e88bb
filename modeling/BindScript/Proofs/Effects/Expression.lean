/-
**Expressions have effects at their root only.**

The operands, conditions, branches and arguments of a well-typed expression have values, so none of
them is a call for its effect.  An evaluation therefore comes to its end with nothing changed but
what the call at the root does; and if it fails, nothing is changed at all.  This is so with any
host that is changed by effects only, and for any frames.

What values an evaluation may come to, and with what errors it may fail, is a parameter: a family of
values for each type, and a set of errors, that all operations keep to.

Main results:

* `Machine.eval_attempts` — **expressions**.
-/

import BindScript.Proofs.Effects.Basic

namespace BindScript

/-! ### Types with values -/

theorem Ty.ne_void {ty : Ty} (h : ty.isLeaf = true) : ty ≠ .void := by
  rintro rfl
  cases h

theorem Operator.operands_ne_void {op : Operator} {a b : Ty} (h : op.infer a b ≠ .void) :
    a ≠ .void ∧ b ≠ .void := by
  rcases Operator.infer_cases h with ⟨-, rfl, hleaf, -⟩ | ⟨-, rfl, rfl, -⟩ | ⟨-, rfl, rfl, -⟩ |
    ⟨-, -, rfl, hnum, -⟩
  · exact ⟨Ty.ne_void hleaf, Ty.ne_void hleaf⟩
  · exact ⟨by decide, by decide⟩
  · exact ⟨by decide, by decide⟩
  · have ha : a ≠ .void := by
      rintro rfl
      cases hnum
    exact ⟨ha, ha⟩

theorem Ty.negated_ne_void {ty : Ty} {logical : Bool}
    (h : if logical then ty = .bool else ty.isNumeric = true) : ty ≠ .void := by
  rintro rfl
  cases logical <;> simp [Ty.isNumeric] at h

namespace Machine

variable {σ : Type}

/-! ### Values and errors -/

/-- A result is one of the values, or one of the errors. -/
def Answers (V : Value → Prop) (Q : RuntimeError → Prop) : Except RuntimeError Value → Prop
  | .ok v => V v
  | .error e => Q e

/-- All operations on values of their types keep to the values and the errors, with the given host,
and with frames in which the variables of the scopes are looked up. -/
structure Lawful (host : Host σ) (Γ : Scopes) (frames : Frames) (V : Ty → Value → Prop)
    (Q : RuntimeError → Prop) : Prop where
  literal {v : Value} : v.isLiteral = true → V v.ty v
  load {p : Place} : p.Typed Γ → Answers (V p.ty) Q (frames.read p.fullName)
  resolve (name : String) (s : σ) : Answers (V .string) Q (host.resolve name s).1
  negate {ty : Ty} {v : Value} {logical : Bool} :
    (if logical then ty = .bool else ty.isNumeric = true) → V ty v → Answers (V ty) Q v.negateAny
  binary {op : Operator} {a b : Ty} {l r : Value} :
    op.infer a b ≠ .void → V a l → V b r → Answers (V (op.infer a b)) Q (Value.binary op l r)
  call {f : Builtin} {args : List Expr} {values : List Value} (m : Machine σ) :
    f.Accepts args → f.takesReference = false → List.Forall₂ V (args.map Expr.ty) values →
    Answers (V f.signature.ret) Q (callWithValues host f.name values m).1
  update {f : Builtin} {p : Place} (m : Machine σ) :
    f.takesReference = true → p.Typed Γ → p.ty = .int → m.frames = frames →
    Answers (V .void) Q (updateTarget f (.load p.fullName) m).1

/-- The end of an evaluation: the machine is past the expression, and unless that is a call for its
effect, all is as before. Frames are changed by writing one place, if at all. -/
structure Done (Γ : Scopes) (V : Ty → Value → Prop) (e : Expr) (stop : Nat) (m : Machine σ)
    (v : Value) (m' : Machine σ) : Prop where
  value : V e.ty v
  position : m'.position = stop
  limit : m'.limit.span? = m.limit.span?
  keeps : e.isEffect = false → Keeps m m'
  frames : m'.frames = m.frames ∨
    ∃ (target : Place) (w : Value), target.Typed Γ ∧ V target.ty w ∧
      m.frames.write target.fullName w = .ok m'.frames

variable {host : Host σ} {code : Array Instruction} {Γ : Scopes} {frames : Frames}
  {V : Ty → Value → Prop} {Q : RuntimeError → Prop} {m m₁ m' : Machine σ} {e : Expr} {v : Value}
  {start stop p : Nat}

theorem Keeps.done (h : Keeps m m') (hv : V e.ty v) (hposition : m'.position = stop) :
    Done Γ V e stop m v m' :=
  ⟨hv, hposition, h.limit, fun _ => h, .inl h.frames⟩

theorem Done.rebase (hm : Keeps m m₁) (h : Done Γ V e stop m₁ v m') : Done Γ V e stop m v m' :=
  ⟨h.value, h.position, h.limit.trans hm.limit,
    fun he => hm.trans (h.keeps he), by rw [← hm.frames]; exact h.frames⟩

theorem attempts_answers {r : Except RuntimeError Value} (hr : Answers (V e.ty) Q r)
    (hm : Keeps m m') (hposition : m'.position = stop) :
    Attempts m start stop Q (Done Γ V e stop m) (some (r, m')) := by
  cases r with
  | ok v => exact attempts_ok (hm.done hr hposition)
  | error err => exact attempts_error hr hm

/-! ### Calls -/

/-- An evaluation of all expressions with no more instructions than the bound comes to an end. -/
def EvalAttempts (code : Array Instruction) (Γ : Scopes) (frames : Frames) (V : Ty → Value → Prop)
    (Q : RuntimeError → Prop) (bound : Nat) (ev : Machine σ → Option (Result σ Value)) : Prop :=
  ∀ ⦃e : Expr⦄ ⦃p : Nat⦄ ⦃m : Machine σ⦄, e.Typed Γ → Code.At code p (e.codeAt p) →
    (e.codeAt p).length ≤ bound → m.position = p → m.frames = frames →
    Attempts m p (p + (e.codeAt p).length) Q (Done Γ V e (p + (e.codeAt p).length) m) (ev m)

variable {bound : Nat} {ev : Machine σ → Option (Result σ Value)}

/-- A part of an expression that has a value: all is as before, also since the expression began. -/
theorem EvalAttempts.part (hev : EvalAttempts code Γ frames V Q bound ev) (he : e.Typed Γ)
    (hty : e.ty ≠ .void) (hcode : Code.At code p (e.codeAt p))
    (hbound : (e.codeAt p).length ≤ bound) (hm : Keeps m m₁) (hposition : m₁.position = p)
    (hframes : m.frames = frames) (hstart : start ≤ p) (hstop : p + (e.codeAt p).length ≤ stop) :
    Attempts m start stop Q
      (fun v m' => V e.ty v ∧ Keeps m m' ∧ m'.position = p + (e.codeAt p).length) (ev m₁) := by
  have hframes₁ : m₁.frames = frames := hm.frames.trans hframes
  refine ((hev he hcode hbound hposition hframes₁).rebase hm hstart hstop).imp ?_
  intro v m' hdone
  exact ⟨hdone.value, hm.trans (hdone.keeps (he.isEffect_eq_false hty)), hdone.position⟩

/-- The arguments of a call are evaluated from the left, and all is as before. -/
theorem evalArgs_attempts (hev : EvalAttempts code Γ frames V Q bound ev) {args : List Expr}
    (htyped : ∀ arg ∈ args, arg.Typed Γ) (hleaf : ∀ arg ∈ args, arg.ty.isLeaf = true)
    (hcode : Code.At code p (Expr.codeOfAll p args))
    (hbound : (Expr.codeOfAll p args).length ≤ bound) (hm : Keeps m m₁)
    (hposition : m₁.position = p) (hframes : m.frames = frames) (hstart : start ≤ p)
    (hstop : p + (Expr.codeOfAll p args).length ≤ stop) :
    Attempts m start stop Q
      (fun values m' => List.Forall₂ V (args.map Expr.ty) values ∧ Keeps m m' ∧
        m'.position = p + (Expr.codeOfAll p args).length) (evalArgs ev args.length m₁) := by
  induction args generalizing p m₁ with
  | nil => exact attempts_ok ⟨.nil, hm, hposition⟩
  | cons arg args ih =>
    rw [Expr.codeOfAll] at hcode hbound hstop ⊢
    rw [List.length_append] at hbound hstop
    obtain ⟨hhead, htail⟩ := Code.at_append.1 hcode
    rw [List.length_cons, evalArgs_succ]
    have hty := Ty.ne_void (hleaf arg (by simp))
    refine (hev.part (htyped arg (by simp)) hty hhead (by omega) hm hposition hframes hstart
      (by omega)).andThen ?_
    rintro v m₂ ⟨hv, hm₂, hposition₂⟩
    refine (ih (fun a ha => htyped a (List.mem_cons_of_mem _ ha))
      (fun a ha => hleaf a (List.mem_cons_of_mem _ ha)) htail (by omega) hm₂ hposition₂ (by omega)
      (by omega)).andThen ?_
    rintro vs m₃ ⟨hvs, hm₃, hposition₃⟩
    refine attempts_ok ⟨.cons hv hvs, hm₃, ?_⟩
    rw [hposition₃, List.length_append]
    omega

theorem callByReference_attempts (hlaws : Lawful host Γ frames V Q) {line : Nat} {f : Builtin}
    {target : Place} (href : f.takesReference = true) (htarget : target.Typed Γ)
    (hint : target.ty = .int) (hi : code[p]? = some (.load target.fullName))
    (hposition : m.position = p) (hframes : m.frames = frames) (hstart : start ≤ p)
    (hstop : stop = p + 1) :
    Attempts m start stop Q (Done Γ V (.call line f f.signature.ret [.load target]) stop m)
      (some (callByReference code f 1 m)) := by
  have heffect := Builtin.isEffect_of_takesReference href
  rw [callByReference_eq, if_neg (by simp)]
  refine (fetch_attempts hposition hi hstart (by omega)).andThen ?_
  rintro i m₁ ⟨rfl, hm₁, hposition₁⟩
  have hanswers := hlaws.update m₁ href htarget hint (hm₁.frames.trans hframes)
  rcases updateTarget_cases f target.fullName m₁ with ⟨err, hfail⟩ | ⟨n, frames', hwrite, hok⟩
  · rw [hfail] at hanswers ⊢
    exact attempts_error hanswers hm₁
  · rw [hok] at hanswers ⊢
    refine attempts_ok ⟨?_, by rw [hstop]; exact hposition₁, hm₁.limit, ?_, ?_⟩
    · have hret : f.signature.ret = .void := (Builtin.isEffect_iff f).1 heffect
      rw [Expr.ty, hret]
      exact hanswers
    · intro hquiet
      exact absurd heffect (by simpa [Expr.isEffect] using hquiet)
    · refine .inr ⟨target, .int n, htarget, ?_, ?_⟩
      · rw [hint]
        exact hlaws.literal (v := .int n) rfl
      · rw [← hm₁.frames]
        exact hwrite

theorem callWithValues_attempts (hhost : host.Orderly) (hlaws : Lawful host Γ frames V Q)
    {line : Nat} {f : Builtin} {args : List Expr} (haccepts : f.Accepts args)
    (href : f.takesReference = false) {values : List Value}
    (hvalues : List.Forall₂ V (args.map Expr.ty) values) (hm : Keeps m m₁)
    (hposition : m₁.position = stop) :
    Attempts m start stop Q (Done Γ V (.call line f f.signature.ret args) stop m)
      (match completeArgs f values with
        | .error e => some (.error e, m₁)
        | .ok args => some (callWithValues host f.name args m₁)) := by
  have hlength : values.length = args.length := by
    rw [← hvalues.length_eq, List.length_map]
  rw [completeArgs_eq haccepts hlength]
  have hanswers := hlaws.call m₁ haccepts href hvalues
  have hkeeps : f.isEffect = false ∨
      (∃ err, (callWithValues host f.name values m₁).1 = .error err) →
      Keeps m₁ (callWithValues host f.name values m₁).2 := callWithValues_keeps hhost
  obtain ⟨hframes, hplace, hlimit⟩ := callWithValues_fields host f.name values m₁
  simp only
  cases hcall : callWithValues host f.name values m₁ with
  | mk r m₂ =>
    rw [hcall] at hanswers hkeeps hframes hplace hlimit
    simp only at hanswers hkeeps hframes hplace hlimit
    cases r with
    | error err => exact attempts_error hanswers (hm.trans (hkeeps (.inr ⟨err, rfl⟩)))
    | ok v =>
      refine attempts_ok ⟨hanswers, hplace.trans hposition, ?_, ?_, ?_⟩
      · rw [hlimit]
        exact hm.limit
      · exact fun hquiet => hm.trans (hkeeps (.inl hquiet))
      · exact .inl (hframes.trans hm.frames)

/-! ### Expressions -/

/-- The first instruction of an expression has been fetched. -/
theorem evalFetched_attempts (hhost : host.Orderly) (hlaws : Lawful host Γ frames V Q)
    (hev : EvalAttempts code Γ frames V Q bound ev) (he : e.Typed Γ)
    (hcode : Code.At code p (e.codeAt p)) (hbound : (e.codeAt p).length ≤ bound + 1)
    {i : Instruction} {rest : Code} (hfirst : e.codeAt p = i :: rest)
    (hposition : m.position = p + 1) (hframes : m.frames = frames) :
    Attempts m p (p + (e.codeAt p).length) Q (Done Γ V e (p + (e.codeAt p).length) m)
      (evalFetched host code ev i m) := by
  have hm : Keeps m m := .refl m
  cases he with
  | @literal line v hv =>
    obtain ⟨rfl, -⟩ := List.cons.inj hfirst
    cases v with
    | void => simp [Value.isLiteral] at hv
    | record leaves => simp [Value.isLiteral] at hv
    | _ => exact attempts_ok (hm.done (hlaws.literal hv) hposition)
  | @load target htarget =>
    obtain ⟨rfl, -⟩ := List.cons.inj hfirst
    have hanswers := hlaws.load htarget
    rw [← hframes] at hanswers
    exact attempts_answers hanswers hm hposition
  | @host line name =>
    obtain ⟨rfl, -⟩ := List.cons.inj hfirst
    have hkeeps : Keeps m { m with host := (host.resolve name m.host).2 } :=
      ⟨rfl, rfl, hhost.resolve name m.host, rfl, rfl, rfl⟩
    exact attempts_answers (hlaws.resolve name m.host) hkeeps hposition
  | @negate line logical e he hop =>
    simp only [Expr.codeAt, List.length_cons] at hcode hbound hfirst ⊢
    obtain ⟨rfl, -⟩ := List.cons.inj hfirst
    rw [evalFetched_negate]
    refine (hev.part he (Ty.negated_ne_void hop) hcode.2 (by omega) hm hposition hframes (by omega)
      (by omega)).andThen ?_
    rintro v m₁ ⟨hv, hm₁, hposition₁⟩
    exact attempts_answers (hlaws.negate hop hv) hm₁ (by omega)
  | @binary line op left right hl hr hne =>
    simp only [Expr.codeAt, List.length_cons, List.length_append] at hcode hbound hfirst ⊢
    obtain ⟨rfl, -⟩ := List.cons.inj hfirst
    obtain ⟨hleft, hright⟩ := Code.at_append.1 hcode.2
    obtain ⟨hlty, hrty⟩ := Operator.operands_ne_void hne
    rw [evalFetched_binary]
    refine (hev.part hl hlty hleft (by omega) hm hposition hframes (by omega) (by omega)).andThen ?_
    rintro l m₁ ⟨hlv, hm₁, hposition₁⟩
    refine (hev.part hr hrty hright (by omega) hm₁ hposition₁ hframes
      (by omega) (by omega)).andThen ?_
    rintro r m₂ ⟨hrv, hm₂, hposition₂⟩
    exact attempts_answers (hlaws.binary hne hlv hrv) hm₂ (by omega)
  | @select line condition yes no hc hcty hy hn hbranches hne =>
    simp only [Expr.codeAt, List.length_cons, List.length_append] at hcode hbound hfirst ⊢
    obtain ⟨rfl, -⟩ := List.cons.inj hfirst
    obtain ⟨hchoice, hno⟩ := Code.at_append.1 hcode.2
    obtain ⟨hcondition, hyes⟩ := Code.at_append.1 hchoice
    rw [List.length_append, ← Nat.add_assoc] at hno
    have hsize := hno.bound
    rw [evalFetched_select]
    refine (hev.part hc (by rw [hcty]; decide) hcondition (by omega) hm hposition hframes (by omega)
      (by omega)).andThen ?_
    rintro c m₁ ⟨-, hm₁, hposition₁⟩
    cases c.isTruthy with
    | true =>
      simp only [if_true]
      -- the value is kept while the other branch is jumped over
      refine (hev.part hy hne hyes (by omega) hm₁ hposition₁ hframes
        (by omega) (by omega)).andThen ?_
      rintro v m₂ ⟨hv, hm₂, -⟩
      refine (jump_attempts (by omega) hm₂).andThen ?_
      rintro - m₃ ⟨hm₃, hposition₃⟩
      exact attempts_ok (hm₃.done hv (by omega))
    | false =>
      simp only [Bool.false_eq_true, if_false]
      refine (jump_attempts (by omega) hm₁).andThen ?_
      rintro - m₂ ⟨hm₂, hposition₂⟩
      have hnty : no.ty ≠ .void := by rwa [hbranches]
      refine (hev.part hn hnty hno (by omega) hm₂ hposition₂ hframes (by omega) (by omega)).imp ?_
      rintro v m₃ ⟨hv, hm₃, hposition₃⟩
      rw [hbranches] at hv
      exact hm₃.done hv (by omega)
  | @call line f args hargs haccepts =>
    simp only [Expr.codeAt, List.length_cons] at hcode hbound hfirst ⊢
    obtain ⟨rfl, -⟩ := List.cons.inj hfirst
    cases href : f.takesReference with
    | true =>
      obtain ⟨target, rfl⟩ := haccepts.reference href
      have htarget : target.Typed Γ := by
        cases hargs (.load target) (by simp) with
        | load htarget => exact htarget
      rw [evalFetched_call_reference f.ofName?_name href]
      exact callByReference_attempts hlaws href htarget (haccepts.reference_int href) hcode.2.1
        hposition hframes (by omega) rfl
    | false =>
      rw [evalFetched_call f.ofName?_name href, collectArgs_eq (room_of_params haccepts.length_le)]
      refine (evalArgs_attempts hev hargs (fun arg harg => haccepts.arg_leaf harg) hcode.2
        (by omega) hm hposition hframes (by omega) (by omega)).andThen ?_
      rintro values m₁ ⟨hvalues, hm₁, hposition₁⟩
      exact callWithValues_attempts hhost hlaws haccepts href hvalues hm₁ (by omega)

/-- **Expressions** come to an end in as many rounds as they have instructions. -/
theorem eval_attempts (hhost : host.Orderly) (hlaws : Lawful host Γ frames V Q) (fuel : Nat) :
    EvalAttempts code Γ frames V Q fuel (eval host code fuel) := by
  induction fuel with
  | zero =>
    intro e p m _ _ hbound
    have hpos := e.codeAt_pos p
    omega
  | succ fuel ih =>
    intro e p m he hcode hbound hposition hframes
    cases hfirst : e.codeAt p with
    | nil => exact absurd hfirst (List.ne_nil_of_length_pos (e.codeAt_pos p))
    | cons i rest =>
      have hi : code[p]? = some i := by
        rw [hfirst] at hcode
        exact hcode.1
      have hpos := e.codeAt_pos p
      rw [eval_succ, ← hfirst]
      refine (fetch_attempts hposition hi (Nat.le_refl p) (by omega)).andThen ?_
      rintro j m₁ ⟨rfl, hm₁, hposition₁⟩
      refine ((evalFetched_attempts hhost hlaws ih he hcode hbound hfirst hposition₁
        (hm₁.frames.trans hframes)).rebase hm₁ (Nat.le_refl p) (Nat.le_refl _)).imp ?_
      exact fun v m' hdone => hdone.rebase hm₁

end Machine

end BindScript
