/-
**Elaboration gives typed expressions.**

Building an expression marks what does not fit as void and leaves the rest to the check.  So the
statement to carry along is conditional: an expression is *sound* if it is well typed as soon as it
passes the check.  Every way of building expressions keeps this.

Main results:

* `Expr.check_negate`, `Expr.check_binary`, `Expr.check_select`,
  `Expr.check_call` — what the check has found when it passes;
* `Expr.fillDefaults_iff`, `Expr.mkCall_iff` — what a call goes through to be accepted;
* `Expr.Sound.coerce`, `Expr.Sound.mkBinary`, `Expr.Sound.mkSelect`,
  `Expr.Sound.mkCall` — the ways of building expressions;
* `Expr.ty_coerce` — a converted value has the type of the variable that takes it.
-/

import BindScript.Proofs.Typing
import BindScript.Tree.Check
import BindScript.Tree.Elaborate

namespace BindScript

/-! ### What the check finds -/

variable {line : Nat} {ε α : Type} {e : Expr} {ty : Ty} {args : List Expr} {f : Builtin}
    {x : Except ε α}

theorem require_eq_ok {holds : Bool} {cause : CompileError.Cause} :
    require holds cause line = .ok () ↔ holds = true := by
  cases holds <;> simp [require]

theorem except_bind_eq_ok {β : Type} {f : α → Except ε β} {b : β} :
    (x >>= f) = .ok b ↔ ∃ a, x = .ok a ∧ f a = .ok b := by
  cases x with
  | error e => simp [bind, Except.bind]
  | ok a => simp [bind, Except.bind]

theorem except_map_eq_ok {β : Type} {f : α → β} {b : β} :
    x.map f = .ok b ↔ ∃ a, x = .ok a ∧ f a = b := by
  cases x <;> simp [Except.map]

instance decidableExistsOk {p : α → Prop} [DecidablePred p] : Decidable (∃ a, x = .ok a ∧ p a) :=
  match x with
  | .error _ => isFalse (by simp)
  | .ok a => decidable_of_iff (p a) (by simp)

instance decidableExistsSome {o : Option α} {p : α → Prop} [DecidablePred p] :
    Decidable (∃ a, o = some a ∧ p a) :=
  match o with
  | none => isFalse (by simp)
  | some a => decidable_of_iff (p a) (by simp)

theorem seq_eq_ok {x y : Except CompileError Unit} :
    (do x; y) = .ok () ↔ x = .ok () ∧ y = .ok () := by
  rw [except_bind_eq_ok]
  exact ⟨fun ⟨_, hx, hy⟩ => ⟨hx, hy⟩, fun ⟨hx, hy⟩ => ⟨(), hx, hy⟩⟩

namespace Expr

theorem check_negate {logical : Bool} (h : check (.negate line logical e) = .ok ()) :
    e.check = .ok () ∧ if logical then e.ty = .bool else e.ty.isNumeric = true := by
  simp only [check, seq_eq_ok] at h
  refine ⟨h.1, ?_⟩
  cases logical with
  | true => simpa [require_eq_ok] using h.2
  | false => simpa [require_eq_ok] using h.2

theorem check_binary {op : Operator} {left right : Expr}
    (h : check (.binary line op ty left right) = .ok ()) :
    left.check = .ok () ∧ right.check = .ok () ∧ ty ≠ .void := by
  simp only [check, seq_eq_ok, require_eq_ok] at h
  exact ⟨h.1, h.2.1, by simpa using h.2.2⟩

theorem check_select {condition yes no : Expr}
    (h : check (.select line ty condition yes no) = .ok ()) :
    condition.check = .ok () ∧ condition.ty = .bool ∧ yes.check = .ok () ∧ no.check = .ok () ∧
      ty ≠ .void := by
  simp only [check, seq_eq_ok, require_eq_ok] at h
  exact ⟨h.1, by simpa using h.2.1, h.2.2.1, h.2.2.2.1, by simpa using h.2.2.2.2⟩

theorem checkAll_eq_ok : checkAll args = .ok () ↔ ∀ arg ∈ args, arg.check = .ok () := by
  induction args with
  | nil => simp [checkAll]
  | cons arg args ih => simp [checkAll, seq_eq_ok, ih]

theorem check_call (h : check (.call line f ty args) = .ok ()) : ∀ arg ∈ args, arg.check = .ok () :=
  checkAll_eq_ok.1 h

theorem checkCondition_eq_ok {construct : String} (h : e.checkCondition construct = .ok ()) :
    e.check = .ok () ∧ e.ty = .bool := by
  simp only [checkCondition, seq_eq_ok, require_eq_ok] at h
  exact ⟨h.1, by simpa using h.2⟩

/-! ### Sound expressions -/

/-- An expression is well typed in the given scopes as soon as it passes the check. -/
def Sound (Γ : Scopes) (e : Expr) : Prop := e.check = .ok () → e.Typed Γ

variable {Γ : Scopes}

namespace Sound

theorem literal {line : Nat} {v : Value} (hv : v.isLiteral = true) : Sound Γ (.literal line v) :=
  fun _ => .literal hv

theorem negate {line : Nat} {logical : Bool} {e : Expr} (h : e.Sound Γ) :
    Sound Γ (.negate line logical e) := by
  intro hcheck
  obtain ⟨he, hty⟩ := check_negate hcheck
  exact .negate (h he) hty

end Sound

/-- The conversions take one argument each, and it has to be there. -/
theorem accepts_convert (hf : f = .intToFloat ∨ f = .floatToInt)
    (hty : ∀ p ∈ f.signature.params, e.ty = p.ty) :
    f.Accepts [e] := by
  rcases hf with rfl | rfl
  all_goals
    refine ⟨?_, Nat.le_refl 1, fun _ => rfl, fun h => absurd h (by decide)⟩
    exact .cons (hty _ (by simp [Builtin.signature, Signature.plain])) .nil

theorem Sound.convert {f : Builtin} {e : Expr} (h : e.Sound Γ)
    (hf : f = .intToFloat ∨ f = .floatToInt) (hty : ∀ p ∈ f.signature.params, e.ty = p.ty) :
    Sound Γ (convert f e) := by
  intro hcheck
  have he : e.check = .ok () := check_call hcheck e (by simp)
  refine .call ?_ (accepts_convert hf hty)
  intro arg harg
  obtain rfl : arg = e := by simpa using harg
  exact h he

theorem Sound.intToFloat {e : Expr} (h : e.Sound Γ) (hty : e.ty = .int) :
    Sound Γ (Expr.convert .intToFloat e) :=
  h.convert (.inl rfl) (by simp [Builtin.signature, Signature.plain, hty])

theorem Sound.floatToInt {e : Expr} (h : e.Sound Γ) (hty : e.ty = .float) :
    Sound Γ (Expr.convert .floatToInt e) :=
  h.convert (.inr rfl) (by simp [Builtin.signature, Signature.plain, hty])

theorem Sound.coerce {e : Expr} (h : e.Sound Γ) (target : Ty) : Sound Γ (e.coerce target) := by
  unfold Expr.coerce
  split
  · rename_i hty
    exact h.intToFloat hty
  · rename_i hty
    exact h.floatToInt hty
  · exact h

/-- A value that a variable takes after conversion has the type of the variable. -/
theorem ty_coerce {target : Ty} (h : target.assignable (e.coerce target).ty = true) :
    (e.coerce target).ty = target ∧ target ≠ .void := by
  have hcoerce : (e.coerce target).ty = e.ty ∧ ¬(e.ty = .int ∧ target = .float) ∧
      ¬(e.ty = .float ∧ target = .int) ∨ (e.coerce target).ty = target := by
    unfold Expr.coerce
    split
    · exact .inr rfl
    · exact .inr rfl
    · rename_i h₁ h₂
      exact .inl ⟨rfl, fun hc => h₁ hc.1 hc.2, fun hc => h₂ hc.1 hc.2⟩
  rcases hcoerce with ⟨hty, hif, hfi⟩ | hty
  · rw [hty] at h ⊢
    cases ht : target <;> cases he : e.ty <;> simp_all [Ty.assignable, Ty.isNumeric]
  · rw [hty] at h
    exact ⟨hty, by rintro rfl; simp [Ty.assignable, Ty.isNumeric] at h⟩

theorem Sound.widen {left right : Expr} (hl : left.Sound Γ) (hr : right.Sound Γ) :
    (widen left right).1.Sound Γ ∧ (widen left right).2.Sound Γ := by
  unfold Expr.widen
  split
  · rename_i hty _
    exact ⟨hl.intToFloat hty, hr⟩
  · rename_i _ hty
    exact ⟨hl, hr.intToFloat hty⟩
  · exact ⟨hl, hr⟩

theorem Sound.binary {line : Nat} {op : Operator} {left right : Expr} (hl : left.Sound Γ)
    (hr : right.Sound Γ) : Sound Γ (.binary line op (op.infer left.ty right.ty) left right) := by
  intro hcheck
  obtain ⟨hcl, hcr, hty⟩ := check_binary hcheck
  exact .binary (hl hcl) (hr hcr) hty

theorem Sound.mkBinary {line : Nat} {op : Operator} {left right : Expr} (hl : left.Sound Γ)
    (hr : right.Sound Γ) : Sound Γ (Expr.mkBinary line op left right) := by
  by_cases hop : op.isLogical = true
  · simp only [Expr.mkBinary, hop, if_true]
    exact hl.binary hr
  · simp only [Expr.mkBinary, if_neg hop]
    exact (hl.widen hr).1.binary (hl.widen hr).2

theorem Sound.mkSelect {line : Nat} {condition yes no : Expr} (hc : condition.Sound Γ)
    (hy : yes.Sound Γ) (hn : no.Sound Γ) : Sound Γ (Expr.mkSelect line condition yes no) := by
  obtain ⟨hy', hn'⟩ := hy.widen hn
  simp only [Expr.mkSelect]
  generalize Expr.widen yes no = w at hy' hn' ⊢
  obtain ⟨y, n⟩ := w
  intro hcheck
  obtain ⟨hcc, hcty, hcy, hcn, hty⟩ := check_select hcheck
  by_cases heq : y.ty = n.ty
  · simp only [if_pos heq] at hty ⊢
    exact .select (hc hcc) hcty (hy' hcy) (hn' hcn) heq.symm hty
  · exact absurd (if_neg heq) hty

/-! ### Calls -/

/-- Filling in puts the defaults of the last parameters behind the arguments. -/
theorem fillDefaults_iff {filled : List Expr} {params : List Param}
    (hlen : args.length ≤ params.length) :
    fillDefaults line args params = some filled ↔
      ∃ vs : List Value, (params.drop args.length).map Param.default = vs.map some ∧
        filled = args ++ vs.map (literal line) := by
  induction params generalizing args filled with
  | nil =>
    obtain rfl : args = [] := List.length_eq_zero_iff.1 (by simpa using hlen)
    constructor
    · intro h
      obtain rfl : [] = filled := by simpa [fillDefaults] using h
      exact ⟨[], rfl, rfl⟩
    · rintro ⟨vs, hvs, rfl⟩
      obtain rfl : vs = [] := by simpa using hvs
      rfl
  | cons p params ih =>
    cases args with
    | nil =>
      have hrest := fun {filled} => @ih [] filled (by simp)
      simp only [List.length_nil, List.drop_zero, List.nil_append] at hrest ⊢
      rw [fillDefaults]
      cases hp : p.default with
      | none =>
        refine iff_of_false (by simp) ?_
        rintro ⟨vs, hvs, -⟩
        cases vs <;> simp [hp] at hvs
      | some v =>
        simp only [Option.map_eq_some_iff, hrest]
        constructor
        · rintro ⟨rest, ⟨vs, hvs, rfl⟩, rfl⟩
          exact ⟨v :: vs, by simp [hp, hvs], rfl⟩
        · rintro ⟨vs, hvs, rfl⟩
          cases vs with
          | nil => simp at hvs
          | cons v' vs =>
            obtain ⟨rfl, hrest⟩ : v = v' ∧ params.map Param.default = vs.map some := by
              simpa [hp] using hvs
            exact ⟨_, ⟨vs, hrest, rfl⟩, rfl⟩
    | cons arg args =>
      have hrest := fun {filled} => @ih args filled (by simpa using hlen)
      rw [fillDefaults]
      simp only [Option.map_eq_some_iff, hrest, List.length_cons, List.drop_succ_cons,
        List.cons_append]
      constructor
      · rintro ⟨rest, ⟨vs, hvs, rfl⟩, rfl⟩
        exact ⟨vs, hvs, rfl⟩
      · rintro ⟨vs, hvs, rfl⟩
        exact ⟨_, ⟨vs, hvs, rfl⟩, rfl⟩

theorem exists_default {params : List Param} {n : Nat} {vs : List Value} {v : Value}
    (h : (params.drop n).map Param.default = vs.map some) (hv : v ∈ vs) :
    ∃ p ∈ params, p.default = some v := by
  have hmem : some v ∈ (params.drop n).map Param.default := by
    rw [h]
    exact List.mem_map_of_mem hv
  obtain ⟨p, hp, hdefault⟩ := List.mem_map.1 hmem
  exact ⟨p, List.mem_of_mem_drop hp, hdefault⟩

/-- With the defaults filled in there is an argument for every parameter, and all of them are those
that were given or literals. -/
theorem fillDefaults_eq_some {args' : List Expr} {params : List Param}
    (h : fillDefaults line args params = some args') (hlen : args.length ≤ params.length)
    (hdefault : ∀ p ∈ params, ∀ v, p.default = some v → v.isLiteral = true) :
    args'.length = params.length ∧
      ∀ arg ∈ args', arg ∈ args ∨ ∃ v, arg = .literal line v ∧ v.isLiteral = true := by
  obtain ⟨vs, hvs, rfl⟩ := (fillDefaults_iff hlen).1 h
  constructor
  · have hlength := congrArg List.length hvs
    simp only [List.length_map, List.length_drop] at hlength
    rw [List.length_append, List.length_map]
    omega
  · intro arg harg
    rcases List.mem_append.1 harg with harg | harg
    · exact .inl harg
    · obtain ⟨v, hv, rfl⟩ := List.mem_map.1 harg
      obtain ⟨p, hp, hd⟩ := exists_default hvs hv
      exact .inr ⟨v, rfl, hdefault p hp v hd⟩

theorem checkTypes_eq_ok {place : Nat} {params : List Param}
    (h : checkTypes f place args params = .ok ()) (hlen : args.length = params.length) :
    List.Forall₂ (fun arg p => arg.ty = p.ty) args params := by
  induction args generalizing place params with
  | nil =>
    obtain rfl : params = [] := List.length_eq_zero_iff.1 hlen.symm
    exact .nil
  | cons arg args ih =>
    cases params with
    | nil => simp at hlen
    | cons p params =>
      simp only [checkTypes] at h
      split at h
      · rename_i hty
        exact .cons hty (ih h (by simpa using hlen))
      · cases h

/-- What is left without the empty strings at the end is a first part of the arguments. -/
theorem dropEmptyStrings_eq_take {keep : Nat} (hlen : keep ≤ args.length) :
    ∃ n, keep ≤ n ∧ n ≤ args.length ∧ dropEmptyStrings keep args = args.take n := by
  have hfirst : ((args.drop keep).reverse.dropWhile isEmptyString).reverse <+: args.drop keep := by
    rw [← List.reverse_suffix, List.reverse_reverse]
    exact List.dropWhile_suffix _
  have hall : dropEmptyStrings keep args <+: args := by
    have := List.prefix_append_right_inj (args.take keep) |>.2 hfirst
    rwa [List.take_append_drop] at this
  refine ⟨_, ?_, hall.length_le, List.prefix_iff_eq_take.1 hall⟩
  rw [dropEmptyStrings, List.length_append, List.length_take, Nat.min_eq_left hlen]
  exact Nat.le_add_right _ _

theorem isLiteral_default (f : Builtin) :
    ∀ p ∈ f.signature.params, ∀ v, p.default = some v → v.isLiteral = true := by
  have hall : f.signature.params.all (fun p => p.default.all Value.isLiteral) = true := by
    cases f <;> rfl
  intro p hp v hv
  have := List.all_eq_true.1 hall p hp
  simpa [hv] using this

theorem params_length_of_takesReference (h : f.takesReference = true) :
    f.signature.params.length = 1 := by
  cases f with
  | inc => rfl
  | dec => rfl
  | _ => cases h

theorem reference_args (hf : f.takesReference = true)
    (hlen : args.length = f.signature.params.length)
    (hplaces : ¬(f.takesReference && args.any fun a => a.place?.isNone) = true) :
    ∃ p, args = [.load p] := by
  rw [params_length_of_takesReference hf] at hlen
  obtain ⟨arg, rfl⟩ := List.length_eq_one_iff.1 hlen
  have hplace : ¬arg.place? = none := by simpa [hf] using hplaces
  cases arg with
  | load p => exact ⟨p, rfl⟩
  | _ => simp [place?] at hplace

/-- Parameters without a default come first, so that there are no more of them than parameters. -/
theorem required_le (s : Signature) : s.required ≤ s.params.length :=
  (List.takeWhile_sublist _).length_le

/-- What a call goes through to be accepted. -/
theorem mkCall_iff {name : String} :
    mkCall line name args = .ok e ↔
      ∃ f filled, Builtin.ofName? name = some f ∧ args.length ≤ f.signature.params.length ∧
        fillDefaults line args f.signature.params = some filled ∧
        checkTypes f 1 filled f.signature.params = .ok () ∧
        ¬(f.takesReference && filled.any fun a => a.place?.isNone) = true ∧
        e = .call line f f.signature.ret
          (if f = .concat then dropEmptyStrings f.signature.required filled else filled) := by
  constructor
  · intro h
    unfold mkCall at h
    split at h
    · cases h
    rename_i f hname
    simp only at h
    split at h
    · cases h
    rename_i hmany
    split at h
    · cases h
    rename_i filled hfill
    split at h
    · cases h
    rename_i htypes
    split at h
    · cases h
    rename_i hplaces
    exact ⟨f, filled, hname, Nat.not_lt.1 hmany, hfill, htypes, hplaces, (Except.ok.inj h).symm⟩
  · rintro ⟨f, filled, hname, hmany, hfill, htypes, hplaces, rfl⟩
    unfold mkCall
    simp only [hname, if_neg (Nat.not_lt.2 hmany), hfill, htypes, if_neg hplaces]

/-- A call that is accepted: the arguments are those that were given and literals, and they fit. -/
theorem mkCall_eq_ok {name : String} (h : mkCall line name args = .ok e) :
    ∃ f args', e = .call line f f.signature.ret args' ∧ f.Accepts args' ∧
      ∀ arg ∈ args', arg ∈ args ∨ ∃ v, arg = .literal line v ∧ v.isLiteral = true := by
  obtain ⟨f, filled, -, hmany, hfill, htypes, hplaces, rfl⟩ := mkCall_iff.1 h
  obtain ⟨hlen, hmem⟩ := fillDefaults_eq_some hfill hmany (isLiteral_default f)
  have htypes := checkTypes_eq_ok htypes hlen
  refine ⟨f, _, rfl, ?_⟩
  by_cases hf : f = .concat
  · obtain ⟨n, hkeep, hn, htake⟩ :=
      dropEmptyStrings_eq_take (hlen ▸ required_le f.signature : _ ≤ filled.length)
    have hlength : (filled.take n).length = n := by
      rw [List.length_take, Nat.min_eq_left hn]
    rw [if_pos hf, htake]
    refine ⟨⟨?_, ?_, fun hne => absurd hf hne, ?_⟩,
      fun arg harg => hmem arg (List.mem_of_mem_take harg)⟩
    · rw [hlength]
      exact List.forall₂_take n htypes
    · rw [hlength]
      exact hkeep
    · intro href
      subst hf
      cases href
  · rw [if_neg hf]
    refine ⟨⟨?_, ?_, fun _ => hlen, fun href => reference_args href hlen hplaces⟩, hmem⟩
    · rw [hlen, List.take_length]
      exact htypes
    · rw [hlen]
      exact required_le f.signature

theorem Sound.mkCall {name : String} (h : Expr.mkCall line name args = .ok e)
    (hargs : ∀ arg ∈ args, arg.Sound Γ) : e.Sound Γ := by
  obtain ⟨f, args', rfl, haccepts, hmem⟩ := mkCall_eq_ok h
  intro hcheck
  refine .call ?_ haccepts
  intro arg harg
  have hok : arg.check = .ok () := check_call hcheck arg harg
  rcases hmem arg harg with hin | ⟨v, rfl, hv⟩
  · exact hargs arg hin hok
  · exact .literal hv

end Expr

end BindScript
