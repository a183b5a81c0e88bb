/-
**Building an expression again.**

Elaboration converts operands and fills in what was left out of a call.  An expression that has been
through it has nothing left to convert and nothing left to fill in, so building it again from its
own parts gives the same expression.

Main results:

* `Expr.mkBinary_self`, `Expr.mkSelect_self`, `Expr.mkCall_self` — **built
  again, an elaborated expression is the same**.
-/

import BindScript.Proofs.Elaboration
import Mathlib.Data.List.DropRight

namespace BindScript.Expr

/-! ### Arguments that are left out -/

variable {line : Nat} {args : List Expr}

theorem required_le_of_defaults {s : Signature} {n : Nat} {vs : List Value}
    (h : (s.params.drop n).map Param.default = vs.map some) : s.required ≤ n := by
  by_contra hlt
  have hn : n < (s.params.takeWhile fun p => p.default.isNone).length := by
    simpa [Signature.required] using hlt
  have hmem : (s.params.takeWhile fun p => p.default.isNone)[n] ∈ s.params.drop n := by
    have hstart := List.takeWhile_prefix (fun p : Param => p.default.isNone) (l := s.params)
    have hlen := hstart.length_le
    rw [hstart.getElem hn]
    exact List.mem_drop_iff_getElem.2 ⟨0, by omega, by simp⟩
  have hnone := List.all_eq_true.1 (List.all_takeWhile (p := fun p : Param => p.default.isNone)
    (l := s.params)) _ (List.getElem_mem hn)
  have hdefault : (s.params.takeWhile fun p => p.default.isNone)[n].default ∈ vs.map some := by
    rw [← h]
    exact List.mem_map_of_mem hmem
  obtain ⟨v, -, hv⟩ := List.mem_map.1 hdefault
  simp [← hv] at hnone

/-! ### Empty strings at the end -/

theorem dropEmptyStrings_append {keep : Nat} {es : List Expr} (hlen : keep ≤ args.length)
    (hes : ∀ e ∈ es, e.isEmptyString = true) :
    dropEmptyStrings keep (args ++ es) = dropEmptyStrings keep args := by
  have hreverse : ∀ e ∈ es.reverse, e.isEmptyString = true := by simpa using hes
  rw [dropEmptyStrings, List.take_append_of_le_length hlen, List.drop_append_of_le_length hlen,
    List.reverse_append, List.dropWhile_append_of_pos hreverse, dropEmptyStrings]

/-- After empty strings have been dropped there are none to drop. -/
theorem dropEmptyStrings_idem {keep : Nat} (hlen : keep ≤ args.length) :
    dropEmptyStrings keep (dropEmptyStrings keep args) = dropEmptyStrings keep args := by
  have hkeep : (args.take keep).length = keep := by
    rw [List.length_take, Nat.min_eq_left hlen]
  have hcut : ∀ rest : List Expr, dropEmptyStrings keep (args.take keep ++ rest) =
      args.take keep ++ (rest.reverse.dropWhile isEmptyString).reverse := by
    intro rest
    rw [dropEmptyStrings, List.take_left' hkeep, List.drop_left' hkeep]
  have hargs : dropEmptyStrings keep args =
      args.take keep ++ ((args.drop keep).reverse.dropWhile isEmptyString).reverse := rfl
  rw [hargs, hcut, List.reverse_reverse, List.dropWhile_idempotent]

/-! ### Calls -/

theorem isEmptyString_default {n : Nat} {vs : List Value}
    (h : (Builtin.concat.signature.params.drop n).map Param.default = vs.map some) (line : Nat) :
    ∀ e ∈ vs.map (literal line), e.isEmptyString = true := by
  have hall : ∀ p ∈ Builtin.concat.signature.params, ∀ v, p.default = some v → v = .string "" := by
    simp [Builtin.signature]
  intro e he
  obtain ⟨v, hv, rfl⟩ := List.mem_map.1 he
  obtain ⟨p, hp, hdefault⟩ := exists_default h hv
  rw [hall p hp v hdefault]
  rfl

/-- The arguments of a call that is accepted: those that were given, with the defaults of the
others, or, for `Concat`, without empty strings at the end. -/
theorem mkCall_eq {name : String} {e : Expr} (h : mkCall line name args = .ok e) :
    ∃ (f : Builtin) (vs : List Value), Builtin.ofName? name = some f ∧
      args.length ≤ f.signature.params.length ∧ f.signature.required ≤ args.length ∧
      (f.signature.params.drop args.length).map Param.default = vs.map some ∧
      e = .call line f f.signature.ret
        (if f = .concat then dropEmptyStrings f.signature.required args
          else args ++ vs.map (literal line)) := by
  obtain ⟨f, filled, hname, hmany, hfill, -, -, rfl⟩ := mkCall_iff.1 h
  obtain ⟨vs, hvs, rfl⟩ := (fillDefaults_iff hmany).1 hfill
  have hrequired := required_le_of_defaults hvs
  refine ⟨f, vs, hname, hmany, hrequired, hvs, ?_⟩
  by_cases hf : f = .concat
  · subst hf
    rw [if_pos rfl, if_pos rfl, dropEmptyStrings_append hrequired (isEmptyString_default hvs line)]
  · rw [if_neg hf, if_neg hf]

theorem checkTypes_of_forall₂ {f : Builtin} {params : List Param}
    (h : List.Forall₂ (fun arg p => arg.ty = p.ty) args params) (place : Nat) :
    checkTypes f place args params = .ok () := by
  induction h generalizing place with
  | nil => rfl
  | cons hty _ ih => rw [checkTypes, if_pos hty, ih]

/-! ### Building again -/

theorem widen_self {left right : Expr} (h : ¬(left.ty = .int ∧ right.ty = .float))
    (h' : ¬(left.ty = .float ∧ right.ty = .int)) : widen left right = (left, right) := by
  unfold widen
  split
  · rename_i hl hr
    exact absurd ⟨hl, hr⟩ h
  · rename_i hl hr
    exact absurd ⟨hl, hr⟩ h'
  · rfl

/-- The operands of an operator that fits are not converted again. -/
theorem mkBinary_self {op : Operator} {left right : Expr} (h : op.infer left.ty right.ty ≠ .void) :
    mkBinary line op left right = .binary line op (op.infer left.ty right.ty) left right := by
  by_cases hop : op.isLogical = true
  · simp only [mkBinary, if_pos hop]
  · have hwiden : widen left right = (left, right) := by
      refine widen_self ?_ ?_
      · rintro ⟨hl, hr⟩
        rw [hl, hr] at h
        exact h (by cases op <;> rfl)
      · rintro ⟨hl, hr⟩
        rw [hl, hr] at h
        exact h (by cases op <;> rfl)
    simp only [mkBinary, if_neg hop, hwiden]

/-- Two values of one type are not converted again. -/
theorem mkSelect_self {condition yes no : Expr} (h : no.ty = yes.ty) :
    mkSelect line condition yes no = .select line yes.ty condition yes no := by
  have hwiden : widen yes no = (yes, no) := by
    refine widen_self ?_ ?_ <;> rintro ⟨hy, hn⟩ <;> simp [h, hy] at hn
  simp only [mkSelect, hwiden, h, if_true]

/-- A call that has all its arguments, and, if it is a `Concat`, no empty string at the end, is
built as it is. -/
theorem mkCall_self {f : Builtin} (haccepts : f.Accepts args)
    (hreference : f.takesReference = false)
    (htrimmed : f = .concat → dropEmptyStrings f.signature.required args = args) :
    mkCall line f.name args = .ok (.call line f f.signature.ret args) := by
  have hlen := haccepts.length_le
  -- all parameters that have no argument have a default of their own type
  obtain ⟨vs, hvs, htypes⟩ : ∃ vs : List Value,
      (f.signature.params.drop args.length).map Param.default = vs.map some ∧
        List.Forall₂ (fun arg p => arg.ty = p.ty) (vs.map (literal line))
          (f.signature.params.drop args.length) := by
    by_cases hf : f = .concat
    · subst hf
      have htwo : 2 ≤ args.length := haccepts.enough
      have hdrop : Builtin.concat.signature.params.drop args.length =
          List.replicate (8 - (args.length - 2)) ⟨.string, some (.string "")⟩ := by
        simp only [Builtin.signature, List.drop_append, List.drop_replicate, List.length_replicate]
        rw [Nat.sub_eq_zero_of_le htwo, List.replicate_zero, List.nil_append]
      refine ⟨List.replicate (8 - (args.length - 2)) (.string ""), ?_, ?_⟩
      · rw [hdrop, List.map_replicate, List.map_replicate]
      · rw [hdrop, List.map_replicate]
        exact List.forall₂_iff_get.2 ⟨by simp, fun i _ _ => by simp [Expr.ty, Value.ty]⟩
    · exact ⟨[], by simp [haccepts.all hf], by simp [haccepts.all hf]⟩
  have hfill : fillDefaults line args f.signature.params = some (args ++ vs.map (literal line)) :=
    (fillDefaults_iff hlen).2 ⟨vs, hvs, rfl⟩
  have hcheck : checkTypes f 1 (args ++ vs.map (literal line)) f.signature.params = .ok () := by
    refine checkTypes_of_forall₂ ?_ 1
    have happend := List.rel_append haccepts.types htypes
    simpa only [List.take_append_drop] using happend
  refine mkCall_iff.2 ⟨f, _, f.ofName?_name, hlen, hfill, hcheck, by simp [hreference], ?_⟩
  by_cases hf : f = .concat
  · subst hf
    rw [if_pos rfl, dropEmptyStrings_append haccepts.enough (isEmptyString_default hvs line),
      htrimmed rfl]
  · have hnone : vs = [] := by
      rw [haccepts.all hf, List.drop_length] at hvs
      simpa using hvs.symm
    rw [if_neg hf, hnone, List.map_nil, List.append_nil]

end BindScript.Expr
