/-
**Operations keep to their types.**

On values of the types that the type rules ask for, every operator and every function of the catalog
gives a value of the type that the rules promise, or fails with one of few errors: a division by
zero, an overflow, an argument that is of the right type but out of range, or a function that only a
host has.

Main results:

* `Builtin.call_gives` — **the functions of the catalog**.
-/

import BindScript.Builtin.Call
import BindScript.Proofs.Typing
import BindScript.Value.Arithmetic

namespace BindScript

/-- The errors that a program can meet although it was accepted. Only names of the host and
functions that only a host has are not supported. -/
def RuntimeError.Expected : RuntimeError → Prop
  | .divisionByZero | .overflow _ | .invalidArgument _ _ => True
  | .unsupported name => (∃ n, name = "@" ++ n) ∨ ∃ f : Builtin, f.needsHost = true ∧ name = f.name
  | _ => False

/-- The result is a value of the type, or an expected error. -/
def Gives (ty : Ty) : Except RuntimeError Value → Prop
  | .ok v => v.ty = ty
  | .error e => e.Expected

theorem Ty.ne_record_of_negate {ty : Ty} {logical : Bool}
    (h : if logical then ty = .bool else ty.isNumeric = true) (record : String) :
    ty ≠ .record record := by
  rintro rfl
  cases logical <;> simp [Ty.isNumeric] at h

/-! ### Canonical forms -/

namespace Value

variable {v : Value}

theorem eq_int_of_ty (h : v.ty = .int) : ∃ n, v = .int n := by
  cases v with
  | int n => exact ⟨n, rfl⟩
  | _ => simp [ty] at h

theorem eq_float_of_ty (h : v.ty = .float) : ∃ x, v = .float x := by
  cases v with
  | float x => exact ⟨x, rfl⟩
  | _ => simp [ty] at h

theorem eq_string_of_ty (h : v.ty = .string) : ∃ s, v = .string s := by
  cases v with
  | string s => exact ⟨s, rfl⟩
  | _ => simp [ty] at h

theorem eq_bool_of_ty (h : v.ty = .bool) : ∃ b, v = .bool b := by
  cases v with
  | bool b => exact ⟨b, rfl⟩
  | _ => simp [ty] at h

/-! ### Operators -/

theorem checkedInt_gives (operation : String) (n : Int) : Gives .int (checkedInt operation n) := by
  unfold checkedInt
  split
  · rfl
  · exact True.intro

theorem negate_gives {logical : Bool}
    (h : if logical then v.ty = .bool else v.ty.isNumeric = true) :
    Gives v.ty (v.negate logical) := by
  cases logical with
  | true =>
    obtain ⟨b, rfl⟩ := eq_bool_of_ty h
    rfl
  | false =>
    cases v with
    | int n => exact checkedInt_gives _ _
    | float x => rfl
    | _ => simp [ty, Ty.isNumeric] at h

/-- The operand of a negation tells which one is meant. -/
theorem negateAny_eq {logical : Bool}
    (h : if logical then v.ty = .bool else v.ty.isNumeric = true) :
    v.negateAny = v.negate logical := by
  cases logical with
  | true =>
    obtain ⟨b, rfl⟩ := eq_bool_of_ty h
    rfl
  | false =>
    cases v with
    | int n => rfl
    | float x => rfl
    | _ => simp [ty, Ty.isNumeric] at h

theorem intArithmetic_gives (op : Operator) (m n : Int) : Gives .int (intArithmetic op m n) := by
  unfold intArithmetic
  split
  · exact checkedInt_gives _ _
  · exact checkedInt_gives _ _
  · exact checkedInt_gives _ _
  · split
    · exact True.intro
    · exact checkedInt_gives _ _

end Value

variable {op : Operator}

theorem Operator.infer_cases {a b : Ty} (h : op.infer a b ≠ .void) :
    (op.isComparison = true ∧ a = b ∧ a.isLeaf = true ∧ op.infer a b = .bool) ∨
      (op.isLogical = true ∧ a = .bool ∧ b = .bool ∧ op.infer a b = .bool) ∨
      (op = .add ∧ a = .string ∧ b = .string ∧ op.infer a b = .string) ∨
      (op.isComparison = false ∧ op.isLogical = false ∧ a = b ∧ a.isNumeric = true ∧
        op.infer a b = a) := by
  cases hop : op.isComparison with
  | true =>
    left
    unfold infer at h ⊢
    rw [if_pos hop] at h ⊢
    cases a <;> cases b <;> simp_all [Ty.isLeaf]
  | false =>
    right
    unfold infer at h ⊢
    rw [if_neg (by simp [hop])] at h ⊢
    split at h <;> simp_all [isLogical, Ty.isNumeric]

theorem Operator.operands_ne_record {a b : Ty} (h : op.infer a b ≠ .void) :
    (∀ record, a ≠ .record record) ∧ (∀ record, b ≠ .record record) ∧
      ∀ record, op.infer a b ≠ .record record := by
  rcases Operator.infer_cases h with
    ⟨-, rfl, hleaf, heq⟩ | ⟨-, rfl, rfl, heq⟩ | ⟨-, rfl, rfl, heq⟩ |
    ⟨-, -, rfl, hnum, heq⟩
  · exact ⟨Ty.ne_record hleaf, Ty.ne_record hleaf, by simp [heq]⟩
  · exact ⟨by simp, by simp, by simp [heq]⟩
  · exact ⟨by simp, by simp, by simp [heq]⟩
  · have ha : ∀ record, a ≠ .record record := by
      rintro record rfl
      simp [Ty.isNumeric] at hnum
    exact ⟨ha, ha, by rw [heq]; exact ha⟩

namespace Value

variable {l r : Value}

/-- Two values of one leaf type have an order, unless they are doubles that are no numbers. -/
theorem ordering?_isSome (hty : l.ty = r.ty) (hleaf : l.ty.isLeaf = true) :
    (ordering? l r).isSome = true := by
  cases l with
  | void => simp [ty, Ty.isLeaf] at hleaf
  | null => simp [ty, Ty.isLeaf] at hleaf
  | record leaves => simp [ty, Ty.isLeaf] at hleaf
  | int m =>
    obtain ⟨n, rfl⟩ := eq_int_of_ty hty.symm
    rfl
  | float x =>
    obtain ⟨y, rfl⟩ := eq_float_of_ty hty.symm
    rfl
  | string s =>
    obtain ⟨t, rfl⟩ := eq_string_of_ty hty.symm
    rfl
  | bool b =>
    obtain ⟨c, rfl⟩ := eq_bool_of_ty hty.symm
    rfl

theorem compare_gives (op : Operator) (hty : l.ty = r.ty) (hleaf : l.ty.isLeaf = true) :
    Gives .bool (compare op l r) := by
  obtain ⟨o, ho⟩ := Option.isSome_iff_exists.1 (ordering?_isSome hty hleaf)
  unfold compare
  rw [ho]
  cases o <;> rfl

theorem binary_gives (h : op.infer l.ty r.ty ≠ .void) :
    Gives (op.infer l.ty r.ty) (binary op l r) := by
  rcases Operator.infer_cases h with ⟨hop, hty, hleaf, heq⟩ | ⟨hop, hl, hr, heq⟩ |
    ⟨rfl, hl, hr, heq⟩ | ⟨hcmp, hlog, hty, hnum, heq⟩
  · rw [heq]
    cases op with
    | eq => rfl
    | ne => rfl
    | gt | lt | ge | le => exact compare_gives _ hty hleaf
    | _ => simp [Operator.isComparison] at hop
  · rw [heq]
    obtain ⟨b, rfl⟩ := eq_bool_of_ty hl
    obtain ⟨c, rfl⟩ := eq_bool_of_ty hr
    cases op with
    | and => rfl
    | or => rfl
    | _ => simp [Operator.isLogical] at hop
  · rw [heq]
    obtain ⟨s, rfl⟩ := eq_string_of_ty hl
    obtain ⟨t, rfl⟩ := eq_string_of_ty hr
    rfl
  · rw [heq]
    have hbinary : binary op l r = arithmetic op l r := by
      cases op <;> simp_all [Operator.isComparison, Operator.isLogical, binary]
    rw [hbinary]
    cases l with
    | int m =>
      obtain ⟨n, rfl⟩ := eq_int_of_ty hty.symm
      exact intArithmetic_gives _ _ _
    | float x =>
      obtain ⟨y, rfl⟩ := eq_float_of_ty hty.symm
      rfl
    | _ => simp [ty, Ty.isNumeric] at hnum

end Value

/-! ### Functions -/

namespace Builtin

variable {f : Builtin} {args : List Value} {tys : List Ty} {ty : Ty}

theorem exists_cons_of_types (h : args.map Value.ty = ty :: tys) :
    ∃ v rest, args = v :: rest ∧ v.ty = ty ∧ rest.map Value.ty = tys := by
  cases args with
  | nil => simp at h
  | cons v rest =>
    rw [List.map_cons, List.cons.injEq] at h
    exact ⟨v, rest, rfl, h.1, h.2⟩

theorem takeInt_eq (f : Builtin) (h : args.map Value.ty = .int :: tys) :
    ∃ n rest, f.takeInt args = .ok (n, rest) ∧ rest.map Value.ty = tys := by
  obtain ⟨v, rest, rfl, hv, hrest⟩ := exists_cons_of_types h
  obtain ⟨n, rfl⟩ := Value.eq_int_of_ty hv
  exact ⟨n, rest, rfl, hrest⟩

theorem takeFloat_eq (f : Builtin) (h : args.map Value.ty = .float :: tys) :
    ∃ x rest, f.takeFloat args = .ok (x, rest) ∧ rest.map Value.ty = tys := by
  obtain ⟨v, rest, rfl, hv, hrest⟩ := exists_cons_of_types h
  obtain ⟨x, rfl⟩ := Value.eq_float_of_ty hv
  exact ⟨x, rest, rfl, hrest⟩

theorem takeString_eq (f : Builtin) (h : args.map Value.ty = .string :: tys) :
    ∃ s rest, f.takeString args = .ok (s, rest) ∧ rest.map Value.ty = tys := by
  obtain ⟨v, rest, rfl, hv, hrest⟩ := exists_cons_of_types h
  obtain ⟨s, rfl⟩ := Value.eq_string_of_ty hv
  exact ⟨s, rest, rfl, hrest⟩

theorem takeBool_eq (f : Builtin) (h : args.map Value.ty = .bool :: tys) :
    ∃ b rest, f.takeBool args = .ok (b, rest) ∧ rest.map Value.ty = tys := by
  obtain ⟨v, rest, rfl, hv, hrest⟩ := exists_cons_of_types h
  obtain ⟨b, rfl⟩ := Value.eq_bool_of_ty hv
  exact ⟨b, rest, rfl, hrest⟩

theorem onFloat_gives {g : Float → Except RuntimeError Value}
    (h : args.map Value.ty = .float :: tys) (hg : ∀ x, Gives ty (g x)) :
    Gives ty (f.onFloat args g) := by
  obtain ⟨x, rest, htake, -⟩ := takeFloat_eq f h
  rw [onFloat, htake]
  exact hg x

theorem onInt_gives {g : Int64 → Except RuntimeError Value} (h : args.map Value.ty = .int :: tys)
    (hg : ∀ n, Gives ty (g n)) : Gives ty (f.onInt args g) := by
  obtain ⟨n, rest, htake, -⟩ := takeInt_eq f h
  rw [onInt, htake]
  exact hg n

theorem onString_gives {g : String → Except RuntimeError Value}
    (h : args.map Value.ty = .string :: tys) (hg : ∀ s, Gives ty (g s)) :
    Gives ty (f.onString args g) := by
  obtain ⟨s, rest, htake, -⟩ := takeString_eq f h
  rw [onString, htake]
  exact hg s

theorem roundBy_gives (f : Builtin) (mode : Decimal.Rounding) (x : Float) :
    Gives .int (f.roundBy mode x) := by
  unfold roundBy
  split
  · rfl
  · exact True.intro

theorem stringToInt_gives (s : String) : Gives .int (stringToInt s) := by
  unfold stringToInt
  split
  · rfl
  · exact True.intro

theorem character_gives (code : Int) : Gives .string (character code) := by
  unfold character
  split
  · rfl
  · exact True.intro

theorem joinStrings_eq (h : ∀ ty ∈ args.map Value.ty, ty = .string) :
    ∃ s, joinStrings args = .ok s := by
  induction args with
  | nil => exact ⟨"", rfl⟩
  | cons v rest ih =>
    rw [List.map_cons, List.forall_mem_cons] at h
    obtain ⟨s, rfl⟩ := Value.eq_string_of_ty h.1
    obtain ⟨t, ht⟩ := ih h.2
    exact ⟨s ++ t, by rw [joinStrings, ht]; rfl⟩

/-- The types of arguments that a function can be called with: those of its parameters, of which
only `Concat` may go without the last ones. -/
def Takes (f : Builtin) (tys : List Ty) : Prop :=
  tys = (f.signature.params.take tys.length).map (·.ty) ∧
    (f ≠ .concat → tys.length = f.signature.params.length)

theorem Takes.eq_params (h : f.Takes tys) (hf : f ≠ .concat) :
    tys = f.signature.params.map (·.ty) := by
  have htypes := h.1
  rwa [h.2 hf, List.take_length] at htypes

theorem Takes.all_strings (h : Takes .concat tys) : ∀ ty ∈ tys, ty = .string := by
  intro ty hty
  rw [h.1] at hty
  obtain ⟨p, hp, rfl⟩ := List.mem_map.1 hty
  have hmem := List.mem_of_mem_take hp
  simp only [signature, List.mem_append, List.mem_replicate] at hmem
  rcases hmem with ⟨-, rfl⟩ | ⟨-, rfl⟩ <;> rfl

/-- Accepted arguments have the types that the function can be called with. -/
theorem Accepts.takes {args : List Expr} (h : f.Accepts args) : f.Takes (args.map Expr.ty) := by
  have htypes : ∀ {es : List Expr} {ps : List Param},
      List.Forall₂ (fun arg p => Expr.ty arg = Param.ty p) es ps →
      es.map Expr.ty = ps.map (·.ty) := by
    intro es ps hes
    induction hes with
    | nil => rfl
    | cons hhead _ ih => rw [List.map_cons, List.map_cons, hhead, ih]
  refine ⟨?_, ?_⟩
  · rw [List.length_map]
    exact htypes h.types
  · intro hf
    rw [List.length_map]
    exact h.all hf

theorem params_leaf (f : Builtin) : f.signature.params.all (fun p => p.ty.isLeaf) = true := by
  cases f <;> decide

theorem ret_ne_record (f : Builtin) (record : String) : f.signature.ret ≠ .record record := by
  cases f <;> simp [signature, Signature.plain]

theorem Accepts.arg_leaf {args : List Expr} (h : f.Accepts args) {arg : Expr} (harg : arg ∈ args) :
    arg.ty.isLeaf = true := by
  have hty : arg.ty ∈ args.map Expr.ty := List.mem_map_of_mem harg
  rw [h.takes.1] at hty
  obtain ⟨p, hp, heq⟩ := List.mem_map.1 hty
  rw [← heq]
  exact List.all_eq_true.1 f.params_leaf p (List.mem_of_mem_take hp)

theorem Accepts.reference_int {p : Place} (h : f.Accepts [.load p])
    (href : f.takesReference = true) :
    p.ty = .int := by
  have htypes := h.takes.1
  cases f with
  | inc => exact (List.cons.inj htypes).1
  | dec => exact (List.cons.inj htypes).1
  | _ => cases href

/-- Functions of their arguments alone keep to their types; those that only a host has are not
supported. -/
theorem compute_gives (htypes : f.Takes (args.map Value.ty)) (href : f.takesReference = false)
    (heffect : f ≠ .write ∧ f ≠ .writeLn ∧ f ≠ .random) :
    Gives f.signature.ret (f.compute args) := by
  -- `Concat` is the only function with any number of arguments
  by_cases hconcat : f = .concat
  · subst hconcat
    obtain ⟨s, hs⟩ := joinStrings_eq htypes.all_strings
    rw [compute, hs]
    rfl
  have hargs := htypes.eq_params hconcat
  unfold compute
  cases f with
  | round | floor | ceil | floatToInt => exact onFloat_gives hargs fun x => roundBy_gives _ _ x
  | frac => exact onFloat_gives hargs fun _ => rfl
  | intToFloat => exact onInt_gives hargs fun _ => rfl
  | strToInt => exact onString_gives hargs fun s => stringToInt_gives s
  | strToFloat => exact onString_gives hargs fun _ => rfl
  | intToStr => exact onInt_gives hargs fun _ => rfl
  | floatToStr => exact onFloat_gives hargs fun _ => rfl
  | boolToStr =>
    obtain ⟨b, rest, htake, -⟩ := takeBool_eq .boolToStr hargs
    simp only [htake, bind, Except.bind]
    rfl
  | strToBool | uppercase | lowercase | trim => exact onString_gives hargs fun _ => rfl
  | pos =>
    obtain ⟨haystack, rest, htake, hrest⟩ := takeString_eq .pos hargs
    obtain ⟨needle, rest', htake', hrest'⟩ := takeString_eq .pos hrest
    obtain ⟨offset, rest'', htake'', -⟩ := takeInt_eq .pos hrest'
    simp only [htake, htake', htake'', bind, Except.bind]
    rfl
  | copy =>
    obtain ⟨text, rest, htake, hrest⟩ := takeString_eq .copy hargs
    obtain ⟨start, rest', htake', hrest'⟩ := takeInt_eq .copy hrest
    obtain ⟨count, rest'', htake'', -⟩ := takeInt_eq .copy hrest'
    simp only [htake, htake', htake'', bind, Except.bind]
    rfl
  | length => exact onString_gives hargs fun _ => rfl
  | strReplace =>
    obtain ⟨search, rest, htake, hrest⟩ := takeString_eq .strReplace hargs
    obtain ⟨replacement, rest', htake', hrest'⟩ := takeString_eq .strReplace hrest
    obtain ⟨subject, rest'', htake'', -⟩ := takeString_eq .strReplace hrest'
    simp only [htake, htake', htake'', bind, Except.bind]
    rfl
  | chr => exact onInt_gives hargs fun n => character_gives n.toInt
  | ord =>
    refine onString_gives hargs fun s => ?_
    cases s.toList <;> rfl
  | concat => exact absurd rfl hconcat
  | isNumeric | isInteger | isBool => exact onString_gives hargs fun _ => rfl
  | odd => exact onFloat_gives hargs fun _ => rfl
  | random => exact absurd rfl heffect.2.2
  | inc => simp [takesReference, category] at href
  | dec => simp [takesReference, category] at href
  | write => exact absurd rfl heffect.1
  | writeLn => exact absurd rfl heffect.2.1
  | selectedOptionId => exact .inr ⟨_, rfl, rfl⟩
  | selectedOptionExtraValue => exact .inr ⟨_, rfl, rfl⟩
  | setValue => exact .inr ⟨_, rfl, rfl⟩

/-- **Functions keep to their types.** -/
theorem call_gives (htypes : f.Takes (args.map Value.ty)) (href : f.takesReference = false)
    (console : Console) : Gives f.signature.ret (f.call args console).1 := by
  by_cases heffect : f ≠ .write ∧ f ≠ .writeLn ∧ f ≠ .random
  · have hcall : f.call args console = (f.compute args, console) := by
      cases f with
      | write => exact absurd rfl heffect.1
      | writeLn => exact absurd rfl heffect.2.1
      | random => exact absurd rfl heffect.2.2
      | _ => rfl
    rw [hcall]
    exact compute_gives htypes href heffect
  · have hconcat : f ≠ .concat := by
      rintro rfl
      simp at heffect
    have hargs := htypes.eq_params hconcat
    cases f with
    | write =>
      obtain ⟨s, rest, htake, -⟩ := takeString_eq .write hargs
      simp only [call, htake]
      rfl
    | writeLn =>
      obtain ⟨s, rest, htake, -⟩ := takeString_eq .writeLn hargs
      simp only [call, htake]
      rfl
    | random =>
      obtain ⟨n, rest, htake, -⟩ := takeInt_eq .random hargs
      simp only [call, htake]
      split
      · exact True.intro
      · rfl
    | _ => simp at heffect

/-- A function that depends on its arguments alone neither looks at the console nor changes it. -/
theorem call_of_isPure (hpure : f.isPure = true) (hf : f ≠ .random) (args : List Value)
    (console : Console) : f.call args console = (f.compute args, console) := by
  cases f with
  | random => exact absurd rfl hf
  | write => simp [isPure, category] at hpure
  | writeLn => simp [isPure, category] at hpure
  | _ => rfl

end Builtin

end BindScript
