/-
**What elaboration leaves behind.**

In a text, numbers of different types may meet, and arguments may be left out.  In the tree of an
accepted text nothing of this is left.  The operands of an operator and the branches of a choice
have one type, a condition is a truth value, and a value has the type of the variable that takes it:
where the text has another one, the tree has a call that converts it.  Every other call was written,
and has its arguments in number and type as the catalog asks for them.

Main results:

* `accepted_elaborated` — **accepted programs, expressions and bindings are elaborated**.
-/

import BindScript.Proofs.Effects.Atomic
import BindScript.Proofs.Parser.Calls

namespace BindScript

/-! ### Elaborated trees -/

/-- The arguments of a call have the types of the parameters in their places, and all of them are
there. Only `Concat` may go without the last of its ten, down to two; then the last one is no empty
string. -/
structure Builtin.Complete (f : Builtin) (args : List Expr) : Prop where
  types : args.map Expr.ty = (f.signature.params.map Param.ty).take args.length
  all : f ≠ .concat → args.length = f.signature.params.length
  concat : f = .concat → 2 ≤ args.length ∧ args.length ≤ 10 ∧
    ∀ last, args.getLast? = some last → last.isEmptyString = true → args.length = 2

/-- What is asked of an expression at its root: the types of its parts fit together without a
conversion, and a call is complete. A call that is none of the two conversions stands in the
text. -/
def Expr.Elaborated (T : List Token.Located) : Expr → Prop
  | .literal _ _ | .load _ | .host _ _ => True
  | .negate _ logical operand =>
    if logical then operand.ty = .bool else operand.ty = .int ∨ operand.ty = .float
  | .binary _ op ty left right =>
    left.ty = right.ty ∧ ty = op.infer left.ty right.ty ∧ ty ≠ .void
  | .select _ ty condition yes no =>
    condition.ty = .bool ∧ yes.ty = ty ∧ no.ty = ty ∧ ty ≠ .void
  | .call line f ty args =>
    ty = f.signature.ret ∧ f.Complete args ∧
      (f = .intToFloat → ∃ e, args = [e] ∧ e.ty = .int) ∧
      (f = .floatToInt → ∃ e, args = [e] ∧ e.ty = .float) ∧
      (f.IsConversion ∨ ∃ t ∈ T, t.token = .ident f.name ∧ t.line = line)

/-- A condition is a truth value, and a value has the type of the variable that takes it. -/
def Stmt.Fits : Stmt → Prop
  | .branch _ condition _ _ | .loop _ condition _ => condition.ty = .bool
  | .declare _ _ ty (some init) => init.ty = ty
  | .assign _ target value => value.ty = target.ty
  | .block _ _ | .declare _ _ _ none | .perform _ => True

/-- What is asked of a statement, the blocks in it apart. -/
structure Stmt.Elaborated (T : List Token.Located) (s : Stmt) : Prop where
  fits : s.Fits
  expressions : ∀ e ∈ s.expressions, e.Each (Expr.Elaborated T)

/-! ### Typed expressions -/

variable {args : List Expr}

/-- If no empty string at the end could be left out, there is one only among those that have to be
there. -/
theorem Expr.length_of_last_empty {keep : Nat} {last : Expr} (hlen : keep ≤ args.length)
    (htrimmed : dropEmptyStrings keep args = args) (hlast : args.getLast? = some last)
    (hempty : last.isEmptyString = true) : args.length = keep := by
  obtain ⟨init, rfl⟩ := List.getLast?_eq_some_iff.1 hlast
  by_contra hne
  -- the last one is not among those that are kept, so it would have been dropped
  have hinit : keep ≤ init.length := by
    rw [List.length_append, List.length_singleton] at hlen hne
    omega
  have hdrop : dropEmptyStrings keep (init ++ [last]) = dropEmptyStrings keep init :=
    dropEmptyStrings_append hinit (by simpa using hempty)
  obtain ⟨n, -, -, htake⟩ := dropEmptyStrings_eq_take hinit
  have hlength := congrArg List.length (htrimmed.symm.trans (hdrop.trans htake))
  rw [List.length_append, List.length_singleton, List.length_take] at hlength
  omega

theorem Builtin.Accepts.complete {f : Builtin} (h : f.Accepts args)
    (htrimmed : f = .concat → Expr.dropEmptyStrings f.signature.required args = args) :
    f.Complete args := by
  refine ⟨?_, h.all, ?_⟩
  · rw [← List.map_take, ← List.forall₂_eq_eq_eq, List.forall₂_map_left_iff,
      List.forall₂_map_right_iff]
    exact h.types
  · rintro rfl
    refine ⟨h.enough, h.length_le, ?_⟩
    intro last hlast hempty
    exact Expr.length_of_last_empty h.enough (htrimmed rfl) hlast hempty

/-- A function of one parameter is called with one argument, of the type of the parameter. -/
theorem Builtin.Complete.single {f : Builtin} {ty : Ty} (h : f.Complete args) (hne : f ≠ .concat)
    (hparams : f.signature.params.map Param.ty = [ty]) : ∃ e, args = [e] ∧ e.ty = ty := by
  have hlength : args.length = 1 := by
    rw [h.all hne, ← List.length_map Param.ty, hparams, List.length_singleton]
  obtain ⟨e, rfl⟩ := List.length_eq_one_iff.1 hlength
  refine ⟨e, rfl, ?_⟩
  have htypes := h.types
  rw [hparams] at htypes
  simpa using htypes

namespace Expr

variable {Γ : Scopes} {T : List Token.Located} {e x : Expr}

theorem Typed.of_occursIn (hx : x.OccursIn e) (h : e.Typed Γ) : x.Typed Γ := by
  induction hx with
  | self => exact h
  | part hpart _ ih => exact ih (h.parts _ hpart).1

/-- The operands of an operator that is accepted have one type. -/
theorem operands_ty_eq {op : Operator} {a b : Ty} (h : op.infer a b ≠ .void) : a = b := by
  rcases Operator.infer_cases h with
    ⟨-, rfl, -⟩ | ⟨-, rfl, rfl, -⟩ | ⟨-, rfl, rfl, -⟩ | ⟨-, -, rfl, -⟩
  · rfl
  · rfl
  · rfl
  · rfl

theorem Typed.elaborated_root (h : e.Typed Γ) (hsourced : e.Sourced T) : e.Elaborated T := by
  cases h with
  | literal _ => trivial
  | load _ => trivial
  | host => trivial
  | @negate _ logical operand _ hop =>
    cases logical with
    | true => exact hop
    | false =>
      have hnumeric : operand.ty.isNumeric = true := hop
      show operand.ty = .int ∨ operand.ty = .float
      cases hty : operand.ty with
      | int => exact .inl rfl
      | float => exact .inr rfl
      | _ => simp [hty, Ty.isNumeric] at hnumeric
  | binary _ _ hne => exact ⟨operands_ty_eq hne, rfl, hne⟩
  | select _ hc _ _ heq hne => exact ⟨hc, rfl, heq, hne⟩
  | call _ haccepts =>
    obtain ⟨horigin, htrimmed⟩ := hsourced
    have hcomplete := haccepts.complete htrimmed
    refine ⟨rfl, hcomplete, ?_, ?_, horigin⟩
    · rintro rfl
      exact hcomplete.single (by simp) rfl
    · rintro rfl
      exact hcomplete.single (by simp) rfl

theorem Typed.elaborated (h : e.Typed Γ) (hsourced : e.Each (Sourced T)) :
    e.Each (Expr.Elaborated T) := by
  intro x hx
  exact (Typed.of_occursIn hx h).elaborated_root (hsourced x hx)

end Expr

/-! ### Typed statements -/

section Statements

variable {Γ Γ' : Scopes} {fresh : Prop} {s : Stmt} {b : Block}

theorem TypedAll.of_mem {ss : List Stmt} (h : TypedAll fresh Γ ss Γ') (hs : s ∈ ss) :
    ∃ Δ Δ', Stmt.Typed fresh Δ s Δ' := by
  induction h using TypedAll.induct with
  | nil => cases hs
  | cons hhead _ ih =>
    rcases List.mem_cons.1 hs with rfl | hs
    · exact ⟨_, _, hhead⟩
    · exact ih hs
  | record _ _ _ _ ih => exact ih hs

theorem Block.Typed.statements (h : Block.Typed fresh Γ b) :
    ∃ Δ Δ', TypedAll fresh Δ b.statements Δ' := by
  cases h with
  | mk hss => exact ⟨_, _, hss⟩

theorem Stmt.Typed.blocks (h : Stmt.Typed fresh Γ s Γ') :
    ∀ b ∈ s.blocks, Block.Typed fresh Γ b := by
  intro b hb
  cases h with
  | branch _ _ hyes =>
    obtain rfl := List.mem_singleton.1 hb
    exact hyes
  | branchElse _ _ hyes hno =>
    rcases List.mem_cons.1 hb with rfl | hb
    · exact hyes
    · obtain rfl := List.mem_singleton.1 hb
      exact hno
  | loop _ _ hbody =>
    obtain rfl := List.mem_singleton.1 hb
    exact hbody
  | block hbody =>
    obtain rfl := List.mem_singleton.1 hb
    exact hbody
  | declare _ | declareInit _ _ _ _ | assign _ _ _ _ | perform _ => exact absurd hb List.not_mem_nil

/-- All statements that stand in a block of typed statements are typed. -/
theorem TypedAll.of_occursIn (hs : s.OccursIn b) (h : TypedAll fresh Γ b.statements Γ') :
    ∃ Δ Δ', Stmt.Typed fresh Δ s Δ' := by
  -- each block on the way down has its own scopes
  induction hs generalizing Γ Γ' with
  | here hmem => exact h.of_mem hmem
  | inside hmem hblock _ ih =>
    obtain ⟨Δ, Δ', houter⟩ := h.of_mem hmem
    obtain ⟨Θ, Θ', hinner⟩ := (houter.blocks _ hblock).statements
    exact ih hinner

/-- A statement with one expression is elaborated if that one is typed. -/
theorem Stmt.Elaborated.of_single {T : List Token.Located} {e : Expr}
    (hsingle : s.expressions = [e]) (htyped : e.Typed Γ) (hsourced : s.Sourced T) (hfits : s.Fits) :
    s.Elaborated T := by
  refine ⟨hfits, ?_⟩
  intro x hx
  obtain rfl : x = e := by
    rw [hsingle] at hx
    exact List.mem_singleton.1 hx
  exact htyped.elaborated (hsourced x hx)

theorem Stmt.Typed.elaborated {T : List Token.Located} (h : Stmt.Typed fresh Γ s Γ')
    (hsourced : s.Sourced T) : s.Elaborated T := by
  cases h with
  | branch hc hty _ | branchElse hc hty _ _ | loop hc hty _ => exact .of_single rfl hc hsourced hty
  | block _ => exact ⟨trivial, by simp [Stmt.expressions]⟩
  | declare _ => exact ⟨trivial, by simp [Stmt.expressions]⟩
  | declareInit hinit hty _ _ => exact .of_single rfl hinit hsourced hty
  | assign _ hvalue hty _ => exact .of_single rfl hvalue hsourced hty
  | perform hcall => exact .of_single rfl hcall hsourced trivial

end Statements

/-- **Accepted texts are elaborated.** Every statement of an accepted program, however deep it
stands, fits its values and conditions, and all expressions of the program, of an accepted
expression and of accepted bindings are elaborated at every node. -/
theorem accepted_elaborated :
    (∀ (source : String) (globals : Globals) (root : Block),
      parseProgram source globals = .ok root →
      ∀ s : Stmt, s.OccursIn root → s.Elaborated (TokenRun.ofText source).tokens) ∧
    (∀ (source : String) (e : Expr), parseExpression source = .ok e →
      e.Each (Expr.Elaborated (TokenRun.ofText source).tokens)) ∧
    ∀ (source : String) (trees : Bindings Expr), parseBindings source = .ok trees →
      ∀ e ∈ trees.codes, e.Each (Expr.Elaborated (TokenRun.ofText source).tokens) := by
  refine ⟨?_, ?_, ?_⟩
  · intro source globals root hparse s hs
    obtain ⟨slots, -, htyped⟩ := parseProgram_typed hparse
    obtain ⟨Γ, Γ', hstmt⟩ := TypedAll.of_occursIn hs htyped
    exact hstmt.elaborated (parseProgram_sourced hparse s hs)
  · intro source e hparse
    exact (parseExpression_typed hparse).elaborated (parseExpression_sourced hparse)
  · intro source trees hparse e he
    exact (parseBindings_typed hparse e he).elaborated (parseBindings_sourced hparse e he)

/-- An integer variable takes a sum that has a widened number on its left. -/
def Stmt.takesMixedSum : Stmt → Bool
  | .assign _ ⟨_, _, _, .int⟩
      (.call _ .floatToInt _ [.binary _ .add .float (.call _ .intToFloat _ _) _]) => true
  | _ => false

/-- In a loop a number is widened for a sum, and the sum narrowed for its variable.  A `Concat`
keeps one of two empty strings, and a binding converts as a program does. -/
theorem accepted_elaborated_mixed :
    (∃ (root : Block) (s : Stmt),
      parseProgram "int i = 0; while i < 2.5 { i = i + 0.5; }" [] = .ok root ∧
      s.OccursIn root ∧ s.takesMixedSum = true ∧
      s.Elaborated (TokenRun.ofText "int i = 0; while i < 2.5 { i = i + 0.5; }").tokens) ∧
    (∃ e, parseExpression "Concat('a', '', '')" = .ok e ∧ e.parts.length = 2 ∧
      e.Each (Expr.Elaborated (TokenRun.ofText "Concat('a', '', '')").tokens)) ∧
    ∃ trees e, parseBindings "visible: { 1 < 2.5 }" = .ok trees ∧ e ∈ trees.codes ∧
      e.Each (Expr.Elaborated (TokenRun.ofText "visible: { 1 < 2.5 }").tokens) := by
  obtain ⟨hprogram, hexpression, hbindings⟩ := accepted_elaborated
  refine ⟨?_, ?_, ?_⟩
  · obtain ⟨root, hparse, loop, hloop, body, hbody, s, hs, hsum⟩ :
        ∃ root, parseProgram "int i = 0; while i < 2.5 { i = i + 0.5; }" [] = .ok root ∧
          ∃ loop ∈ root.statements, ∃ body ∈ loop.blocks, ∃ s ∈ body.statements,
            s.takesMixedSum = true := by
      decide +kernel
    have hoccurs : s.OccursIn root := .inside hloop hbody (.here hs)
    exact ⟨root, s, hparse, hoccurs, hsum, hprogram _ _ root hparse s hoccurs⟩
  · obtain ⟨e, hparse, hlength⟩ :
        ∃ e, parseExpression "Concat('a', '', '')" = .ok e ∧ e.parts.length = 2 := by
      decide +kernel
    exact ⟨e, hparse, hlength, hexpression _ e hparse⟩
  · obtain ⟨trees, hparse, e, he, -⟩ :
        ∃ trees, parseBindings "visible: { 1 < 2.5 }" = .ok trees ∧ ∃ e ∈ trees.codes, True := by
      decide +kernel
    exact ⟨trees, e, hparse, he, hbindings _ trees hparse e he⟩

end BindScript
