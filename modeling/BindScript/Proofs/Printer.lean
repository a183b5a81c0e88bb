/-
**Printing expressions.**

An expression is printed with the parentheses that the grammar needs and no others: around an
operand that stands at a lower level than its place asks for, and around a choice anywhere but at
the top and in the branches of another choice.  Conversions that were put in and defaults that were
filled in are printed like anything else.  What is printed can be parsed, and gives the same
expression, all of it on one line.

Two facts about a parsed expression are needed for that, and both hold because of how it was built:
its literals and names were read from tokens or are defaults, so they can be spelled; and a `Concat`
does not end in an empty string that would be left out again.

Main results:

* `parseExpression_render` — **parsing undoes printing**, up to line numbers.
-/

import BindScript.Proofs.Parser.Levels
import BindScript.Proofs.Rebuilding
import BindScript.Proofs.Token.Printing

namespace BindScript

/-! ### The printer -/

namespace Operator

/-- The level at which an operator stands. -/
def level : Operator → Nat
  | .and | .or => 1
  | .eq | .ne | .gt | .lt | .ge | .le => 3
  | .add | .sub => 4
  | .mul | .div => 5

/-- The level of its left operand: operators of one level are joined from the left, but comparisons
do not chain. -/
def leftLevel (op : Operator) : Nat := if op.isComparison then op.level + 1 else op.level

def mark : Operator → Mark
  | .add => .plus
  | .sub => .minus
  | .mul => .star
  | .div => .slash
  | .eq => .eqEq
  | .ne => .ne
  | .gt => .gt
  | .lt => .lt
  | .ge => .ge
  | .le => .le
  | .and => .and
  | .or => .or

end Operator

/-- The token of a literal. -/
def Value.token : Value → Token
  | .int n => .int n
  | .float x => .float x
  | .string s => .string s
  | .bool b => .bool b
  | .null => .null
  | .void | .record _ => .eof

/-- Tokens in parentheses, if these are needed. -/
def parenthesize (needed : Bool) (ts : List Token) : List Token :=
  if needed then .mark .openParen :: (ts ++ [.mark .closeParen]) else ts

namespace Expr

mutual

/-- The tokens of an expression at a place that asks for a level. A choice among the arguments of a
call needs no parentheses; `wrap` says whether it is given some. -/
def tokens (wrap : Bool) : Nat → Expr → List Token
  | _, .literal _ v => [v.token]
  | _, .load p => [.ident p.fullName]
  | _, .host _ name => [.hostName name]
  | _, .negate _ logical e => .mark (if logical then .bang else .minus) :: tokens wrap 6 e
  | k, .binary _ op _ left right =>
    parenthesize (op.level < k)
      (tokens wrap op.leftLevel left ++ .mark op.mark :: tokens wrap (op.level + 1) right)
  | k, .select _ _ condition yes no =>
    parenthesize (0 < k)
      (tokens wrap 3 condition ++
        .mark .question :: (tokens wrap 0 yes ++ .mark .colon :: tokens wrap 0 no))
  | _, .call _ f _ args => .ident f.name :: .mark .openParen :: argumentTokens wrap args

/-- The tokens of arguments, up to the closing parenthesis. -/
def argumentTokens (wrap : Bool) : List Expr → List Token
  | [] => [.mark .closeParen]
  | [e] => tokens wrap wrap.toNat e ++ [.mark .closeParen]
  | e :: es => tokens wrap wrap.toNat e ++ .mark .comma :: argumentTokens wrap es

end

def render (wrap : Bool) (e : Expr) : String := printTokens (e.tokens wrap 0)

mutual

/-- The literals and the names of the host in an expression. -/
def leaves : Expr → List Token
  | .literal _ v => [v.token]
  | .load _ => []
  | .host _ name => [.hostName name]
  | .negate _ _ e => e.leaves
  | .binary _ _ _ left right => left.leaves ++ right.leaves
  | .select _ _ condition yes no => condition.leaves ++ (yes.leaves ++ no.leaves)
  | .call _ _ _ args => leavesAll args

/-- The literals and the names of the host in expressions. -/
def leavesAll : List Expr → List Token
  | [] => []
  | e :: es => e.leaves ++ leavesAll es

end

mutual

/-- The expression with all of its parts on one line. -/
def onLine (line : Nat) : Expr → Expr
  | .literal _ v => .literal line v
  | .load p => .load { p with line }
  | .host _ name => .host line name
  | .negate _ logical e => .negate line logical (e.onLine line)
  | .binary _ op ty left right => .binary line op ty (left.onLine line) (right.onLine line)
  | .select _ ty condition yes no =>
    .select line ty (condition.onLine line) (yes.onLine line) (no.onLine line)
  | .call _ f ty args => .call line f ty (onLineAll line args)

def onLineAll (line : Nat) : List Expr → List Expr
  | [] => []
  | e :: es => e.onLine line :: onLineAll line es

end

theorem mem_leavesAll {t : Token} {args : List Expr} :
    t ∈ leavesAll args ↔ ∃ a ∈ args, t ∈ a.leaves := by
  induction args with
  | nil => simp [leavesAll]
  | cons a args ih => simp [leavesAll, ih]

theorem onLineAll_eq_map (line : Nat) (args : List Expr) :
    onLineAll line args = args.map (onLine line) := by
  induction args with
  | nil => rfl
  | cons a args ih => rw [onLineAll, List.map_cons, ih]

/-! ### Lines -/

theorem ty_onLine (line : Nat) : (e : Expr) → (e.onLine line).ty = e.ty
  | .literal _ _ | .load _ | .host _ _ | .binary _ _ _ _ _ | .select _ _ _ _ _ | .call _ _ _ _ =>
    rfl
  | .negate _ _ e => ty_onLine line e

theorem isEmptyString_onLine (line : Nat) (e : Expr) :
    (e.onLine line).isEmptyString = e.isEmptyString := by
  cases e with
  | literal _ v => cases v <;> rfl
  | _ => rfl

theorem dropEmptyStrings_onLine (line keep : Nat) (args : List Expr) :
    dropEmptyStrings keep (args.map (onLine line)) =
      (dropEmptyStrings keep args).map (onLine line) := by
  have hempty : isEmptyString ∘ onLine line = isEmptyString := funext (isEmptyString_onLine line)
  simp only [dropEmptyStrings, ← List.map_take, ← List.map_drop, ← List.map_reverse,
    List.dropWhile_map, hempty, ← List.map_append]

theorem accepts_onLine {f : Builtin} {args : List Expr} (h : f.Accepts args) (line : Nat) :
    f.Accepts (args.map (onLine line)) where
  types := by
    rw [List.length_map, List.forall₂_map_left_iff]
    exact h.types.imp fun arg p hty => (ty_onLine line arg).trans hty
  enough := by
    rw [List.length_map]
    exact h.enough
  all := by
    rw [List.length_map]
    exact h.all
  reference href := by
    obtain ⟨p, rfl⟩ := h.reference href
    exact ⟨_, rfl⟩

theorem Typed.onLine {Γ : Scopes} {e : Expr} (h : e.Typed Γ) (line : Nat) :
    (e.onLine line).Typed Γ := by
  induction h with
  | literal hv => exact .literal hv
  | load hp => exact .load hp
  | host => exact .host
  | negate _ hty ih =>
    refine .negate ih ?_
    rw [ty_onLine]
    exact hty
  | @binary _ op left right _ _ hty ihl ihr =>
    have hbinary := @Typed.binary Γ line op _ _ ihl ihr (by rwa [ty_onLine, ty_onLine])
    rwa [ty_onLine, ty_onLine] at hbinary
  | @select _ condition yes no _ hc _ _ heq hne ihc ihy ihn =>
    have hselect := @Typed.select Γ line _ _ _ ihc (by rwa [ty_onLine]) ihy ihn
      (by rwa [ty_onLine, ty_onLine]) (by rwa [ty_onLine])
    rwa [ty_onLine] at hselect
  | @call _ f args _ haccepts ih =>
    rw [Expr.onLine, onLineAll_eq_map]
    refine .call ?_ (accepts_onLine haccepts line)
    intro arg harg
    obtain ⟨a, ha, rfl⟩ := List.mem_map.1 harg
    exact ih a ha

theorem Typed.check {Γ : Scopes} {e : Expr} (h : e.Typed Γ) : e.check = .ok () := by
  induction h with
  | literal | load | host => rfl
  | @negate _ logical _ _ hty ih =>
    rw [Expr.check, seq_eq_ok]
    refine ⟨ih, ?_⟩
    cases logical with
    | true => simpa [require_eq_ok] using hty
    | false => simpa [require_eq_ok] using hty
  | binary _ _ hty ihl ihr =>
    rw [Expr.check, seq_eq_ok, seq_eq_ok, require_eq_ok]
    exact ⟨ihl, ihr, by simpa using hty⟩
  | select _ hc _ _ _ hne ihc ihy ihn =>
    simp only [Expr.check, seq_eq_ok, require_eq_ok]
    exact ⟨ihc, by simpa using hc, ihy, ihn, by simpa using hne⟩
  | call _ _ ih =>
    rw [Expr.check]
    exact checkAll_eq_ok.2 ih

/-! ### How expressions are built -/

/-- The literals and names of an expression have a property, and no `Concat` in it ends in an empty
string that would be left out. -/
inductive Built (P : Token → Prop) : Expr → Prop
  | literal {line v} : P v.token → Built P (.literal line v)
  | load {p} : Built P (.load p)
  | host {line name} : P (.hostName name) → Built P (.host line name)
  | negate {line logical e} : Built P e → Built P (.negate line logical e)
  | binary {line op ty left right} : Built P left → Built P right →
      Built P (.binary line op ty left right)
  | select {line ty condition yes no} : Built P condition → Built P yes → Built P no →
      Built P (.select line ty condition yes no)
  | call {line f ty args} : (∀ arg ∈ args, Built P arg) →
      (f = .concat → dropEmptyStrings f.signature.required args = args) →
      Built P (.call line f ty args)

variable {P : Token → Prop}

theorem Built.leaf {e : Expr} (h : e.Built P) : ∀ t ∈ e.leaves, P t := by
  induction h with
  | literal hv => simpa [leaves] using hv
  | load => simp [leaves]
  | host hname => simpa [leaves] using hname
  | negate _ ih => exact ih
  | binary _ _ ihl ihr => exact List.forall_mem_append.2 ⟨ihl, ihr⟩
  | select _ _ _ ihc ihy ihn =>
    exact List.forall_mem_append.2 ⟨ihc, List.forall_mem_append.2 ⟨ihy, ihn⟩⟩
  | call _ _ ih =>
    intro t ht
    obtain ⟨a, ha, ht⟩ := mem_leavesAll.1 ht
    exact ih a ha t ht

theorem Built.convert {f : Builtin} {e : Expr} (hf : f ≠ .concat) (h : e.Built P) :
    (Expr.convert f e).Built P := by
  refine .call ?_ fun heq => absurd heq hf
  intro arg harg
  obtain rfl : arg = e := by simpa using harg
  exact h

theorem Built.widen {left right : Expr} (hl : left.Built P) (hr : right.Built P) :
    (Expr.widen left right).1.Built P ∧ (Expr.widen left right).2.Built P := by
  unfold Expr.widen
  split
  · exact ⟨hl.convert (by decide), hr⟩
  · exact ⟨hl, hr.convert (by decide)⟩
  · exact ⟨hl, hr⟩

theorem Built.mkBinary {line : Nat} {op : Operator} {left right : Expr} (hl : left.Built P)
    (hr : right.Built P) : (Expr.mkBinary line op left right).Built P := by
  unfold Expr.mkBinary
  by_cases hop : op.isLogical = true
  · simp only [if_pos hop]
    exact .binary hl hr
  · simp only [if_neg hop]
    exact .binary (hl.widen hr).1 (hl.widen hr).2

theorem token_default {f : Builtin} {p : Param} {v : Value} (hp : p ∈ f.signature.params)
    (hv : p.default = some v) : v.token = .int 0 ∨ v.token = .string "" := by
  have hall : f.signature.params.all fun p =>
      p.default.all fun v => v.token = .int 0 ∨ v.token = .string "" := by
    cases f <;> decide
  have hdefault := List.all_eq_true.1 hall p hp
  rw [hv] at hdefault
  simpa using hdefault

theorem Built.mkCall {line : Nat} {name : String} {args : List Expr} {e : Expr}
    (h : Expr.mkCall line name args = .ok e) (hargs : ∀ arg ∈ args, arg.Built P)
    (hzero : P (.int 0)) (hempty : P (.string "")) : e.Built P := by
  obtain ⟨f, vs, -, -, hrequired, hvs, rfl⟩ := mkCall_eq h
  by_cases hf : f = .concat
  · rw [if_pos hf]
    refine .call ?_ fun _ => dropEmptyStrings_idem hrequired
    intro arg harg
    rcases List.mem_append.1 harg with harg | harg
    · exact hargs arg (List.mem_of_mem_take harg)
    · have hdrop := List.dropWhile_sublist isEmptyString |>.subset (List.mem_reverse.1 harg)
      exact hargs arg (List.mem_of_mem_drop (List.mem_reverse.1 hdrop))
  · rw [if_neg hf]
    refine .call ?_ fun heq => absurd heq hf
    intro arg harg
    rcases List.mem_append.1 harg with harg | harg
    · exact hargs arg harg
    · obtain ⟨v, hv, rfl⟩ := List.mem_map.1 harg
      obtain ⟨p, hp, hdefault⟩ := exists_default hvs hv
      rcases token_default hp hdefault with hv | hv
      · exact .literal (hv ▸ hzero)
      · exact .literal (hv ▸ hempty)

theorem token_of_value? {t : Token} {v : Value} (h : t.value? = some v) : v.token = t := by
  cases t with
  | int | float | string | bool | null =>
    cases h
    rfl
  | _ => exact nomatch h

/-- **What is read from tokens is built of them**, and of the defaults that were filled in. -/
theorem From.built {Γ : Scopes} {ts : List Token.Located} {e : Expr} (h : e.From Γ ts)
    (hts : ∀ t ∈ ts, P t.token) (hzero : P (.int 0)) (hempty : P (.string "")) : e.Built P := by
  induction h with
  | literal ht =>
    refine .literal ?_
    rw [token_of_value? ht]
    exact hts _ List.mem_cons_self
  | host ht => exact .host (ht ▸ hts _ List.mem_cons_self)
  | load _ _ _ => exact .load
  | parens _ ih =>
    refine ih fun t ht => hts t ?_
    exact List.mem_cons_of_mem _ (List.mem_append_left _ ht)
  | negate _ ih => exact .negate (ih fun t ht => hts t (List.mem_cons_of_mem _ ht))
  | binary _ _ ihl ihr =>
    obtain ⟨hls, hrs⟩ := List.forall_mem_append.1 hts
    exact (ihl hls).mkBinary (ihr (List.forall_mem_cons.1 hrs).2)
  | select _ _ _ ihc ihy ihn =>
    obtain ⟨hcs, hrest⟩ := List.forall_mem_append.1 hts
    obtain ⟨hys, hrest⟩ := List.forall_mem_append.1 (List.forall_mem_cons.1 hrest).2
    have hbranches := (ihy hys).widen (ihn (List.forall_mem_cons.1 hrest).2)
    exact .select (ihc hcs) hbranches.1 hbranches.2
  | @call t t' name more e args _ _ hcall ih =>
    refine Built.mkCall hcall ?_ hzero hempty
    intro arg harg
    obtain ⟨a, ha, rfl⟩ := List.mem_map.1 harg
    refine ih a ha fun t ht => hts t ?_
    exact List.mem_cons_of_mem
      _ (List.mem_cons_of_mem _ (List.mem_append_left _ (Argument.mem_tokensOf ha ht)))

/-! ### The grammar of what is printed -/

section Levels

variable {line : Nat}

theorem fromLevel_parenthesize {j k : Nat} {ts : List Token} {e : Expr} {needed : Bool}
    (h : FromLevel j (ts.map (Token.onLine line)) e) (hk : k ≤ 6)
    (hneeded : needed = false → k ≤ j) :
    FromLevel k ((parenthesize needed ts).map (Token.onLine line)) e := by
  cases needed with
  | false => exact h.of_le (hneeded rfl)
  | true =>
    have htokens : (parenthesize true ts).map (Token.onLine line) =
        Token.onLine line (.mark .openParen) ::
          (ts.map (Token.onLine line) ++ [Token.onLine line (.mark .closeParen)]) := by
      simp [parenthesize]
    rw [htokens]
    exact (FromLevel.parens rfl rfl (h.of_le (Nat.zero_le j))).of_le hk

/-- The mark of an operator is read as the operator: as a comparison, or at a level where operands
are joined from the left. -/
theorem operator_cases (op : Operator) :
    (op.isComparison = true ∧ op.level = 3 ∧ Parse.comparisonOp? (.mark op.mark) = some op) ∨
      (op.isComparison = false ∧ Parse.chainOp? op.level (.mark op.mark) = some op) := by
  cases op <;> decide

/-- Two operands with an operator between them stand at the level of the operator. -/
theorem fromLevel_operator {op : Operator} {ls rs : List Token} {left right : Expr}
    (hl : FromLevel op.leftLevel (ls.map (Token.onLine line)) left)
    (hr : FromLevel (op.level + 1) (rs.map (Token.onLine line)) right) :
    FromLevel op.level ((ls ++ .mark op.mark :: rs).map (Token.onLine line))
      (mkBinary line op left right) := by
  rw [List.map_append, List.map_cons]
  rcases operator_cases op with ⟨hop, hlevel, hmark⟩ | ⟨hop, hmark⟩
  · rw [Operator.leftLevel, hop, if_pos rfl, hlevel] at hl
    rw [hlevel] at hr ⊢
    exact .compare hmark hl hr
  · rw [Operator.leftLevel, hop, if_neg (by decide)] at hl
    exact .join hmark hl hr

/-- An argument as it is printed, with a mark behind it. -/
def printedArgument (wrap : Bool) (line : Nat) (mark : Mark) (e : Expr) : Argument :=
  ⟨(e.tokens wrap wrap.toNat).map (Token.onLine line), Token.onLine line (.mark mark),
    e.onLine line⟩

/-- Arguments are printed with commas between them, up to the closing parenthesis. -/
theorem exists_arguments {wrap : Bool} {arg : Expr} {args : List Expr}
    (h : ∀ a ∈ arg :: args,
      FromLevel 0 ((a.tokens wrap wrap.toNat).map (Token.onLine line)) (a.onLine line)) :
    ∃ as : List Argument, Argument.Closed as ∧
      Argument.tokensOf as = (argumentTokens wrap (arg :: args)).map (Token.onLine line) ∧
      as.map Argument.expr = (arg :: args).map (onLine line) ∧
      ∀ a ∈ as, FromLevel 0 a.tokens a.expr := by
  induction args generalizing arg with
  | nil =>
    refine ⟨[printedArgument wrap line .closeParen arg], .last rfl, ?_, rfl, ?_⟩
    · simp [Argument.tokensOf, argumentTokens, printedArgument]
    · simpa [printedArgument] using h arg List.mem_cons_self
  | cons next args ih =>
    obtain ⟨harg, hargs⟩ := List.forall_mem_cons.1 h
    obtain ⟨as, hclosed, htokens, hexprs, hall⟩ := ih hargs
    refine ⟨printedArgument wrap line .comma arg :: as, .more rfl hclosed, ?_, ?_,
      List.forall_mem_cons.2 ⟨harg, hall⟩⟩
    · rw [argumentTokens, List.map_append, List.map_cons, ← htokens]
      · simp [Argument.tokensOf, printedArgument]
      · simp
    · rw [List.map_cons, hexprs]
      rfl

theorem not_typed_load {p : Place} : ¬(Expr.load p).Typed [Scope.empty] := by
  intro h
  cases h with
  | load hp =>
    obtain ⟨-, slot, hslot, -⟩ := hp
    simp [Scopes.slot?, Scope.slot?, Scope.empty] at hslot

/-- A function that updates a variable is not called where there is none. -/
theorem takesReference_eq_false {f : Builtin} {args : List Expr}
    (h : ∀ arg ∈ args, arg.Typed [Scope.empty]) (haccepts : f.Accepts args) :
    f.takesReference = false := by
  cases href : f.takesReference with
  | false => rfl
  | true =>
    obtain ⟨p, rfl⟩ := haccepts.reference href
    exact absurd (h _ List.mem_cons_self) not_typed_load

/-- **The tokens of an expression are grouped as they were printed**, and what is built of them is
the expression again. -/
theorem Typed.fromLevel {e : Expr} (h : e.Typed [Scope.empty]) (hbuilt : e.Built P) (wrap : Bool)
    {k : Nat} (hk : k ≤ 6) :
    FromLevel k ((e.tokens wrap k).map (Token.onLine line)) (e.onLine line) := by
  induction h generalizing k with
  | @literal _ v hv =>
    have hvalue : v.token.value? = some v := by
      cases v with
      | void | record => simp [Value.isLiteral] at hv
      | _ => rfl
    exact (FromLevel.literal (t := Token.onLine line v.token) hvalue).of_le hk
  | load hp => exact absurd (Typed.load hp) not_typed_load
  | @host _ name => exact (FromLevel.host (t := Token.onLine line (.hostName name)) rfl).of_le hk
  | @negate _ logical e _ _ ih =>
    cases hbuilt with
    | negate hbuilt =>
      refine FromLevel.of_le ?_ hk
      rw [tokens, Expr.onLine, List.map_cons]
      exact .negate rfl (ih hbuilt (Nat.le_refl 6))
  | @binary _ op left right _ _ hty ihl ihr =>
    cases hbuilt with
    | binary hbl hbr =>
      have hlevels : op.leftLevel ≤ 6 ∧ op.level + 1 ≤ 6 := by
        cases op <;> decide
      have hoperator := fromLevel_operator (ihl hbl hlevels.1) (ihr hbr hlevels.2)
      -- the operands fit as they are, so none of them is converted again
      rw [mkBinary_self (by rwa [ty_onLine, ty_onLine]), ty_onLine, ty_onLine] at hoperator
      rw [tokens, Expr.onLine]
      exact fromLevel_parenthesize hoperator hk fun hneeded => by simpa using hneeded
  | @select _ condition yes no _ _ _ _ heq _ ihc ihy ihn =>
    cases hbuilt with
    | select hbc hby hbn =>
      have hself := @mkSelect_self line (condition.onLine line) (yes.onLine line) (no.onLine line)
        (by rwa [ty_onLine, ty_onLine])
      rw [ty_onLine] at hself
      rw [tokens, Expr.onLine, ← hself]
      refine fromLevel_parenthesize (j := 0) ?_ hk fun hneeded => by simpa using hneeded
      simp only [List.map_append, List.map_cons]
      exact .select rfl rfl (ihc hbc (by decide))
        (ihy hby (Nat.zero_le 6)) (ihn hbn (Nat.zero_le 6))
  | @call _ f args hargs haccepts ih =>
    cases hbuilt with
    | call hbargs htrimmed =>
      -- all arguments are there, so no default is filled in, and a `Concat` has nothing to leave
      -- out
      have hcall : mkCall line f.name (args.map (Expr.onLine line)) =
          .ok (.call line f f.signature.ret (args.map (Expr.onLine line))) := by
        refine mkCall_self (accepts_onLine haccepts line)
          (takesReference_eq_false hargs haccepts) ?_
        intro hf
        rw [dropEmptyStrings_onLine, htrimmed hf]
      rw [tokens, Expr.onLine, onLineAll_eq_map]
      refine FromLevel.of_le ?_ hk
      cases args with
      | nil => exact .emptyCall rfl rfl rfl hcall
      | cons arg args =>
        have hlevel : wrap.toNat ≤ 6 := by
          cases wrap <;> decide
        obtain ⟨as, hclosed, htokens, hexprs, hall⟩ := @exists_arguments line wrap arg args
          fun a ha => (ih a ha (hbargs a ha) hlevel).of_le (Nat.zero_le _)
        rw [List.map_cons, List.map_cons, ← htokens]
        rw [← hexprs] at hcall ⊢
        exact .call rfl rfl hclosed hall hcall

end Levels

/-! ### The tokens that are printed -/

theorem mem_argumentTokens {wrap : Bool} {t : Token} {args : List Expr}
    (h : t ∈ argumentTokens wrap args) :
    (∃ m, t = .mark m) ∨ ∃ a ∈ args, t ∈ a.tokens wrap wrap.toNat := by
  induction args with
  | nil => exact .inl ⟨.closeParen, by simpa [argumentTokens] using h⟩
  | cons arg args ih =>
    -- whatever the mark behind an argument is, the other arguments come after it
    obtain ⟨m, rest, htokens, hrest⟩ : ∃ m rest, argumentTokens wrap (arg :: args) =
        arg.tokens wrap wrap.toNat ++ .mark m :: rest ∧
        (t ∈ rest → t ∈ argumentTokens wrap args) := by
      cases args with
      | nil => exact ⟨.closeParen, [], rfl, by simp⟩
      | cons next args => exact ⟨.comma, _, by rw [argumentTokens]; simp, id⟩
    rw [htokens] at h
    rcases List.mem_append.1 h with h | h
    · exact .inr ⟨arg, List.mem_cons_self, h⟩
    · rcases List.mem_cons.1 h with rfl | h
      · exact .inl ⟨m, rfl⟩
      · rcases ih (hrest h) with hmark | ⟨a, ha, h⟩
        · exact .inl hmark
        · exact .inr ⟨a, List.mem_cons_of_mem _ ha, h⟩

theorem mem_parenthesize {needed : Bool} {t : Token} {ts : List Token}
    (h : t ∈ parenthesize needed ts) :
    (∃ m, t = .mark m) ∨ t ∈ ts := by
  cases needed with
  | false => exact .inr h
  | true =>
    have h : t ∈ .mark .openParen :: (ts ++ [.mark .closeParen]) := h
    rcases List.mem_cons.1 h with rfl | h
    · exact .inl ⟨_, rfl⟩
    · rcases List.mem_append.1 h with h | h
      · exact .inr h
      · exact .inl ⟨_, List.mem_singleton.1 h⟩

/-- Apart from its literals and names, an expression without variables is printed with marks and the
names of functions. -/
theorem Typed.mem_tokens {e : Expr} (h : e.Typed [Scope.empty]) {wrap : Bool} {k : Nat} {t : Token}
    (ht : t ∈ e.tokens wrap k) :
    t ∈ e.leaves ∨ (∃ m, t = .mark m) ∨ ∃ f : Builtin, t = .ident f.name := by
  induction h generalizing k with
  | literal => exact .inl ht
  | load hp => exact absurd (Typed.load hp) not_typed_load
  | host => exact .inl ht
  | negate _ _ ih =>
    rcases List.mem_cons.1 ht with rfl | ht
    · exact .inr (.inl ⟨_, rfl⟩)
    · exact ih ht
  | binary _ _ _ ihl ihr =>
    rw [tokens] at ht
    rcases mem_parenthesize ht with hmark | ht
    · exact .inr (.inl hmark)
    · rcases List.mem_append.1 ht with ht | ht
      · exact (ihl ht).imp_left (List.mem_append_left _)
      · rcases List.mem_cons.1 ht with rfl | ht
        · exact .inr (.inl ⟨_, rfl⟩)
        · exact (ihr ht).imp_left (List.mem_append_right _)
  | select _ _ _ _ _ _ ihc ihy ihn =>
    rw [tokens] at ht
    rcases mem_parenthesize ht with hmark | ht
    · exact .inr (.inl hmark)
    · rcases List.mem_append.1 ht with ht | ht
      · exact (ihc ht).imp_left (List.mem_append_left _)
      · rcases List.mem_cons.1 ht with rfl | ht
        · exact .inr (.inl ⟨_, rfl⟩)
        · rcases List.mem_append.1 ht with ht | ht
          · refine (ihy ht).imp_left fun h => ?_
            exact List.mem_append_right _ (List.mem_append_left _ h)
          · rcases List.mem_cons.1 ht with rfl | ht
            · exact .inr (.inl ⟨_, rfl⟩)
            · refine (ihn ht).imp_left fun h => ?_
              exact List.mem_append_right _ (List.mem_append_right _ h)
  | @call _ f args _ _ ih =>
    rw [tokens] at ht
    rcases List.mem_cons.1 ht with rfl | ht
    · exact .inr (.inr ⟨f, rfl⟩)
    · rcases List.mem_cons.1 ht with rfl | ht
      · exact .inr (.inl ⟨_, rfl⟩)
      · rcases mem_argumentTokens ht with hmark | ⟨a, ha, ht⟩
        · exact .inr (.inl hmark)
        · exact (ih a ha ht).imp_left fun h => mem_leavesAll.2 ⟨a, ha, h⟩

theorem spells_name (f : Builtin) : (Token.ident f.name).Spells (Token.ident f.name).spelling := by
  have hword : IsWord f.name.toList := by
    cases f <;> exact .of_all (by decide) (by decide)
  have hname : Scanner.wordToken f.name.toList = .ident f.name := by
    cases f <;> decide
  have hspells := Scanner.spells_wordToken hword
  rwa [hname] at hspells

end Expr

/-! ### Parsing undoes printing -/

/-- The literals and names of a parsed expression are spelled as they are printed, and its `Concat`s
do not end in empty strings. -/
theorem parseExpression_built {source : String} {e : Expr} (h : parseExpression source = .ok e) :
    e.Built fun t => t.IsFinite → t.Spells t.spelling := by
  obtain ⟨ts, hts, hfrom, -⟩ := parseExpression_reads h
  refine hfrom.built ?_ (fun _ => Token.spells_int (by decide)) fun _ => Token.spells_string ""
  exact fun t ht hfinite => Token.spells_of_mem_ofText (hts ht) hfinite

/-- **Parsing undoes printing.** An expression that has been parsed and has no literal that is too
great for a double is printed as a text that is parsed as the same expression, up to line
numbers. -/
theorem parseExpression_render {source : String} {e : Expr} (h : parseExpression source = .ok e)
    (hfinite : ∀ x, Token.float x ∈ e.leaves → x.isFinite = true) (wrap : Bool) :
    parseExpression (e.render wrap) = .ok (e.onLine 1) := by
  have htyped := parseExpression_typed h
  have hbuilt := parseExpression_built h
  have hspells : ∀ t ∈ e.tokens wrap 0, t.Spells t.spelling := by
    intro t ht
    rcases htyped.mem_tokens ht with hleaf | ⟨m, rfl⟩ | ⟨f, rfl⟩
    · refine hbuilt.leaf t hleaf ?_
      rintro x rfl
      exact hfinite x hleaf
    · exact .mark
    · exact Expr.spells_name f
  have hlevel : Expr.FromLevel 0 ((e.tokens wrap 0).map (Token.onLine 1)) (e.onLine 1) :=
    htyped.fromLevel hbuilt wrap (Nat.zero_le 6)
  exact parseExpression_of_fromLevel (TokenRun.ofText_printTokens hspells)
    hlevel (htyped.onLine 1).check

/-- A text with a conversion to put in, a default to fill in, an empty string to leave out,
parentheses that are needed and some that are not, and choices as a branch and as an argument. -/
def sampleExpression : String :=
  "((1 - (2 - 3))) * -Pos('b', 'bc') < 2.5\n" ++
    "? Concat('\"', 'c', '') : (true || @m == Chr(!true ? 0 : 1)) ? 'y' : 'z'"

/-- The same expression as it is printed. -/
def samplePrinted : String :=
  "IntToFloat((1 - (2 - 3)) * - Pos(\"b\", \"bc\", 0)) < 2.5 " ++
    "? Concat(\"\\\"\", \"c\") : (true || @m == Chr((! true ? 0 : 1))) ? \"y\" : \"z\""

theorem parseExpression_render_sample :
    ∃ e, parseExpression sampleExpression = .ok e ∧
      (∀ x, Token.float x ∈ e.leaves → x.isFinite = true) ∧
      parseExpression samplePrinted = .ok (e.onLine 1) := by
  obtain ⟨e, hparse, htext, hleaves⟩ :
      ∃ e, parseExpression sampleExpression = .ok e ∧ e.render true = samplePrinted ∧
        ∀ t ∈ e.leaves, t matches .float _ → t = .float 2.5 := by
    decide +kernel
  have hfinite : ∀ x, Token.float x ∈ e.leaves → x.isFinite = true := by
    intro x hx
    obtain rfl : x = 2.5 := by simpa using hleaves _ hx
    decide
  refine ⟨e, hparse, hfinite, ?_⟩
  rw [← htext]
  exact parseExpression_render hparse hfinite true

end BindScript
