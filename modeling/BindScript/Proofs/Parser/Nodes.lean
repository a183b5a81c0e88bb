/-
**Where the nodes of an expression come from.**

Every node of an expression stands at a line of the text.  There are two ways for a call to come
into it.  It was written: its name is one of the tokens of the text.  Or it converts a number, and
was put there because the types of two operands, or of a value and its variable, are different.
What is left out of a call can only be literals: the defaults that are filled in, and the empty
strings at the end of a `Concat`.  All this holds of whatever is read from tokens.

A rule that reads expressions, and more than that, is given some things and gives others, while the
tokens that are left are still tokens of the text.

Main results:

* `Expr.From.placed` — **the nodes of what is read from tokens come from these tokens**.
-/

import BindScript.Proofs.Parser.Expression
import BindScript.Proofs.Rebuilding

namespace BindScript

/-! ### Nodes -/

def Expr.parts : Expr → List Expr
  | .literal _ _ | .load _ | .host _ _ => []
  | .negate _ _ e => [e]
  | .binary _ _ _ left right => [left, right]
  | .select _ _ condition yes no => [condition, yes, no]
  | .call _ _ _ args => args

/-- The first expression is the second one, or stands somewhere in it. -/
inductive Expr.OccursIn (x : Expr) : Expr → Prop
  | self : Expr.OccursIn x x
  | part {e e' : Expr} : e' ∈ e.parts → Expr.OccursIn x e' → Expr.OccursIn x e

/-- A property of an expression and of all expressions in it. -/
def Expr.Each (P : Expr → Prop) (e : Expr) : Prop := ∀ x : Expr, x.OccursIn e → P x

theorem Expr.Each.of_parts {P : Expr → Prop} {e : Expr} (he : P e)
    (hparts : ∀ part ∈ e.parts, part.Each P) : e.Each P := by
  intro x hx
  cases hx with
  | self => exact he
  | part hpart hx => exact hparts _ hpart x hx

theorem Expr.Each.part {P : Expr → Prop} {e part : Expr} (h : e.Each P) (hpart : part ∈ e.parts) :
    part.Each P :=
  fun x hx => h x (.part hpart hx)

/-! ### Calls in expressions -/

/-- The functions that the parser calls without being told to. -/
def Builtin.IsConversion (f : Builtin) : Prop := f = .intToFloat ∨ f = .floatToInt

/-- If the expression is a call, it converts a number, or its name is one of the tokens; and no
empty string at its end could be left out. -/
def Expr.Sourced (T : List Token.Located) : Expr → Prop
  | .call line f _ args =>
    (f.IsConversion ∨ ∃ t ∈ T, t.token = .ident f.name ∧ t.line = line) ∧
      (f = .concat → Expr.dropEmptyStrings f.signature.required args = args)
  | _ => True

theorem Builtin.name_of_ofName? {name : String} {f : Builtin} (h : Builtin.ofName? name = some f) :
    f.name = name := by
  simpa using List.find?_some h

variable {O : Origin}

/-- The expression stands at a line of the text, and if it is a call, it comes from there. -/
def Expr.Placed (O : Origin) (e : Expr) : Prop := O.line e.line ∧ e.Sourced O.tokens

namespace Expr

theorem Each.line {e : Expr} (h : e.Each (Placed O)) : O.line e.line := (h e .self).1

theorem placed_leaf {e : Expr} (he : e.Placed O) (hparts : e.parts = []) : e.Each (Placed O) :=
  .of_parts he (by simp [hparts])

theorem placed_convert {f : Builtin} {e : Expr} (hf : f.IsConversion) (h : e.Each (Placed O)) :
    (convert f e).Each (Placed O) := by
  refine .of_parts ⟨h.line, .inl hf, ?_⟩ ?_
  · rintro rfl
    simp [Builtin.IsConversion] at hf
  · intro part hpart
    obtain rfl := List.mem_singleton.1 hpart
    exact h

theorem placed_coerce {e : Expr} (target : Ty) (h : e.Each (Placed O)) :
    (coerce target e).Each (Placed O) := by
  unfold coerce
  split
  · exact placed_convert (.inl rfl) h
  · exact placed_convert (.inr rfl) h
  · exact h

theorem placed_widen {left right : Expr} (hl : left.Each (Placed O)) (hr : right.Each (Placed O)) :
    (widen left right).1.Each (Placed O) ∧ (widen left right).2.Each (Placed O) := by
  unfold widen
  split
  · exact ⟨placed_convert (.inl rfl) hl, hr⟩
  · exact ⟨hl, placed_convert (.inl rfl) hr⟩
  · exact ⟨hl, hr⟩

theorem placed_mkBinary {line : Nat} (hline : O.line line) (op : Operator) {left right : Expr}
    (hl : left.Each (Placed O)) (hr : right.Each (Placed O)) :
    (mkBinary line op left right).Each (Placed O) := by
  have hbinary : ∀ {l r : Expr} (ty : Ty), l.Each (Placed O) → r.Each (Placed O) →
      (Expr.binary line op ty l r).Each (Placed O) := by
    intro l r ty hl hr
    refine .of_parts ⟨hline, trivial⟩ ?_
    intro part hpart
    rcases List.mem_pair.1 hpart with rfl | rfl
    · exact hl
    · exact hr
  obtain ⟨hwl, hwr⟩ := placed_widen hl hr
  by_cases hop : op.isLogical = true
  · simp only [mkBinary, if_pos hop]
    exact hbinary _ hl hr
  · simp only [mkBinary, if_neg hop]
    exact hbinary _ hwl hwr

theorem placed_mkSelect {line : Nat} (hline : O.line line) {condition yes no : Expr}
    (hc : condition.Each (Placed O)) (hy : yes.Each (Placed O)) (hn : no.Each (Placed O)) :
    (mkSelect line condition yes no).Each (Placed O) := by
  obtain ⟨hwy, hwn⟩ := placed_widen hy hn
  refine .of_parts ⟨hline, trivial⟩ ?_
  intro part hpart
  have hcases : part = condition ∨ part = (widen yes no).1 ∨ part = (widen yes no).2 := by
    simpa [mkSelect, parts] using hpart
  rcases hcases with rfl | rfl | rfl
  · exact hc
  · exact hwy
  · exact hwn

theorem placed_mkCall {t : Token.Located} {name : String} {args : List Expr} {e : Expr}
    (ht : t ∈ O.tokens) (htoken : t.token = .ident name) (h : mkCall t.line name args = .ok e)
    (hargs : ∀ arg ∈ args, arg.Each (Placed O)) : e.Each (Placed O) := by
  obtain ⟨f, vs, hname, -, hrequired, -, rfl⟩ := mkCall_eq h
  refine .of_parts ⟨O.lines t ht,
    .inr ⟨t, ht, by rw [htoken, Builtin.name_of_ofName? hname], rfl⟩, ?_⟩ ?_
  · rintro rfl
    rw [if_pos rfl]
    exact dropEmptyStrings_idem hrequired
  · intro part hpart
    by_cases hf : f = .concat
    · simp only [parts, if_pos hf] at hpart
      obtain ⟨n, -, -, hdrop⟩ := dropEmptyStrings_eq_take hrequired
      rw [hdrop] at hpart
      exact hargs part (List.mem_of_mem_take hpart)
    · simp only [parts, if_neg hf] at hpart
      rcases List.mem_append.1 hpart with hpart | hpart
      · exact hargs part hpart
      · obtain ⟨v, -, rfl⟩ := List.mem_map.1 hpart
        exact placed_leaf ⟨O.lines t ht, trivial⟩ rfl

/-- **The nodes of what is read from tokens come from these tokens.** -/
theorem From.placed {Γ : Scopes} {ts : List Token.Located} {e : Expr} (h : e.From Γ ts)
    (hts : ts ⊆ O.tokens) :
    e.Each (Placed O) := by
  induction h with
  | @literal t | @host t => exact placed_leaf ⟨O.lines t (hts List.mem_cons_self), trivial⟩ rfl
  | @load t _ place _ hline =>
    have ht : O.line place.line := hline ▸ O.lines t (hts List.mem_cons_self)
    exact placed_leaf ⟨ht, trivial⟩ rfl
  | parens _ ih => exact ih fun t ht => hts (List.mem_cons_of_mem _ (List.mem_append_left _ ht))
  | negate _ ih =>
    obtain ⟨ht, hts⟩ := List.cons_subset.1 hts
    exact .of_parts ⟨O.lines _ ht, trivial⟩ (List.forall_mem_singleton.2 (ih hts))
  | binary _ _ ihl ihr =>
    obtain ⟨hls, hrs⟩ := List.append_subset.1 hts
    obtain ⟨ht, hrs⟩ := List.cons_subset.1 hrs
    exact placed_mkBinary (O.lines _ ht) _ (ihl hls) (ihr hrs)
  | select _ _ _ ihc ihy ihn =>
    obtain ⟨hcs, hrest⟩ := List.append_subset.1 hts
    obtain ⟨ht, hrest⟩ := List.cons_subset.1 hrest
    obtain ⟨hys, hrest⟩ := List.append_subset.1 hrest
    exact placed_mkSelect (O.lines _ ht) (ihc hcs) (ihy hys) (ihn (List.cons_subset.1 hrest).2)
  | call htoken _ hcall ih =>
    obtain ⟨ht, hrest⟩ := List.cons_subset.1 hts
    refine placed_mkCall ht htoken hcall fun arg harg => ?_
    obtain ⟨a, ha, rfl⟩ := List.mem_map.1 harg
    exact ih a ha fun t ht =>
      hrest (List.mem_cons_of_mem _ (List.mem_append_left _ (Argument.mem_tokensOf ha ht)))

end Expr

/-! ### Errors of the type check -/

theorem except_bind_eq_error {ε α β : Type} {x : Except ε α} {f : α → Except ε β} {e : ε} :
    (x >>= f) = .error e ↔ x = .error e ∨ ∃ a, x = .ok a ∧ f a = .error e := by
  cases x with
  | error e' => simp [bind, Except.bind]
  | ok a => simp [bind, Except.bind]

theorem line_of_require {holds : Bool} {cause : CompileError.Cause} {line : Nat}
    {err : CompileError} (h : require holds cause line = .error err) : err.line = line := by
  unfold require at h
  split at h
  · cases h
  · cases h
    rfl

mutual

/-- The check of an expression fails at one of the expressions in it. -/
theorem Expr.Each.line_of_check {err : CompileError} :
    {e : Expr} → e.Each (Expr.Placed O) → e.check = .error err →
    O.line err.line
  | .literal _ _, _, h | .load _, _, h | .host _ _, _, h => nomatch h
  | .negate line logical e, hplaced, h => by
      rw [Expr.check] at h
      rcases except_bind_eq_error.1 h with h | ⟨-, -, h⟩
      · exact line_of_check (hplaced.part List.mem_cons_self) h
      · split at h <;> exact line_of_require h ▸ hplaced.line
  | .binary line op ty left right, hplaced, h => by
      rw [Expr.check] at h
      rcases except_bind_eq_error.1 h with h | ⟨-, -, h⟩
      · exact line_of_check (hplaced.part (by simp [Expr.parts])) h
      rcases except_bind_eq_error.1 h with h | ⟨-, -, h⟩
      · exact line_of_check (hplaced.part (by simp [Expr.parts])) h
      · exact line_of_require h ▸ hplaced.line
  | .select line ty condition yes no, hplaced, h => by
      have hcondition : condition.Each (Expr.Placed O) := hplaced.part (by simp [Expr.parts])
      rw [Expr.check] at h
      rcases except_bind_eq_error.1 h with h | ⟨-, -, h⟩
      · exact line_of_check hcondition h
      rcases except_bind_eq_error.1 h with h | ⟨-, -, h⟩
      · exact line_of_require h ▸ hcondition.line
      rcases except_bind_eq_error.1 h with h | ⟨-, -, h⟩
      · exact line_of_check (hplaced.part (by simp [Expr.parts])) h
      rcases except_bind_eq_error.1 h with h | ⟨-, -, h⟩
      · exact line_of_check (hplaced.part (by simp [Expr.parts])) h
      · exact line_of_require h ▸ hplaced.line
  | .call _ _ _ args, hplaced, h => line_of_checkAll (fun _ harg => hplaced.part harg) h

theorem Expr.Each.line_of_checkAll {err : CompileError} :
    {es : List Expr} → (∀ e ∈ es, e.Each (Expr.Placed O)) →
    Expr.checkAll es = .error err → O.line err.line
  | [], _, h => nomatch h
  | e :: es, hplaced, h => by
      rw [Expr.checkAll] at h
      rcases except_bind_eq_error.1 h with h | ⟨-, -, h⟩
      · exact line_of_check (hplaced e List.mem_cons_self) h
      · exact line_of_checkAll (fun e' he' => hplaced e' (List.mem_cons_of_mem _ he')) h

end

/-! ### What rules are given, and what they give -/

namespace Parse

/-- What rules are given and what they give, and what holds of the states in between. It is known
which operations keep this. -/
structure Spec (O : Origin) where
  holds : ParseState → Prop
  allows : {β : Type} → Op β → Prop
  asks : {α : Type} → Rule α → Prop
  gives : {α : Type} → Rule α → α → Prop
  drawn : ∀ {s}, holds s → s.Drawn O
  asked : ∀ {β : Type} {o : Op β}, allows o → o.Asks O
  run : ∀ {β : Type} {o : Op β} {s b s'}, allows o → holds s → o.run s = .ok (b, s') → s'.Drawn O →
    holds s'

variable {α β : Type} {S : Spec O} {P : α → Prop}

/-- The contract of the rules. -/
def Spec.contract (S : Spec O) : Contract where
  pre r s := S.holds s ∧ S.asks r
  post r _ a s' := S.holds s' ∧ S.gives r a
  error e := O.line e.line

namespace Act

/-- An act leads from states to states of which this holds, and its results have a property. -/
def Draws (S : Spec O) (P : α → Prop) (act : Act α) : Prop :=
  ∀ s : ParseState, S.holds s → act.Ensures S.contract (fun a s' => S.holds s' ∧ P a) s

namespace Draws

theorem done {a : α} (h : P a) : (Act.done a).Draws S P := fun _ hs => ⟨hs, h⟩

theorem fail {e : CompileError} (h : O.line e.line) : (Act.fail e).Draws S P := fun _ _ => h

theorem op {o : Op β} {next : β → Act α} (ho : S.allows o)
    (h : ∀ b, o.Gives O b → (next b).Draws S P) :
    (Act.op o next).Draws S P := by
  intro s hs
  have hrun := Op.run_drawn (S.asked ho) (S.drawn hs)
  exact ⟨fun hb => h _ (hrun.ok hb).2 _ (S.run ho hs hb (hrun.ok hb).1), hrun.error⟩

theorem call {r : Rule β} {next : β → Act α} (hr : S.asks r)
    (h : ∀ b, S.gives r b → (next b).Draws S P) :
    (Act.call r next).Draws S P :=
  fun _ hs => ⟨⟨hs, hr⟩, fun b s' hb => h b hb.2 s' hb.1⟩

theorem last {r : Rule α} (hr : S.asks r) (h : ∀ a, S.gives r a → P a) :
    (Act.call r .done).Draws S P :=
  .call hr fun a ha => .done (h a ha)

end Draws

end Act

/-- **Rules keep to what they give**, if the bodies of those do that read more than expressions. -/
theorem Spec.kept (S : Spec O)
    (hexpr : ∀ {α : Type} (r : Rule α), r.layer = 0 → S.asks r → r.Given O ∧
      ∀ s ts a s', S.holds s →
      s.Takes ts s' → r.Reads s.scopes ts a → S.holds s' ∧ S.gives r a)
    (hbody : ∀ {α : Type} (r : Rule α), r.layer ≠ 0 → S.asks r → r.body.Draws S (S.gives r))
    (c : Activation) :
    S.contract.Kept c := by
  have hzero : ∀ c : Activation, c.rule.layer = 0 → S.contract.Kept c := by
    intro c hc hpre
    obtain ⟨hgiven, hgives⟩ := hexpr c.rule hc hpre.2
    have hmeets := reading_kept O c hc ⟨S.drawn hpre.1, hgiven⟩
    refine ⟨fun ha => ?_, hmeets.error⟩
    obtain ⟨ts, hts, hreads⟩ := hmeets.ok ha
    exact hgives _ ts _ _ hpre.1 hts hreads
  by_cases hc : c.rule.layer = 0
  · exact hzero c hc
  · have hholds : S.contract.Holds fun c => c.rule.layer ≠ 0 :=
      fun c hc hpre => (hbody c.rule hc hpre.2 c.state hpre.1).imp fun _ _ h _ => h
    exact hholds.outcome (fun _ c' _ _ => (em (c'.rule.layer = 0)).symm.imp_right (hzero c')) c hc

theorem Spec.onText {S : Spec O} {r : Rule α} (h : ∀ c, S.contract.Kept c) (hr : S.asks r)
    {source : String} {slots : List Slot}
    (hsource : S.holds { ParseState.start source with scopes := Scopes.push [] slots }) :
    (∀ a, Parse.onText r.parse source slots = .ok a → S.gives r a) ∧
      ∀ e, Parse.onText r.parse source slots = .error e → O.line e.line := by
  obtain ⟨hok, herror⟩ := (h _).onText ⟨hsource, hr⟩
  refine ⟨fun a ha => ?_, herror⟩
  obtain ⟨s', -, hgives⟩ := hok a ha
  exact hgives

end Parse

end BindScript
