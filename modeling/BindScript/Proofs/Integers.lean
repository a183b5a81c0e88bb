/-
**Integers do not wrap.**

An operation on integers gives its exact result if this fits 64 bits, and says otherwise that it
does not.  The limits are not symmetric: the least integer has no negation, and divided by minus one
it does not fit.  An update of a variable that would not fit leaves the variable as it is, and a
literal that does not fit is refused, however many digits it has.

From the operations this goes over to expressions.  The exact value of an expression is computed
without limits; there is none where something is divided by zero.  Evaluation gives it exactly if
all parts have exact values that fit.

Main results:

* `integers_exact` — **integers do not wrap**.
-/

import BindScript.Proofs.Constant
import BindScript.Proofs.Numeral.Grammar
import BindScript.Proofs.Parser.Nodes
import BindScript.Proofs.Token.Layout

namespace BindScript

/-- The integer fits 64 bits. -/
def FitsWord (n : Int) : Prop := -2 ^ 63 ≤ n ∧ n < 2 ^ 63

theorem fitsWord_toInt (k : Int64) : FitsWord k.toInt := ⟨k.le_toInt, k.toInt_lt⟩

/-- The outcome of an operation with an exact result: this integer, or an overflow if it does not
fit. -/
structure Exact (operation : String) (n : Int) (r : Except RuntimeError Value) : Prop where
  fits : FitsWord n → ∃ k : Int64, k.toInt = n ∧ r = .ok (.int k)
  overflows : ¬FitsWord n → r = .error (.overflow operation)

/-- The exact result of an arithmetic operator. Division truncates toward zero, and there is none by
zero. -/
def Operator.result? : Operator → Int → Int → Option Int
  | .add, m, n => some (m + n)
  | .sub, m, n => some (m - n)
  | .mul, m, n => some (m * n)
  | .div, m, n => if n = 0 then none else some (m.tdiv n)
  | _, _, _ => none

def Operator.arithmetic : List Operator := [.add, .sub, .mul, .div]

/-! ### Operations -/

namespace Value

theorem checkedInt_exact (operation : String) (n : Int) :
    Exact operation n (checkedInt operation n) where
  fits h := by
    obtain ⟨k, hk, hword⟩ := Decimal.toInt64?_eq_some h
    exact ⟨k, hk, by rw [checkedInt, hword]⟩
  overflows h := by rw [checkedInt, Decimal.toInt64?_eq_none h]

theorem checkedInt_ne_divisionByZero (operation : String) (n : Int) :
    checkedInt operation n ≠ .error .divisionByZero := by
  unfold checkedInt
  split <;> simp

/-- An arithmetic operator on integers checks its exact result. -/
theorem binary_int {op : Operator} (hop : op ∈ Operator.arithmetic) (a b : Int64) :
    binary op (.int a) (.int b) = (op.result? a.toInt b.toInt).elim (.error .divisionByZero)
      (checkedInt op.symbol) := by
  cases op with
  | add | sub | mul => rfl
  | div =>
    have hdiv : binary .div (.int a) (.int b) =
        if b.toInt = 0 then .error .divisionByZero else checkedInt "/" (a.toInt.tdiv b.toInt) := rfl
    rw [hdiv, Operator.result?]
    split <;> rfl
  | _ => exact absurd hop (by decide)

theorem binary_eq_divisionByZero {op : Operator} (hop : op ∈ Operator.arithmetic) (a b : Int64) :
    binary op (.int a) (.int b) = .error .divisionByZero ↔ op = .div ∧ b = 0 := by
  have hzero : b.toInt = 0 ↔ b = 0 := by rw [← Int64.toInt_inj, Int64.toInt_zero]
  rw [binary_int hop]
  cases op with
  | add | sub | mul => simp [Operator.result?, checkedInt_ne_divisionByZero]
  | div => by_cases hb : b = 0 <;> simp [Operator.result?, hzero, hb, checkedInt_ne_divisionByZero]
  | _ => exact absurd hop (by decide)

end Value

/-! ### Variables -/

theorem Table.lookup_replace {α : Type} {name : String} {a : α} {t : Table α}
    (h : t.lookup name = some a) (change : α → α) :
    (Table.replace name change t).lookup name = some (change a) := by
  induction t with
  | nil => simp at h
  | cons e t ih =>
    obtain ⟨n, b⟩ := e
    rw [Table.replace]
    by_cases hn : n = name
    · subst hn
      obtain rfl : b = a := by simpa using h
      simp
    · have hname : (name == n) = false := beq_eq_false_iff_ne.2 (Ne.symm hn)
      rw [List.lookup_cons, hname] at h
      rw [if_neg hn, List.lookup_cons, hname]
      exact ih h

theorem Value.withLeaf?_of_leaf? {path : Option String} {old v : Value}
    (h : old.leaf? path = some v) (w : Value) :
    ∃ new, Value.withLeaf? path w old = some new ∧ new.leaf? path = some w := by
  cases path with
  | none => exact ⟨w, rfl, rfl⟩
  | some path =>
    cases old with
    | record leaves =>
      have hsome : leaves.lookup path = some v := h
      refine ⟨.record (Table.replace path (fun _ => w) leaves), ?_, Table.lookup_replace hsome _⟩
      simp [Value.withLeaf?, hsome]
    | _ => simp [Value.leaf?] at h

namespace Frames

variable {frames : Frames} {name : String} {v : Value}

theorem update?_of_find? {change : Value → Option Value} {c : Frame.Cell} {new : Value}
    (h : frames.find? name = some c) (hnew : change c.value = some new) :
    ∃ frames', update? name change frames = some frames' ∧
      frames'.find? name = some { c with value := new } := by
  induction frames with
  | nil => simp [find?] at h
  | cons f outer ih =>
    rw [find?, List.findSome?_cons] at h
    rw [update?]
    cases hlive : Frame.live? f name with
    | some d =>
      rw [hlive] at h
      obtain rfl : d = c := Option.some.inj h
      refine ⟨_, by simp only [hnew]; rfl, ?_⟩
      obtain ⟨hlookup, hlive⟩ := Option.filter_eq_some_iff.1 hlive
      have hnew : Frame.live? (Table.replace name (fun c => { c with value := new }) f) name =
          some { d with value := new } :=
        Option.filter_eq_some_iff.2 ⟨Table.lookup_replace hlookup _, hlive⟩
      rw [find?, List.findSome?_cons, hnew]
    | none =>
      rw [hlive] at h
      obtain ⟨outer', houter, hfind⟩ := ih h
      refine ⟨f :: outer', by simp only [houter]; rfl, ?_⟩
      rw [find?, List.findSome?_cons, hlive]
      exact hfind

/-- A variable or leaf that can be read can be set, and then has its new value. -/
theorem write_of_read (h : frames.read name = .ok v) (w : Value) :
    ∃ frames', frames.write name w = .ok frames' ∧ frames'.read name = .ok w := by
  simp only [read, write] at h ⊢
  split at h
  · rename_i u hleaf
    obtain ⟨c, hfind, hleaf⟩ := Option.bind_eq_some_iff.1 hleaf
    obtain ⟨new, hnew, hread⟩ := Value.withLeaf?_of_leaf? hleaf w
    obtain ⟨frames', hupdate, hfind'⟩ := update?_of_find? hfind hnew
    refine ⟨frames', by rw [hupdate], ?_⟩
    rw [hfind', Option.bind_some, hread]
  · cases h

end Frames

/-- The outcome of setting a variable to an exact number: the variable has this number then, or
nothing is changed if it does not fit. -/
structure Machine.Sets {σ : Type} (operation name : String) (n : Int) (m : Machine σ)
    (r : Machine.Result σ Value) :
    Prop where
  fits : FitsWord n → ∃ (k : Int64) (frames : Frames), k.toInt = n ∧
    frames.read name = .ok (.int k) ∧
    r = (.ok .void, { m with frames })
  overflows : ¬FitsWord n → r = (.error (.overflow operation), m)

/-- An update of an integer variable sets it to the next integer, or to the one before. -/
theorem Machine.updateTarget_sets {σ : Type} {m : Machine σ} {name : String} {a : Int64}
    (h : m.frames.read name = .ok (.int a)) (b : Builtin) :
    Sets b.name name (a.toInt + referenceStep b) m (updateTarget b (.load name) m) := by
  have hexact := Value.checkedInt_exact b.name (a.toInt + referenceStep b)
  constructor
  · intro hfits
    obtain ⟨k, hk, hcheck⟩ := hexact.fits hfits
    obtain ⟨frames, hwrite, hread⟩ := Frames.write_of_read h (.int k)
    exact ⟨k, frames, hk, hread, by simp only [updateTarget, h, hcheck, assign, hwrite]⟩
  · intro hlarge
    simp only [updateTarget, h, hexact.overflows hlarge]

/-! ### Literals -/

/-- A run of digits that ends before something other than a digit or a point is read as the integer
that it denotes, or refused. -/
theorem Scanner.next_digits {ds rest : List Char} (hne : ds ≠ []) (hds : ∀ c ∈ ds, c.isDigit = true)
    (hrest : ∀ c ∈ rest.head?, isNumberChar c = false) (line : Nat) :
    (Numeral.positional ds ≤ 2 ^ 63 - 1 → ∃ k : Int64, k.toInt = Numeral.positional ds ∧
      next ⟨ds ++ rest, line⟩ = (.ok ⟨.int k, line⟩, ⟨rest, line⟩)) ∧
    (2 ^ 63 - 1 < Numeral.positional ds →
      next ⟨ds ++ rest, line⟩ = (.error ⟨.intRange (String.ofList ds), line⟩, ⟨rest, line⟩)) := by
  have hnumber : ∀ c ∈ ds, isNumberChar c = true := fun c hc => by simp [isNumberChar, hds c hc]
  have hcount : ds.count '.' = 0 :=
    List.count_eq_zero.2 fun hmem => absurd (hds '.' hmem) (by decide)
  have hread : Decimal.readInt64? ds = Decimal.toInt64? (Numeral.positional ds) := by
    rw [Decimal.readInt64?, Decimal.readInt?_digits hne hds, Numeral.natOfDigits_eq_positional,
      Option.bind_some]
  obtain ⟨c, cs, rfl⟩ := List.exists_cons_of_ne_nil hne
  have hc := hds c List.mem_cons_self
  have hgap : NoGapAt (c :: cs ++ rest) := by
    obtain ⟨hblank, hslash⟩ :=
      Numeral.forall_isDigit (P := fun c => isBlankChar c = false ∧ c ≠ '/') (by decide) hc
    exact ⟨c, cs ++ rest, rfl, hblank, fun h => absurd h hslash⟩
  have htoken := readToken_number ⟨c, cs, rfl, hc⟩ hnumber hrest
  simp only [next, skipGap_noGapAt hgap, htoken, numberToken, hcount, hread]
  constructor
  · intro hfits
    obtain ⟨k, hk, hword⟩ := Decimal.toInt64?_eq_some (n := Numeral.positional (c :: cs)) (by omega)
    exact ⟨k, hk, by rw [hword]⟩
  · intro hlarge
    rw [Decimal.toInt64?_eq_none (by omega)]

/-! ### Expressions -/

/-- A tree of integer literals, negations and arithmetic operators. -/
inductive Expr.IsIntegral : Expr → Prop
  | literal {line} {k : Int64} : Expr.IsIntegral (.literal line (.int k))
  | negate {line e} : Expr.IsIntegral e → Expr.IsIntegral (.negate line false e)
  | binary {line op left right} : op ∈ Operator.arithmetic → Expr.IsIntegral left →
      Expr.IsIntegral right →
      Expr.IsIntegral (.binary line op .int left right)

namespace Expr

/-- The exact value of a tree of integers, if nothing is divided by zero. -/
def exactValue? : Expr → Option Int
  | .literal _ (.int k) => some k.toInt
  | .negate _ false e => e.exactValue?.map (-·)
  | .binary _ op _ left right =>
    left.exactValue?.bind fun m => right.exactValue?.bind fun n => op.result? m n
  | _ => none

/-- The exact value exists and fits 64 bits. -/
def Fits (e : Expr) : Prop := ∃ n, e.exactValue? = some n ∧ FitsWord n

/-- The outcome of an evaluation: the exact value, if all parts have values that fit, and otherwise
an overflow or a division by zero. -/
inductive Computes (e : Expr) : Except RuntimeError Value → Prop
  | value {k : Int64} : e.exactValue? = some k.toInt → e.Each Fits → Computes e (.ok (.int k))
  | error {err : RuntimeError} : (err = .divisionByZero ∨ ∃ operation, err = .overflow operation) →
      ¬e.Each Fits →
      Computes e (.error err)

variable {e : Expr}

theorem Computes.of_exact {operation : String} {n : Int} {r : Except RuntimeError Value}
    (h : Exact operation n r) (hvalue : e.exactValue? = some n)
    (hparts : ∀ part ∈ e.parts, part.Each Fits) : e.Computes r := by
  by_cases hn : FitsWord n
  · obtain ⟨k, rfl, rfl⟩ := h.fits hn
    exact .value hvalue (.of_parts ⟨_, hvalue, hn⟩ hparts)
  · rw [h.overflows hn]
    refine .error (.inr ⟨operation, rfl⟩) ?_
    intro heach
    obtain ⟨n', hvalue', hn'⟩ := heach e .self
    rw [hvalue] at hvalue'
    exact hn (Option.some.inj hvalue' ▸ hn')

/-- **Evaluation gives the exact value**, if all parts have values that fit. -/
theorem IsIntegral.computes (h : e.IsIntegral) : e.Computes e.evaluate := by
  induction h with
  | @literal line k =>
    exact .value rfl (.of_parts ⟨_, rfl, fitsWord_toInt k⟩ (fun _ h => absurd h List.not_mem_nil))
  | @negate line o _ ih =>
    rw [evaluate]
    generalize o.evaluate = x at ih ⊢
    cases ih with
    | @value k hvalue heach =>
      refine .of_exact (Value.checkedInt_exact "-" (-k.toInt)) (by simp [exactValue?, hvalue]) ?_
      simpa [parts] using heach
    | error herr hnot => exact .error herr fun heach => hnot (heach.part (by simp [parts]))
  | @binary line op l r hop _ _ ihl ihr =>
    rw [evaluate]
    generalize l.evaluate = x at ihl ⊢
    generalize r.evaluate = y at ihr ⊢
    cases ihl with
    | error herr hnot => exact .error herr fun heach => hnot (heach.part (by simp [parts]))
    | @value a hl heachl =>
      cases ihr with
      | error herr hnot => exact .error herr fun heach => hnot (heach.part (by simp [parts]))
      | @value b hr heachr =>
        have hvalue : (Expr.binary line op .int l r).exactValue? = op.result? a.toInt b.toInt := by
          simp [exactValue?, hl, hr]
        show Computes _ (Value.binary op (.int a) (.int b))
        rw [Value.binary_int hop]
        -- only a division by zero has no exact result
        cases hop : op.result? a.toInt b.toInt with
        | none =>
          refine .error (.inl rfl) ?_
          intro heach
          obtain ⟨n, hn, -⟩ := heach _ .self
          rw [hvalue, hop] at hn
          cases hn
        | some n =>
          refine .of_exact (Value.checkedInt_exact op.symbol n) (hvalue.trans hop) ?_
          simpa [parts] using ⟨heachl, heachr⟩

/-! ### The machine -/

theorem IsIntegral.ty_eq (h : e.IsIntegral) : e.ty = .int := by
  induction h with
  | literal | binary => rfl
  | negate _ ih => exact ih

theorem IsIntegral.typed (h : e.IsIntegral) (Γ : Scopes) : e.Typed Γ := by
  induction h with
  | literal => exact .literal rfl
  | negate ho ih => exact .negate ih (by simp [ho.ty_eq, Ty.isNumeric])
  | @binary line op l r hop hl hr ihl ihr =>
    have hty : op.infer l.ty r.ty = .int := by
      rw [hl.ty_eq, hr.ty_eq]
      cases op with
      | add | sub | mul | div => rfl
      | _ => exact absurd hop (by decide)
    rw [← hty]
    exact .binary ihl ihr (by simp [hty])

theorem IsIntegral.calls_eq (h : e.IsIntegral) (f : Builtin) : e.calls f = false := by
  induction h with
  | literal => rfl
  | negate _ ih => exact ih
  | binary _ _ _ ihl ihr => rw [calls, ihl, ihr, Bool.or_false]

theorem IsIntegral.evaluate_code_eq (h : e.IsIntegral) (m : Machine Unit) {fuel : Nat}
    (hfuel : e.code.length ≤ fuel) :
    (Machine.evaluateFuel .plain e.code.toArray fuel m).map (·.1) = some e.evaluate := by
  have hconst : ∀ name, e.evaluate ≠ .error (.notConstant name) := by
    intro name hname
    have hcomputes := h.computes
    rw [hname] at hcomputes
    cases hcomputes with
    | error herr _ => simp at herr
  have hcode := Machine.eval_code (m := m.reset) (h.typed [])
    (h.calls_eq _) hconst hfuel rfl rfl rfl
  rw [Machine.evaluateFuel]
  cases heval : e.evaluate with
  | ok v => rw [hcode.1 v heval]; rfl
  | error err =>
    obtain ⟨p, hp⟩ := hcode.2 err heval
    rw [hp]; rfl

end Expr

/-! ### All of it -/

/-- **Integers do not wrap.** The arithmetic operators and the negation give their exact results if
these fit 64 bits and otherwise say that they do not; division by zero is the one other error. A
variable is set to the next integer or to the one before if this fits, and otherwise nothing is
changed. Digits are read as the integer that they denote if this fits, and are refused otherwise. An
integer that comes out of a tree of such literals and operators is the exact value of the tree, and
there is none only if some part has no exact value that fits. -/
theorem integers_exact :
    (∀ op ∈ Operator.arithmetic, ∀ a b : Int64,
      (∀ n, op.result? a.toInt b.toInt = some n →
        Exact op.symbol n (Value.binary op (.int a) (.int b))) ∧
      (Value.binary op (.int a) (.int b) = .error .divisionByZero ↔ op = .div ∧ b = 0)) ∧
    (∀ a : Int64, Exact "-" (-a.toInt) (Value.negateAny (.int a))) ∧
    (∀ (σ : Type) (code : Array Instruction) (m m' : Machine σ) (name : String) (a : Int64),
      Machine.fetch code m = (.ok (.load name), m') → m.frames.read name = .ok (.int a) →
        m'.frames = m.frames ∧
        Machine.Sets "Inc" name (a.toInt + 1) m' (Machine.callByReference code .inc 1 m) ∧
        Machine.Sets "Dec" name (a.toInt - 1) m' (Machine.callByReference code .dec 1 m)) ∧
    (∀ (ds rest : List Char) (line : Nat), ds ≠ [] → (∀ c ∈ ds, c.isDigit = true) →
      (∀ c ∈ rest.head?, Scanner.isNumberChar c = false) →
      (Numeral.positional ds ≤ 2 ^ 63 - 1 → ∃ k : Int64, k.toInt = Numeral.positional ds ∧
        Scanner.next ⟨ds ++ rest, line⟩ = (.ok ⟨.int k, line⟩, ⟨rest, line⟩)) ∧
      (2 ^ 63 - 1 < Numeral.positional ds → ∃ e : CompileError, e.cause.kind = .lexical ∧
        e.line = line ∧
        Scanner.next ⟨ds ++ rest, line⟩ = (.error e, ⟨rest, line⟩))) ∧
    ∀ e : Expr, e.IsIntegral → e.Computes e.evaluate ∧
      ∀ (m : Machine Unit) (fuel : Nat), e.code.length ≤ fuel →
        (Machine.evaluateFuel .plain e.code.toArray fuel m).map (·.1) = some e.evaluate := by
  refine ⟨?_, ?_, ?_, ?_, ?_⟩
  · intro op hop a b
    refine ⟨?_, Value.binary_eq_divisionByZero hop a b⟩
    intro n hn
    rw [Value.binary_int hop, hn]
    exact Value.checkedInt_exact _ _
  · exact fun a => Value.checkedInt_exact "-" (-a.toInt)
  · intro σ code m m' name a hfetch hread
    have hframes : m'.frames = m.frames := by rw [(Machine.fetch_eq_ok hfetch).2]
    rw [← hframes] at hread
    have hcall : ∀ b, Machine.callByReference code b 1 m =
        Machine.updateTarget b (.load name) m' := by
      intro b
      have heq : some (Machine.callByReference code b 1 m) = _ := Machine.callByReference_eq b 1
      rw [if_neg (by simp), hfetch, Machine.andThen_ok] at heq
      exact Option.some.inj heq
    refine ⟨hframes, ?_, ?_⟩
    · rw [hcall]
      exact Machine.updateTarget_sets hread .inc
    · rw [hcall]
      exact Machine.updateTarget_sets hread .dec
  · intro ds rest line hne hds hrest
    obtain ⟨hfits, hlarge⟩ := Scanner.next_digits hne hds hrest line
    exact ⟨hfits, fun h => ⟨_, rfl, rfl, hlarge h⟩⟩
  · exact fun e he => ⟨he.computes, fun m _ hfuel => he.evaluate_code_eq m hfuel⟩

/-- A machine before a call that adds one to the largest integer. -/
def atLimit : Machine Unit :=
  { Machine.start () Console.empty with frames := [[("x", ⟨.int 9223372036854775807, true⟩)]] }

/-- The tree of `-9223372036854775807 - 1`. -/
def leastInteger : Expr :=
  .binary 1 .sub .int (.negate 1 false (.literal 1 (.int 9223372036854775807)))
    (.literal 1 (.int 1))

/-- The least integer divided by minus one and negated, the update of the largest one, a literal one
past it, and the least integer as an expression. -/
theorem integers_exact_limits :
    Value.binary .div (.int (-9223372036854775808)) (.int (-1)) = .error (.overflow "/") ∧
    Value.negateAny (.int (-9223372036854775808)) = .error (.overflow "-") ∧
    (∃ m', Machine.callByReference #[.load "x"] .inc 1 atLimit = (.error (.overflow "Inc"), m') ∧
      m'.frames = atLimit.frames) ∧
    (∃ e : CompileError, e.cause.kind = .lexical ∧
      Scanner.next ⟨"9223372036854775808;".toList, 1⟩ = (.error e, ⟨[';'], 1⟩)) ∧
    leastInteger.IsIntegral ∧
      ∃ k : Int64, leastInteger.evaluate = .ok (.int k) ∧
        leastInteger.exactValue? = some k.toInt := by
  obtain ⟨hbinary, hnegate, hupdate, hliteral, hexpression⟩ := integers_exact
  have hlarge : ¬FitsWord (2 ^ 63) := fun h => absurd h.2 (by decide)
  refine ⟨((hbinary .div (by decide) _ _).1 (2 ^ 63) (by decide)).overflows hlarge, ?_, ?_, ?_,
    ?_, ?_⟩
  · exact (hnegate (-9223372036854775808)).overflows hlarge
  · obtain ⟨hframes, hinc, -⟩ := hupdate Unit #[.load "x"] atLimit _ "x" 9223372036854775807 rfl rfl
    exact ⟨_, hinc.overflows hlarge, hframes⟩
  · obtain ⟨e, hkind, -, hnext⟩ := (hliteral "9223372036854775808".toList [';'] 1 (by decide)
      (List.all_eq_true.1 (by decide)) (by simp [Scanner.isNumberChar])).2 (by decide)
    exact ⟨e, hkind, hnext⟩
  · exact .binary (by decide) (.negate .literal) .literal
  · have hcomputes := (hexpression leastInteger (.binary (by decide) (.negate .literal) .literal)).1
    have hvalue : leastInteger.evaluate = .ok (.int (-9223372036854775808)) := rfl
    rw [hvalue] at hcomputes
    cases hcomputes with
    | value hexact _ => exact ⟨_, hvalue, hexact⟩

end BindScript
