/-
**The errors of operations.**

Whatever values an operator or a function is given, also values of other types than it wants, it
fails only because of these values: they are of the wrong kind, out of range, or too few.  No
operation looks at variables or at the program.

Main results:

* `Builtin.call_blames` — **the functions of the catalog**.
-/

import BindScript.Builtin.Call
import BindScript.Value.Arithmetic

namespace BindScript

/-- The errors that values cause. -/
def RuntimeError.OfValues : RuntimeError → Prop
  | .divisionByZero | .overflow _ | .wrongKind _ _ | .wrongOperands _ _ _ | .invalidArgument _ _
  | .arity _ _ _ => True
  | _ => False

/-- The result fails, if at all, because of values. -/
def BlamesValues {α : Type} (r : Except RuntimeError α) : Prop := ∀ e, r = .error e → e.OfValues

namespace BlamesValues

variable {α β : Type}

theorem ok (a : α) : BlamesValues (.ok a) := fun _ h => absurd h (by simp)

theorem error {e : RuntimeError} (h : e.OfValues) :
    BlamesValues (.error e : Except RuntimeError α) := by
  intro e' he'
  rw [← Except.error.inj he']
  exact h

theorem bind {r : Except RuntimeError α} {f : α → Except RuntimeError β} (hr : BlamesValues r)
    (hf : ∀ a, BlamesValues (f a)) : BlamesValues (r >>= f) := by
  cases r with
  | error e => exact error (hr e rfl)
  | ok a => exact hf a

theorem map {r : Except RuntimeError α} (hr : BlamesValues r) (f : α → β) :
    BlamesValues (r.map f) := by
  cases r with
  | error e => exact error (hr e rfl)
  | ok a => exact ok (f a)

end BlamesValues

/-! ### Operators -/

namespace Value

theorem checkedInt_blames (operation : String) (n : Int) :
    BlamesValues (checkedInt operation n) := by
  unfold checkedInt
  split
  · exact .ok _
  · exact .error trivial

theorem negateAny_blames (v : Value) : BlamesValues v.negateAny := by
  cases v with
  | int n => exact checkedInt_blames _ _
  | float x => exact .ok _
  | bool b => exact .ok _
  | _ => exact .error trivial

theorem intArithmetic_blames (op : Operator) (m n : Int) : BlamesValues (intArithmetic op m n) := by
  unfold intArithmetic
  split
  · exact checkedInt_blames _ _
  · exact checkedInt_blames _ _
  · exact checkedInt_blames _ _
  · split
    · exact .error trivial
    · exact checkedInt_blames _ _

theorem arithmetic_blames (op : Operator) (l r : Value) : BlamesValues (arithmetic op l r) := by
  unfold arithmetic
  split
  · exact intArithmetic_blames _ _ _
  · split
    · exact .ok _
    · split
      · exact .ok _
      · exact .error trivial

theorem compare_blames (op : Operator) (l r : Value) : BlamesValues (compare op l r) := by
  unfold compare
  split
  · exact .error trivial
  · exact .ok _
  · exact .ok _

theorem logical_blames (op : Operator) (l r : Value) : BlamesValues (logical op l r) := by
  unfold logical
  split
  · exact .ok _
  · exact .error trivial

theorem binary_blames (op : Operator) (l r : Value) : BlamesValues (binary op l r) := by
  unfold binary
  split
  · exact arithmetic_blames _ _ _
  · exact arithmetic_blames _ _ _
  · exact arithmetic_blames _ _ _
  · exact arithmetic_blames _ _ _
  · exact .ok _
  · exact .ok _
  · exact compare_blames _ _ _
  · exact compare_blames _ _ _
  · exact compare_blames _ _ _
  · exact compare_blames _ _ _
  · exact logical_blames _ _ _
  · exact logical_blames _ _ _

end Value

/-! ### Functions -/

namespace Builtin

variable (f : Builtin) (args : List Value)

theorem takeValue_blames : BlamesValues (f.takeValue args) := by
  cases args with
  | nil => exact .error trivial
  | cons v rest => exact .ok _

theorem takeInt_blames : BlamesValues (f.takeInt args) := by
  refine (f.takeValue_blames args).bind fun r => ?_
  split
  · exact .ok _
  · exact .error trivial

theorem takeFloat_blames : BlamesValues (f.takeFloat args) := by
  refine (f.takeValue_blames args).bind fun r => ?_
  split
  · exact .ok _
  · exact .error trivial

theorem takeString_blames : BlamesValues (f.takeString args) := by
  refine (f.takeValue_blames args).bind fun r => ?_
  split
  · exact .ok _
  · exact .error trivial

theorem takeBool_blames : BlamesValues (f.takeBool args) := by
  refine (f.takeValue_blames args).bind fun r => ?_
  split
  · exact .ok _
  · exact .error trivial

variable {f args}

theorem onFloat_blames {g : Float → Except RuntimeError Value} (hg : ∀ x, BlamesValues (g x)) :
    BlamesValues (f.onFloat args g) := (f.takeFloat_blames args).bind fun r => hg r.1

theorem onInt_blames {g : Int64 → Except RuntimeError Value} (hg : ∀ n, BlamesValues (g n)) :
    BlamesValues (f.onInt args g) := (f.takeInt_blames args).bind fun r => hg r.1

theorem onString_blames {g : String → Except RuntimeError Value} (hg : ∀ s, BlamesValues (g s)) :
    BlamesValues (f.onString args g) := (f.takeString_blames args).bind fun r => hg r.1

theorem roundBy_blames (f : Builtin) (mode : Decimal.Rounding) (x : Float) :
    BlamesValues (f.roundBy mode x) := by
  unfold roundBy
  split
  · exact .ok _
  · exact .error trivial

theorem stringToInt_blames (s : String) : BlamesValues (stringToInt s) := by
  unfold stringToInt
  split
  · exact .ok _
  · exact .error trivial

theorem character_blames (code : Int) : BlamesValues (character code) := by
  unfold character
  split
  · exact .ok _
  · exact .error trivial

theorem joinStrings_blames (args : List Value) : BlamesValues (joinStrings args) := by
  induction args with
  | nil => exact .ok _
  | cons v rest ih =>
    cases v with
    | string s => exact ih.map _
    | _ => exact .error trivial

theorem compute_blames (hhost : f.needsHost = false) (href : f.takesReference = false)
    (heffect : f ≠ .write ∧ f ≠ .writeLn ∧ f ≠ .random) (args : List Value) :
    BlamesValues (f.compute args) := by
  unfold compute
  cases f with
  | round | floor | ceil | floatToInt => exact onFloat_blames fun x => roundBy_blames _ _ x
  | strToInt => exact onString_blames fun s => stringToInt_blames s
  | chr => exact onInt_blames fun n => character_blames n.toInt
  | frac | floatToStr | odd => exact onFloat_blames fun _ => .ok _
  | intToFloat => exact onInt_blames fun _ => .ok _
  | intToStr => exact onInt_blames fun _ => .ok _
  | boolToStr => exact (takeBool_blames _ args).bind fun _ => .ok _
  | pos =>
    refine (takeString_blames _ args).bind fun haystack => ?_
    refine (takeString_blames _ haystack.2).bind fun needle => ?_
    exact (takeInt_blames _ needle.2).bind fun _ => .ok _
  | copy =>
    refine (takeString_blames _ args).bind fun text => ?_
    refine (takeInt_blames _ text.2).bind fun start => ?_
    exact (takeInt_blames _ start.2).bind fun _ => .ok _
  | strReplace =>
    refine (takeString_blames _ args).bind fun search => ?_
    refine (takeString_blames _ search.2).bind fun replacement => ?_
    exact (takeString_blames _ replacement.2).bind fun _ => .ok _
  | concat => exact (joinStrings_blames args).map _
  | random => exact absurd rfl heffect.2.2
  | write => exact absurd rfl heffect.1
  | writeLn => exact absurd rfl heffect.2.1
  | inc => cases href
  | dec => cases href
  | selectedOptionId => cases hhost
  | selectedOptionExtraValue => cases hhost
  | setValue => cases hhost
  | _ => exact onString_blames fun _ => .ok _

/-- **The functions of the catalog** that need neither a variable nor a host. -/
theorem call_blames (hhost : f.needsHost = false) (href : f.takesReference = false)
    (args : List Value) (console : Console) : BlamesValues (f.call args console).1 := by
  cases f with
  | write =>
    unfold call
    have htake := takeString_blames .write args
    cases hs : takeString .write args with
    | error e => exact .error (htake e hs)
    | ok r => exact .ok _
  | writeLn =>
    unfold call
    have htake := takeString_blames .writeLn args
    cases hs : takeString .writeLn args with
    | error e => exact .error (htake e hs)
    | ok r => exact .ok _
  | random =>
    unfold call
    have htake := takeInt_blames .random args
    cases hn : takeInt .random args with
    | error e => exact .error (htake e hn)
    | ok r =>
      simp only
      split
      · exact .error trivial
      · exact .ok _
  | _ => exact compute_blames hhost href (by decide) args

end Builtin

end BindScript
