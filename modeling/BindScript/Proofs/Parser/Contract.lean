/-
**Contracts of the rules of the parser.**

A contract says of each rule what is known where it is called, and what it promises about its
result; and it says which errors there may be.  All rules keep a contract if each of them does so
under the assumption that the rules that it calls do: every call is below the rule that makes it, so
the assumption is never used in a circle.

Main results:

* `Parse.Contract.Holds.outcome` — **rules keep their contract**.
-/

import BindScript.Proofs.Parser.Termination

namespace BindScript.Parse

variable {α β : Type}

/-- What is known where rules are called, what they promise, and with what errors they may fail. -/
structure Contract where
  pre : {α : Type} → Rule α → ParseState → Prop
  post : {α : Type} → Rule α → ParseState → α → ParseState → Prop
  error : CompileError → Prop

variable {C : Contract} {reached : Activation → Prop} {P P' : α → ParseState → Prop}
    {Q : β → ParseState → Prop}
  {s : ParseState}

/-! ### Outcomes -/

/-- What a parser comes to has a property, or is an error that there may be. -/
structure Contract.Meets (C : Contract) (P : α → ParseState → Prop) (x : Outcome α) : Prop where
  ok : ∀ {a s'}, x = .ok (a, s') → P a s'
  error : ∀ {e}, x = .error e → C.error e

namespace Contract.Meets

theorem result {a : α} (h : P a s) : C.Meets P (.ok (a, s)) := by
  refine ⟨?_, nofun⟩
  rintro _ _ ⟨rfl, rfl⟩
  exact h

theorem failure {e : CompileError} (h : C.error e) : C.Meets P (.error e) := by
  refine ⟨nofun, ?_⟩
  rintro _ ⟨rfl⟩
  exact h

theorem bind {p : Parse β} {f : β → Parse α} (hp : C.Meets Q (p s))
    (hf : ∀ b s', p s = .ok (b, s') → Q b s' → C.Meets P (f b s')) : C.Meets P ((p >>= f) s) := by
  change C.Meets P (Except.bind (p s) fun x => f x.1 x.2)
  cases hps : p s with
  | error e => exact .failure (hp.error hps)
  | ok x => exact hf x.1 x.2 hps (hp.ok hps)

theorem imp {x : Outcome α} (h : C.Meets P x) (himp : ∀ a s', P a s' → P' a s') : C.Meets P' x :=
  ⟨fun ha => himp _ _ (h.ok ha), h.error⟩

end Contract.Meets

/-! ### Bodies -/

namespace Act

/-- From a state on, an act keeps to a contract: it fails with errors that there may be, its calls
are allowed, and with what they promise it comes to results that have a property. -/
def Ensures (C : Contract) (P : α → ParseState → Prop) : Act α → ParseState → Prop
  | .done a, s => P a s
  | .fail e, _ => C.error e
  | .op o next, s => C.Meets (fun b s' => (next b).Ensures C P s') (o.run s)
  | .call r next, s => C.pre r s ∧ ∀ b s', C.post r s b s' → (next b).Ensures C P s'

namespace Ensures

theorem imp {act : Act α} (h : act.Ensures C P s) (himp : ∀ a s', P a s' → P' a s') :
    act.Ensures C P' s := by
  induction act generalizing s with
  | done a => exact himp a s h
  | fail e => exact h
  | op o next ih => exact Contract.Meets.imp h fun b s' hb => ih b hb
  | call r next ih => exact ⟨h.1, fun b s' hb => ih b (h.2 b s' hb)⟩

variable {act : Act α} (h : act.Ensures C P s)
  (hcalls : ∀ c, act.Makes (fun _ r => r.outcome) s c → C.pre c.rule c.state →
    C.Meets (C.post c.rule c.state) (c.rule.outcome c.state))
include h hcalls

/-- The calls of an act that keeps to a contract are allowed, if the rules that it calls keep to
it. -/
theorem pre_of_makes {c : Activation} (hc : act.Makes (fun _ r => r.outcome) s c) :
    C.pre c.rule c.state := by
  induction act generalizing s with
  | done a => exact hc.elim
  | fail e => exact hc.elim
  | op o next ih =>
    obtain ⟨b, s', ho, hc⟩ := hc
    exact ih b (Contract.Meets.ok h ho) (fun c hc => hcalls c ⟨b, s', ho, hc⟩) hc
  | call r next ih =>
    rcases hc with rfl | ⟨b, s', hr, hc⟩
    · exact h.1
    · have hb := (hcalls ⟨r, s⟩ (.inl rfl) h.1).ok hr
      exact ih b (h.2 b s' hb) (fun c hc => hcalls c (.inr ⟨b, s', hr, hc⟩)) hc

/-- What an act comes to that keeps to a contract, if the rules that it calls keep to it. -/
theorem eval : C.Meets P (act.eval (fun _ r => r.outcome) s) := by
  induction act generalizing s with
  | done a => exact .result h
  | fail e => exact .failure h
  | op o next ih =>
    exact Contract.Meets.bind h fun b s' ho hb => ih b hb fun c hc => hcalls c ⟨b, s', ho, hc⟩
  | call r next ih =>
    refine (hcalls ⟨r, s⟩ (.inl rfl) h.1).bind fun b s' hr hb => ?_
    exact ih b (h.2 b s' hb) fun c hc => hcalls c (.inr ⟨b, s', hr, hc⟩)

end Ensures

end Act

/-! ### Rules -/

namespace Contract

/-- The bodies of all rules keep to the contract where they are reached. What a rule promises has to
be shown only for its outcome. -/
def Holds (C : Contract) (reached : Activation → Prop) : Prop :=
  ∀ c : Activation, reached c → C.pre c.rule c.state → c.rule.body.Ensures C
    (fun a s' => c.rule.outcome c.state = .ok (a, s') → C.post c.rule c.state a s') c.state

/-- The outcome of a rule keeps to the contract. -/
def Kept (C : Contract) (c : Activation) : Prop :=
  C.pre c.rule c.state → C.Meets (C.post c.rule c.state) (c.rule.outcome c.state)

/-- **Rules keep their contract**, if those do of which the bodies are not looked at. -/
theorem Holds.outcome (h : C.Holds reached)
    (hclosed : ∀ c c', reached c → c.Calls (fun _ r => r.outcome) c' → reached c' ∨ C.Kept c')
    (c : Activation) (hc : reached c) : C.Kept c := by
  induction hn : c.rule.measure c.state.tokens.length using Nat.strongRecOn generalizing c with
  | ind n ih =>
    subst hn
    intro hpre
    have hbody := (h c hc hpre).eval fun c' hcalls =>
      (hclosed c c' hc hcalls).elim
        (fun hc' => ih _ (Activation.Calls.below hcalls).2.measure_lt c' hc' rfl) id
    rw [← c.rule.outcome_eq] at hbody
    exact ⟨fun ha => hbody.ok ha ha, hbody.error⟩

/-- Texts that are read by a rule. -/
theorem Kept.onText {r : Rule α} {source : String} {slots : List Slot}
    (h : C.Kept ⟨r, { ParseState.start source with scopes := Scopes.push [] slots }⟩)
    (hpre : C.pre r { ParseState.start source with scopes := Scopes.push [] slots }) :
    (∀ a, Parse.onText r.parse source slots = .ok a →
      ∃ s', C.post r { ParseState.start source with scopes := Scopes.push [] slots } a s') ∧
    ∀ e, Parse.onText r.parse source slots = .error e → C.error e := by
  have hmeets := h hpre
  rw [← r.parse_eq] at hmeets
  unfold Parse.onText
  change (∀ a, Except.map _ (r.parse _) = _ → _) ∧ ∀ e, Except.map _ (r.parse _) = _ → _
  cases hr : r.parse { ParseState.start source with scopes := Scopes.push [] slots } with
  | error e =>
    refine ⟨nofun, ?_⟩
    rintro _ ⟨rfl⟩
    exact hmeets.error hr
  | ok x =>
    refine ⟨?_, nofun⟩
    rintro _ ⟨rfl⟩
    exact ⟨x.2, hmeets.ok hr⟩

end Contract

end BindScript.Parse
