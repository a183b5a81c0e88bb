/-
**Runs follow the open blocks.**

The frames of a machine that runs an accepted program follow the blocks that are open at its
position.  No freshness of record names is needed for this, as the values of the variables play no
part.

Main results:

* `Scoping.following_kept` — **runs follow the open blocks**.
-/

import BindScript.Proofs.Effects.Rest
import BindScript.Proofs.Scoping.Access

namespace BindScript

/-- What a simple statement makes of frames that follow the blocks that are open before it. -/
theorem Frames.Follow.changes {fresh : Prop} {ctx : Context} {Γ : Scopes} {frames frames' : Frames}
    {b : Block} {before rest : List Stmt} {s : Stmt} {split : b.statements = before ++ s :: rest}
    (hstack : Stack fresh (⟨b, before, s :: rest, split⟩ :: ctx) Γ)
    (h : Follow (⟨b, before, s :: rest, split⟩ :: ctx) frames) (hsimple : s.isSimple = true)
    (hchanges : s.Changes Γ frames frames') (split' : b.statements = (before ++ [s]) ++ rest) :
    Follow (⟨b, before ++ [s], rest, split'⟩ :: ctx) frames' := by
  cases s with
  | declare line name ty init =>
    obtain ⟨v, hdeclare⟩ := hchanges
    exact h.declare hstack split' rfl hdeclare
  | assign line target e =>
    obtain ⟨v, hwrite⟩ := hchanges
    exact (h.write hwrite).next split' rfl
  | perform e =>
    rcases hchanges with rfl | ⟨target, v, -, hwrite⟩
    · exact h.next split' rfl
    · exact (h.write hwrite).next split' rfl
  | _ => simp [Stmt.isSimple] at hsimple

namespace Scoping

open Machine

/-- Frames follow the open blocks, whatever their values are, and errors spare variables. -/
def following (fresh : Prop) : Invariant :=
  ⟨fresh, Frames.Follow, fun _ _ _ => True, RuntimeError.SparesVariables⟩

variable {root : Block} {fresh : Prop} {ctx : Context} {Γ : Scopes} {part : Part} {frames : Frames}

theorem following_governs (hstack : Stack fresh ctx Γ) (htyped : part.Typed fresh Γ)
    (h : Frames.Follow ctx frames) : (following fresh).Governs ctx part frames Γ := by
  have hfound : ∀ target : Place, target.Typed Γ → ∃ c, frames.find? target.name = some c := by
    rintro target ⟨-, slot, hslot, -⟩
    obtain ⟨-, -, -, -, c, -, -, -, -, -, -, -, hc⟩ := h.resolves hstack.shows hslot
    exact ⟨c, hc⟩
  refine ⟨htyped, lawful_plain hfound, ?_, ?_⟩
  · intro hne
    obtain ⟨o, outer, rfl⟩ := List.exists_cons_of_ne_nil hne
    obtain ⟨f, outer, rfl, -⟩ := h.exists_cons
    exact stores_plain hfound (by simp)
  · rintro b before rest s split outer frames' split' rfl rfl hsimple hperforms
    exact h.changes hstack hsimple hperforms.changes split'

/-- **Runs follow the open blocks.** -/
theorem following_kept (hroot : root.Opens fresh []) : (following fresh).Kept root where
  governs hsite h := by
    obtain ⟨Γ, hstack, htyped⟩ := hsite.typed hroot
    exact ⟨Γ, following_governs hstack htyped h⟩
  past split' hs h := h.next split' hs
  enter hsite h := by
    obtain ⟨Γ, -, hopens⟩ := hsite.typed hroot
    exact h.enter (hopens.typed.distinct hopens.distinct)
  leave h := h.leave

end Scoping

end BindScript
