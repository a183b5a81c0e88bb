/-
**Hosts.**

A host is the environment that a program runs in: it gives values to the names that a program marks
with `@`, and it can take over the call of a function.
-/

import BindScript.RuntimeError

namespace BindScript

/-- A host whose state is of type `σ`. -/
structure Host (σ : Type) where
  resolve : String → σ → Except RuntimeError Value × σ
  /-- A function call, or none if the host leaves it to the catalog. -/
  call : String → List Value → σ → Option (Except RuntimeError Value × σ)

/-- The host of programs that stand alone: it has no names and no functions. -/
def Host.plain : Host Unit where
  resolve name s := (.error (.unsupported ("@" ++ name)), s)
  call _ _ _ := none

end BindScript
