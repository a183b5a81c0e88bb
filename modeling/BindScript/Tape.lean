/-
**Answers from outside.**

What chance and the clock tell a program cannot be known in advance.  It is taken from a tape, on
which the answers stand in the order in which they are asked for.  Nothing is assumed about them.
-/

namespace BindScript

/-- A list of answers without end, and how many of them have been given. -/
structure Tape (α : Type) where
  answers : Nat → α
  given : Nat

namespace Tape

variable {α : Type}

/-- The next answer. -/
def next (t : Tape α) : α := t.answers t.given

/-- The tape after its next answer. -/
def rest (t : Tape α) : Tape α := { t with given := t.given + 1 }

end Tape

end BindScript
