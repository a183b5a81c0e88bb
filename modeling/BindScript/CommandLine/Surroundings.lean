/-
**What programs are told from outside.**

The command line has a source of chance and clocks for the programs that it runs.  Numbers are drawn
from a seed on.  There is no other time than that of the programs: a clock lets them fetch so many
instructions for each millisecond.
-/

import BindScript.Machine.State

namespace BindScript.CommandLine

/-- What programs are told from outside, and how much fuel each of them gets. -/
structure Surroundings where
  draws : Tape Nat
  /-- The clocks for programs with a limit, one for each. -/
  clocks : Duration → Tape (Tape Bool)
  fuel : Nat

/-- The numbers that are drawn from a seed on: words of 64 bits at equal distances, with their upper
half mixed into the lower one. -/
def drawsFrom (seed : Nat) : Tape Nat :=
  let word n := (seed + n * 0x9e3779b97f4a7c15) * 0xbf58476d1ce4e5b9 % 0x10000000000000000
  ⟨fun n => word n ^^^ (word n >>> 32), 0⟩

def clocksFor (limit : Duration) : Tape (Tape Bool) :=
  let clock : Tape Bool := ⟨fun fetches => limit.milliseconds * 10000 ≤ fetches, 0⟩
  ⟨fun _ => clock, 0⟩

/-- The surroundings of a seed, with more fuel than any program uses up. -/
def Surroundings.ofSeed (seed : Nat) : Surroundings :=
  ⟨drawsFrom seed, clocksFor, 0x4000000000000000⟩

/-- The limit of a program that is given so much time. -/
def Surroundings.limit (outside : Surroundings) (span : Duration) : Limit :=
  Limit.ofSpan span (outside.clocks span).next

end BindScript.CommandLine
