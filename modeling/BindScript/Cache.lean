/-
**A cache of compiled programs.**

A program is kept under a key made of its source and its globals, since the globals are part of the
compiled program; bindings are kept under their source.  What does not compile is not kept.  Every
kept program has a stamp of its own, so that a program that was kept can be told from the same
program compiled again.
-/

import BindScript.Binding.Parser
import BindScript.Code.Source

namespace BindScript

namespace Cache

/-- Something that is kept, with its stamp. -/
structure Kept (α : Type) where
  stamp : Nat
  content : α

/-- The mark between the parts of a key. -/
def keyMark : Char := Char.ofNat 0

/-- A global as a part of a key. -/
def globalKey (name : String) (value : Value) : String :=
  String.singleton keyMark ++ name ++ ":" ++ value.kind.name ++ "=" ++ value.display

def programKey (source : String) (globals : Globals) : String :=
  source ++ String.join (globals.map fun (name, value) => globalKey name value)

/-- The part of a key before the first mark. -/
def keySource (key : String) : String := String.ofList (key.toList.takeWhile (· != keyMark))

end Cache

/-- A cache: what it keeps, and the next stamp. -/
structure Cache where
  programs : Table (Cache.Kept Code)
  bindingPrograms : Table (Cache.Kept (Bindings Code))
  stamp : Nat

namespace Cache

def empty : Cache := ⟨[], [], 0⟩

def size (c : Cache) : Nat := c.programs.length + c.bindingPrograms.length

/-- The program of a source text, from the cache or compiled and then kept. -/
def program (source : String) (globals : Globals) (c : Cache) :
    Except CompileError (Kept Code) × Cache :=
  let key := programKey source globals
  match c.programs.lookup key with
  | some kept => (.ok kept, c)
  | none =>
    match compileProgram source globals with
    | .error e => (.error e, c)
    | .ok code =>
      let kept := ⟨c.stamp, code⟩
      (.ok kept, { c with programs := c.programs.put key kept, stamp := c.stamp + 1 })

/-- The bindings of a source text, from the cache or compiled and then kept. -/
def bindings (source : String) (c : Cache) : Except CompileError (Kept (Bindings Code)) × Cache :=
  match c.bindingPrograms.lookup source with
  | some kept => (.ok kept, c)
  | none =>
    match compileBindings source with
    | .error e => (.error e, c)
    | .ok code =>
      let kept := ⟨c.stamp, code⟩
      (.ok kept,
        { c with bindingPrograms := c.bindingPrograms.put source kept, stamp := c.stamp + 1 })

/-- Forgets what was compiled from a source text; gives the number of programs forgotten. -/
def invalidate (source : String) (c : Cache) : Nat × Cache :=
  let programs := c.programs.filter fun (key, _) => keySource key != source
  let bindingPrograms := c.bindingPrograms.filter fun (key, _) => key != source
  let rest := { c with programs, bindingPrograms }
  (c.size - rest.size, rest)

def clear (c : Cache) : Cache := { c with programs := [], bindingPrograms := [] }

end Cache

end BindScript
