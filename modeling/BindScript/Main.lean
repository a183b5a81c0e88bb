/-
**The command line.**

The files that the arguments name are read, the report on them is made, and its texts are written to
the two streams.
-/

import BindScript.CommandLine.Commands

namespace BindScript.CommandLine

/-- What is found under a path. -/
def findFile (path : String) : IO File := do
  try
    let bytes ← IO.FS.readBinFile path
    match String.fromUTF8? bytes with
    | some text => return .text text
    | none => return .binary
  catch e =>
    match e with
    | .noFileOrDirectory .. => return .absent .noEntry
    | .inappropriateType _ code _ => return if code = 21 then .directory else .absent .notDirectory
    | .invalidArgument .. => return .absent .nameTooLong
    | other => return .unreadable (toString other)

def findFiles (paths : List String) : IO Files := do
  let found ← paths.mapM fun path => do return (path, ← findFile path)
  return fun path => (found.lookup path).getD (.absent .noEntry)

end BindScript.CommandLine

open BindScript.CommandLine in
def main (args : List String) : IO UInt32 := do
  let paths := match parse args with
    | .ok invocation => invocation.files
    | .error _ => []
  let files ← findFiles paths
  let seed ← IO.monoNanosNow
  match respond args files (.ofSeed seed) with
  | some report =>
    IO.print report.stdout
    IO.eprint report.stderr
    return report.exitCode.toUInt32
  | none => throw (IO.userError "the program has not come to its end")
