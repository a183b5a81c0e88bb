/-
**Files as commands see them.**

A command reads the files that its arguments name.  What it sees of a file system is the function
that says what is found under a path.  In a directory, a path is followed step by step: an empty
step and `.` stay where they are, `..` goes back, and any other step goes to the entry of that name.
Only a directory can be gone on from.
-/

import BindScript.Failure

namespace BindScript

/-- Why nothing is found under a path. -/
inductive Absence where
  | noEntry
  /-- The path goes on after a file. -/
  | notDirectory
  | nameTooLong
  deriving DecidableEq

def Absence.message : Absence → String
  | .noEntry => "No such file or directory (os error 2)"
  | .notDirectory => "Not a directory (os error 20)"
  | .nameTooLong => "File name too long (os error 36)"

/-- What is found under a path. -/
inductive File where
  | absent (why : Absence)
  | text (s : String)
  | directory
  /-- A file that is not UTF-8. -/
  | binary
  /-- A file that cannot be read for another reason. -/
  | unreadable (why : String)
  deriving DecidableEq

/-- What is found under every path. -/
abbrev Files := String → File

/-- The text of a file, or why it has none. -/
def File.read : File → Except String String
  | .text s => .ok s
  | .absent why => .error why.message
  | .directory => .error "Is a directory (os error 21)"
  | .binary => .error "stream did not contain valid UTF-8"
  | .unreadable why => .error why

/-! ### Directories -/

/-- A directory with texts in it, each under its path from there. -/
abbrev Directory := List (String × String)

namespace Directory

/-- The greatest number of bytes in a name. -/
def maxNameSize : Nat := 255

/-- The greatest number of bytes in a path. -/
def maxPathSize : Nat := 4095

/-- What is found where the given names lead. A name leads to a directory if there is something in
it. -/
def entry (d : Directory) (names : List String) : File :=
  match d.find? fun f => f.1.splitOn "/" == names with
  | some (_, s) => .text s
  | none =>
    if names.isEmpty || d.any fun f => names.isPrefixOf (f.1.splitOn "/") then .directory
    else .absent .noEntry

/-- What is found outside: a way back leads to a directory, and nothing else is known. -/
def outside (steps : List String) : File :=
  if steps.all fun s => s == "" || s == "." || s == ".." then .directory else .absent .noEntry

/-- What is found by taking steps from where the given names lead. -/
def follow (d : Directory) : List String → List String → File
  | names, [] => d.entry names
  | names, step :: steps =>
    match d.entry names with
    | .directory =>
      if step == "" || step == "." then follow d names steps
      else if step == ".." then
        if names.isEmpty then outside steps else follow d names.dropLast steps
      else if step.utf8ByteSize > maxNameSize then .absent .nameTooLong
      else follow d (names ++ [step]) steps
    | .absent why => .absent why
    | _ => .absent .notDirectory

/-- What is found under a path. -/
def find (d : Directory) (path : String) : File :=
  if path.isEmpty then .absent .noEntry
  else if path.utf8ByteSize > maxPathSize then .absent .nameTooLong
  else
    match path.splitOn "/" with
    | "" :: steps => outside steps
    | steps => d.follow [] steps

end Directory

end BindScript
