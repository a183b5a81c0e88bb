/-
**Programs from source.**
-/

import BindScript.Code.Compile
import BindScript.Tree.Parser.Statement

namespace BindScript

/-- The program of a source text. The globals are part of the program. -/
def compileProgram (source : String) (globals : Globals) : Except CompileError Code :=
  (parseProgram source globals).map Block.code

end BindScript
