/-
**Emitting code by backpatching.**

Code can be emitted front to back, behind code that is there already.  A jump is then emitted
before its target is known: it stands with a placeholder until the code in between has been
emitted, and is patched at the index that was noted for it.  The header of a block waits for its
count in the same way.

Nothing in this asks for a tree that makes sense.  A node here is any node in any place: a loop may
stand as an operand, a call may have any name, and the target of an assignment need not be a place.
Lines and types are left out, as no code comes from them.

Emitting is compared with the code for a position, which knows every length from the start.  The
two agree: emitting leaves the code before it as it is, no patch misses, and what is appended is
the code for the position at which it stands.

Main results:

* `Node.emit_eq` — what is emitted;
* `Expr.codeAt_node`, `Stmt.codeAt_node`, `Block.codeAt_node` — for the nodes of programs it is
  their code.
-/

import BindScript.Code.Compile

namespace BindScript

/-! ### Nodes -/

mutual

/-- A node of a tree, with any nodes in it. -/
inductive Node where
  | literal (value : Value)
  | load (place : Place)
  | host (name : String)
  | negate (logical : Bool) (operand : Node)
  | binary (op : Operator) (left right : Node)
  | select (condition yes no : Node)
  | branch (condition : Node) (yes : Body) (no : Option Body)
  | loop (condition : Node) (body : Body)
  | block (body : Body)
  | declare (name : String) (init : Option Node)
  | assign (target value : Node)
  | call (name : String) (args : List Node)

/-- Nodes one after the other, and the variables that are declared directly among them. -/
inductive Body where
  | mk (slots : List Slot) (statements : List Node)

end

/-- The name that an assignment to a node writes. What is no place has the empty name. -/
def Node.target : Node → String
  | .load place => place.fullName
  | _ => ""

mutual

/-- The code of a node, for the position at which it will stand. -/
def Node.codeAt (position : Nat) : Node → Code
  | .literal v => [v.instruction]
  | .load place => [.load place.fullName]
  | .host name => [.loadHost name]
  | .negate _ operand => .negate :: operand.codeAt (position + 1)
  | .binary op left right =>
    let l := left.codeAt (position + 1)
    .binary op :: (l ++ right.codeAt (position + 1 + l.length))
  | .select condition yes no =>
    let c := condition.codeAt (position + 1)
    let y := yes.codeAt (position + 1 + c.length)
    let otherwise := position + 1 + c.length + y.length
    let n := no.codeAt otherwise
    .select otherwise (otherwise + n.length) :: (c ++ y ++ n)
  | .branch condition yes none =>
    let c := condition.codeAt (position + 1)
    let y := yes.codeAt (position + 1 + c.length)
    .jumpIfFalse (position + 1 + c.length + y.length) :: (c ++ y)
  | .branch condition yes (some no) =>
    let c := condition.codeAt (position + 1)
    let y := yes.codeAt (position + 1 + c.length)
    let otherwise := position + 1 + c.length + y.length + 1
    let n := no.codeAt otherwise
    .jumpIfFalse otherwise :: (c ++ y ++ .jump (otherwise + n.length) :: n)
  | .loop condition body =>
    let c := condition.codeAt (position + 1)
    let b := body.codeAt (position + 1 + c.length)
    .jumpIfFalse (position + 1 + c.length + b.length + 1) :: (c ++ b ++ [.jump position])
  | .block body => body.codeAt position
  | .declare name none => [.declare name false]
  | .declare name (some init) => .declare name true :: init.codeAt (position + 1)
  | .assign target value => .assign target.target :: value.codeAt (position + 1)
  | .call name args => .call name args.length :: codeOfNodes (position + 1) args

def Body.codeAt (position : Nat) : Body → Code
  | .mk slots statements =>
    let inside := codeOfNodes (position + 1) statements
    .block inside.length slots :: inside

def codeOfNodes (position : Nat) : List Node → Code
  | [] => []
  | n :: ns =>
    let c := n.codeAt position
    c ++ codeOfNodes (position + c.length) ns

end

/-! ### Programs as nodes -/

mutual

def Expr.node : Expr → Node
  | .literal _ v => .literal v
  | .load place => .load place
  | .host _ name => .host name
  | .negate _ logical operand => .negate logical operand.node
  | .binary _ op _ left right => .binary op left.node right.node
  | .select _ _ condition yes no => .select condition.node yes.node no.node
  | .call _ function _ args => .call function.name (Expr.nodes args)

def Expr.nodes : List Expr → List Node
  | [] => []
  | e :: es => e.node :: Expr.nodes es

end

mutual

def Stmt.node : Stmt → Node
  | .branch _ condition yes none => .branch condition.node yes.node none
  | .branch _ condition yes (some no) => .branch condition.node yes.node (some no.node)
  | .loop _ condition body => .loop condition.node body.node
  | .block _ body => .block body.node
  | .declare _ name _ init => .declare name (init.map Expr.node)
  | .assign _ place value => .assign (.load place) value.node
  | .perform call => call.node

def Block.node : Block → Body
  | .mk slots _ statements => .mk slots (Stmt.nodes statements)

def Stmt.nodes : List Stmt → List Node
  | [] => []
  | s :: ss => s.node :: Stmt.nodes ss

end

theorem Expr.nodes_eq_map (es : List Expr) : Expr.nodes es = es.map Expr.node := by
  induction es with
  | nil => rfl
  | cons e es ih => rw [Expr.nodes, ih, List.map_cons]

mutual

theorem Expr.codeAt_node (p : Nat) (e : Expr) : e.node.codeAt p = e.codeAt p := by
  match e with
  | .literal _ _ | .load _ | .host _ _ => simp only [Expr.node, Node.codeAt, Expr.codeAt]
  | .negate _ _ operand => simp only [Expr.node, Node.codeAt, Expr.codeAt, codeAt_node _ operand]
  | .binary _ _ _ left right =>
    simp only [Expr.node, Node.codeAt, Expr.codeAt, codeAt_node _ left, codeAt_node _ right]
  | .select _ _ condition yes no =>
    simp only [Expr.node, Node.codeAt, Expr.codeAt, codeAt_node _ condition, codeAt_node _ yes,
      codeAt_node _ no]
  | .call _ _ _ args =>
    have hlength : (Expr.nodes args).length = args.length := by
      rw [Expr.nodes_eq_map, List.length_map]
    simp only [Expr.node, Node.codeAt, Expr.codeAt, codeOfNodes_nodes _ args, hlength]

theorem Expr.codeOfNodes_nodes (p : Nat) (es : List Expr) :
    codeOfNodes p (Expr.nodes es) = Expr.codeOfAll p es := by
  match es with
  | [] => simp only [Expr.nodes, codeOfNodes, Expr.codeOfAll]
  | e :: es =>
    simp only [Expr.nodes, codeOfNodes, Expr.codeOfAll, codeAt_node _ e, codeOfNodes_nodes _ es]

end

mutual

theorem Stmt.codeAt_node (p : Nat) (s : Stmt) : s.node.codeAt p = s.codeAt p := by
  match s with
  | .branch _ condition yes none =>
    simp only [Stmt.node, Node.codeAt, Stmt.codeAt, condition.codeAt_node, Block.codeAt_node _ yes]
  | .branch _ condition yes (some no) =>
    simp only [Stmt.node, Node.codeAt, Stmt.codeAt, condition.codeAt_node, Block.codeAt_node _ yes,
      Block.codeAt_node _ no]
  | .loop _ condition body =>
    simp only [Stmt.node, Node.codeAt, Stmt.codeAt, condition.codeAt_node, Block.codeAt_node _ body]
  | .block _ body => simp only [Stmt.node, Node.codeAt, Stmt.codeAt, Block.codeAt_node _ body]
  | .declare _ name _ none => simp [Stmt.node, Node.codeAt, Stmt.codeAt, initCode]
  | .declare _ name _ (some init) =>
    simp [Stmt.node, Node.codeAt, Stmt.codeAt, initCode, init.codeAt_node]
  | .assign _ place value =>
    simp only [Stmt.node, Node.codeAt, Stmt.codeAt, Node.target, value.codeAt_node]
  | .perform call => simp only [Stmt.node, Stmt.codeAt, call.codeAt_node]

theorem Block.codeAt_node (p : Nat) (b : Block) : b.node.codeAt p = b.codeAt p := by
  match b with
  | .mk slots _ statements =>
    simp only [Block.node, Body.codeAt, Block.codeAt, Stmt.codeOfNodes_nodes _ statements]

theorem Stmt.codeOfNodes_nodes (p : Nat) (ss : List Stmt) :
    codeOfNodes p (Stmt.nodes ss) = codeOfStatements p ss := by
  match ss with
  | [] => simp only [Stmt.nodes, codeOfNodes, codeOfStatements]
  | s :: ss =>
    simp only [Stmt.nodes, codeOfNodes, codeOfStatements, Stmt.codeAt_node _ s,
      Stmt.codeOfNodes_nodes _ ss]

end

/-! ### Patches -/

namespace Instruction

/-- The instruction with the positions that it names moved. The count of a block is no position. -/
def shift (k : Nat) : Instruction → Instruction
  | .jumpIfFalse target => .jumpIfFalse (target + k)
  | .jump target => .jump (target + k)
  | .select otherwise stop => .select (otherwise + k) (stop + k)
  | i => i

/-- A jump with its target filled in. -/
def withTarget (target : Nat) : Instruction → Instruction
  | .jumpIfFalse _ => .jumpIfFalse target
  | .jump _ => .jump target
  | i => i

def withTargets (otherwise stop : Nat) : Instruction → Instruction
  | .select _ _ => .select otherwise stop
  | i => i

/-- The header of a block with its count filled in. -/
def withCount (count : Nat) : Instruction → Instruction
  | .block _ slots => .block count slots
  | i => i

end Instruction

theorem Value.shift_instruction (v : Value) (k : Nat) : v.instruction.shift k = v.instruction := by
  cases v <;> rfl

/-- Lets the jump at an index go to the end of the code. -/
def Code.patchJump (code : Code) (index : Nat) : Code :=
  code.modify index (.withTarget code.length)

/-- A patch at the index at which an instruction was appended. -/
theorem Code.modify_append (code rest : Code) (i : Instruction) (f : Instruction → Instruction) :
    (code ++ i :: rest).modify code.length f = code ++ f i :: rest := by
  induction code with
  | nil => rfl
  | cons j code ih =>
    rw [List.cons_append, List.length_cons, List.modify_succ_cons, ih, List.cons_append]

theorem Code.patchJump_append {code rest : Code} {i : Instruction} {index stop : Nat}
    (hindex : index = code.length) (hstop : stop = code.length + 1 + rest.length) :
    Code.patchJump (code ++ i :: rest) index = code ++ i.withTarget stop :: rest := by
  have hlength : (code ++ i :: rest).length = stop := by
    rw [List.length_append, List.length_cons, hstop]
    omega
  rw [Code.patchJump, hlength, hindex, Code.modify_append]

/-! ### Emitting -/

mutual

/-- Emits a node behind the code that is there. -/
def Node.emit (code : Code) : Node → Code
  | .literal v => code ++ [v.instruction]
  | .load place => code ++ [.load place.fullName]
  | .host name => code ++ [.loadHost name]
  | .negate _ operand => operand.emit (code ++ [.negate])
  | .binary op left right => right.emit (left.emit (code ++ [.binary op]))
  | .select condition yes no =>
    let c := yes.emit (condition.emit (code ++ [.select 0 0]))
    let d := no.emit c
    d.modify code.length (.withTargets c.length d.length)
  | .branch condition yes none =>
    (yes.emit (condition.emit (code ++ [.jumpIfFalse 0]))).patchJump code.length
  | .branch condition yes (some no) =>
    let c := yes.emit (condition.emit (code ++ [.jumpIfFalse 0]))
    let d := Code.patchJump (c ++ [.jump 0]) code.length
    (no.emit d).patchJump c.length
  | .loop condition body =>
    let c := body.emit (condition.emit (code ++ [.jumpIfFalse 0]))
    Code.patchJump (c ++ [.jump code.length]) code.length
  | .block body => body.emit code
  | .declare name none => code ++ [.declare name false]
  | .declare name (some init) => init.emit (code ++ [.declare name true])
  | .assign target value => value.emit (code ++ [.assign target.target])
  | .call name args => emitNodes (code ++ [.call name args.length]) args

def Body.emit (code : Code) : Body → Code
  | .mk slots statements =>
    let c := emitNodes (code ++ [.block 0 slots]) statements
    c.modify code.length (.withCount (c.length - code.length - 1))

def emitNodes (code : Code) : List Node → Code
  | [] => code
  | n :: ns => emitNodes (n.emit code) ns

end

/-! ### What is emitted -/

/-- A placeholder, and behind it a condition and the body that depends on it. -/
theorem emit_guarded (code : Code) (i : Instruction) {condition : Node} {b : Body}
    (hcondition : ∀ code, condition.emit code = code ++ condition.codeAt code.length)
    (hb : ∀ code, b.emit code = code ++ b.codeAt code.length) :
    b.emit (condition.emit (code ++ [i])) = code ++ i :: (condition.codeAt (code.length + 1) ++
      b.codeAt (code.length + 1 + (condition.codeAt (code.length + 1)).length)) := by
  have hlength : (code ++ [i]).length = code.length + 1 := List.length_append
  rw [hcondition, hb, hlength, List.length_append, hlength, List.append_assoc, List.append_assoc,
    List.singleton_append]

/-- The alternative of a branch. The jump over it stands before its body, and is patched after it;
the jump to it is patched in between. -/
theorem emit_alternative (code guarded : Code) {b : Body} {otherwise : Nat}
    (hb : ∀ code, b.emit code = code ++ b.codeAt code.length)
    (hotherwise : otherwise = code.length + 1 + guarded.length + 1) :
    (b.emit (Code.patchJump (code ++ .jumpIfFalse 0 :: guarded ++ [.jump 0]) code.length)).patchJump
        (code ++ .jumpIfFalse 0 :: guarded).length =
      code ++ .jumpIfFalse otherwise ::
        (guarded ++ .jump (otherwise + (b.codeAt otherwise).length) :: b.codeAt otherwise) := by
  let first : Code := code ++ .jumpIfFalse otherwise :: guarded
  have hfirst (target : Nat) : (code ++ Instruction.jumpIfFalse target :: guarded).length =
      code.length + 1 + guarded.length := by
    rw [List.length_append, List.length_cons]
    omega
  -- the index noted for the first jump is still right: nothing is ever put in before it
  have hto : Code.patchJump (code ++ .jumpIfFalse 0 :: guarded ++ [.jump 0]) code.length =
      first ++ [.jump 0] := by
    rw [List.append_assoc, List.cons_append, List.append_assoc, List.cons_append]
    exact Code.patchJump_append rfl (by rw [hotherwise, List.length_append]; rfl)
  have hlength : (first ++ [Instruction.jump 0]).length = otherwise := by
    rw [List.length_append, hfirst, hotherwise]
    rfl
  have hover : Code.patchJump (first ++ .jump 0 :: b.codeAt otherwise)
        (code ++ .jumpIfFalse 0 :: guarded).length =
      first ++ .jump (otherwise + (b.codeAt otherwise).length) :: b.codeAt otherwise :=
    Code.patchJump_append (by rw [hfirst, hfirst]) (by rw [hfirst, hotherwise])
  rw [hto, hb, hlength, List.append_assoc, List.singleton_append, hover, List.append_assoc,
    List.cons_append]

mutual

/-- What is emitted for a node is its code for the position at which it stands. -/
theorem Node.emit_eq (code : Code) (n : Node) : n.emit code = code ++ n.codeAt code.length := by
  match n with
  | .literal _ | .load _ | .host _ | .declare _ none => simp only [Node.emit, Node.codeAt]
  | .negate _ operand => simp [Node.emit, Node.codeAt, Node.emit_eq _ operand]
  | .binary op left right =>
    simp [Node.emit, Node.codeAt, Node.emit_eq _ left, Node.emit_eq _ right, Nat.add_assoc,
      Nat.add_comm 1]
  | .select condition yes no =>
    simp [Node.emit, Node.codeAt, Node.emit_eq _ condition, Node.emit_eq _ yes, Node.emit_eq _ no,
      Code.modify_append, Instruction.withTargets, Nat.add_assoc, Nat.add_comm 1]
  | .branch condition yes none =>
    simp only [Node.emit, Node.codeAt,
      emit_guarded code _ (Node.emit_eq · condition) (Body.emit_eq · yes)]
    exact Code.patchJump_append rfl (by rw [List.length_append]; omega)
  | .branch condition yes (some no) =>
    simp only [Node.emit, Node.codeAt,
      emit_guarded code _ (Node.emit_eq · condition) (Body.emit_eq · yes)]
    exact emit_alternative code _ (Body.emit_eq · no) (by rw [List.length_append]; omega)
  | .loop condition body =>
    simp only [Node.emit, Node.codeAt,
      emit_guarded code _ (Node.emit_eq · condition) (Body.emit_eq · body)]
    rw [List.append_assoc, List.cons_append]
    refine Code.patchJump_append rfl ?_
    simp only [List.length_append, List.length_singleton]
    omega
  | .block body => simp only [Node.emit, Node.codeAt, Body.emit_eq code body]
  | .declare _ (some init) => simp [Node.emit, Node.codeAt, Node.emit_eq _ init]
  | .assign target value => simp [Node.emit, Node.codeAt, Node.emit_eq _ value]
  | .call name args => simp [Node.emit, Node.codeAt, emitNodes_eq _ args]

theorem Body.emit_eq (code : Code) (b : Body) : b.emit code = code ++ b.codeAt code.length := by
  match b with
  | .mk slots statements =>
    simp [Body.emit, Body.codeAt, emitNodes_eq _ statements, Code.modify_append,
      Instruction.withCount]

theorem emitNodes_eq (code : Code) (ns : List Node) :
    emitNodes code ns = code ++ codeOfNodes code.length ns := by
  match ns with
  | [] => rw [emitNodes, codeOfNodes, List.append_nil]
  | n :: ns => simp [emitNodes, codeOfNodes, Node.emit_eq _ n, emitNodes_eq _ ns]

end

end BindScript
