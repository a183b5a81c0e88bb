/-
**How compiled code is nested.**

The code of a node is made of pieces, one after the other: instructions of its own, and the code of
the nodes directly in it.  All positions that compiled code names come from this.  A node names the
start or the end of a piece, or its own start or end, and so a jump stays in the node that it
belongs to.

Main results:

* `Node.codeAt_add` — **code does not depend on its position**, except for its targets;
* `Node.validate_codeAt`, `Node.argc_lt`, `Node.count_lt` — **compiled programs are valid**, and the
  numbers in them;
* `Node.emit_nested` — **backpatching is well nested and independent of the position**.
-/

import BindScript.Proofs.Code.Backpatching
import BindScript.Proofs.Code.Positions
import BindScript.Proofs.Machine.Segment

namespace BindScript

/-- The positions that an instruction names; the count of a block names its end. -/
def Instruction.targets (position : Nat) : Instruction → List Nat
  | .jumpIfFalse target | .jump target => [target]
  | .select otherwise stop => [otherwise, stop]
  | .block count _ => [position + 1 + count]
  | _ => []

namespace Node

/-- The position just past the code of a node. -/
def stop (position : Nat) (n : Node) : Nat := position + (n.codeAt position).length

/-! ### Pieces -/

/-- A piece of the code of a node: an instruction of its own, or a node directly in it. -/
inductive Piece where
  | own (i : Instruction)
  | node (n : Node)

namespace Piece

/-- The code of a piece, for the position at which it will stand. -/
def codeAt (position : Nat) : Piece → Code
  | .own i => [i]
  | .node n => n.codeAt position

def stop (position : Nat) (x : Piece) : Nat := position + (x.codeAt position).length

end Piece

/-- Pieces one after the other, each with its position. -/
def layout : Nat → List Piece → List (Nat × Piece)
  | _, [] => []
  | p, x :: xs => (p, x) :: layout (x.stop p) xs

def codeOfPieces : Nat → List Piece → Code
  | _, [] => []
  | p, x :: xs => x.codeAt p ++ codeOfPieces (x.stop p) xs

section Layout

variable {p q j : Nat} {x : Piece} {xs : List Piece}

theorem mem_of_mem_layout (h : (q, x) ∈ layout p xs) : x ∈ xs := by
  induction xs generalizing p with
  | nil => exact absurd h List.not_mem_nil
  | cons y ys ih =>
    rcases List.mem_cons.1 h with heq | h
    · rw [(Prod.mk.inj heq).2]
      exact List.mem_cons_self
    · exact List.mem_cons_of_mem y (ih h)

/-- The pieces stand at their positions wherever their code does. -/
theorem at_of_mem_layout {program : Array Instruction}
    (hcode : Code.At program p (codeOfPieces p xs)) (h : (q, x) ∈ layout p xs) :
    Code.At program q (x.codeAt q) := by
  induction xs generalizing p with
  | nil => exact absurd h List.not_mem_nil
  | cons y ys ih =>
    obtain ⟨hy, hys⟩ := Code.at_append.1 hcode
    rcases List.mem_cons.1 h with heq | h
    · cases heq
      exact hy
    · exact ih hys h

theorem layout_within (h : (q, x) ∈ layout p xs) :
    p ≤ q ∧ x.stop q ≤ p + (codeOfPieces p xs).length := by
  induction xs generalizing p with
  | nil => exact absurd h List.not_mem_nil
  | cons y ys ih =>
    rw [codeOfPieces, List.length_append, ← Nat.add_assoc]
    rcases List.mem_cons.1 h with heq | h
    · cases heq
      exact ⟨Nat.le_refl _, Nat.le_add_right _ _⟩
    · obtain ⟨hstart, hstop⟩ := ih h
      exact ⟨Nat.le_trans (Nat.le_add_right _ _) hstart, hstop⟩

theorem exists_mem_layout (hstart : p ≤ j) (hstop : j < p + (codeOfPieces p xs).length) :
    ∃ q x, (q, x) ∈ layout p xs ∧ q ≤ j ∧ j < x.stop q := by
  induction xs generalizing p with
  | nil => exact absurd hstop (Nat.not_lt.2 hstart)
  | cons y ys ih =>
    rw [codeOfPieces, List.length_append, ← Nat.add_assoc] at hstop
    by_cases hy : j < y.stop p
    · exact ⟨p, y, List.mem_cons_self, hstart, hy⟩
    · obtain ⟨q, x, hx, hwithin⟩ := ih (Nat.not_lt.1 hy) hstop
      exact ⟨q, x, List.mem_cons_of_mem _ hx, hwithin⟩

end Layout

/-- The pieces of a node that stands at a position. A body is a block in its place. -/
def pieces (p : Nat) : Node → List Piece
  | .literal v => [.own v.instruction]
  | .load place => [.own (.load place.fullName)]
  | .host name => [.own (.loadHost name)]
  | .negate _ operand => [.own .negate, .node operand]
  | .binary op left right => [.own (.binary op), .node left, .node right]
  | .select condition yes no =>
    let otherwise := yes.stop (condition.stop (p + 1))
    [.own (.select otherwise (no.stop otherwise)), .node condition, .node yes, .node no]
  | .branch condition yes none =>
    [.own (.jumpIfFalse ((Node.block yes).stop (condition.stop (p + 1)))), .node condition,
      .node (.block yes)]
  | .branch condition yes (some no) =>
    let otherwise := (Node.block yes).stop (condition.stop (p + 1)) + 1
    [.own (.jumpIfFalse otherwise), .node condition, .node (.block yes),
      .own (.jump ((Node.block no).stop otherwise)), .node (.block no)]
  | .loop condition body =>
    [.own (.jumpIfFalse ((Node.block body).stop (condition.stop (p + 1)) + 1)), .node condition,
      .node (.block body), .own (.jump p)]
  | .block (.mk slots statements) =>
    .own (.block (codeOfNodes (p + 1) statements).length slots) :: statements.map .node
  | .declare name init => .own (.declare name init.isSome) :: init.toList.map .node
  | .assign target value => [.own (.assign target.target), .node value]
  | .call name args => .own (.call name args.length) :: args.map .node

/-- The pieces of a node with their positions. -/
def placed (p : Nat) (n : Node) : List (Nat × Piece) := layout p (n.pieces p)

theorem codeOfNodes_eq_pieces (p : Nat) (ns : List Node) :
    codeOfNodes p ns = codeOfPieces p (ns.map .node) := by
  induction ns generalizing p with
  | nil => simp only [codeOfNodes, List.map_nil, codeOfPieces]
  | cons n ns ih =>
    rw [codeOfNodes, ih]
    rfl

theorem codeOfPieces_nil (p : Nat) : codeOfPieces p [] = [] := rfl

theorem codeOfPieces_own (p : Nat) (i : Instruction) (xs : List Piece) :
    codeOfPieces p (.own i :: xs) = i :: codeOfPieces (p + 1) xs := rfl

theorem codeOfPieces_node (p : Nat) (n : Node) (xs : List Piece) :
    codeOfPieces p (.node n :: xs) = n.codeAt p ++ codeOfPieces (n.stop p) xs := rfl

theorem codeAt_eq_pieces (p : Nat) (n : Node) : n.codeAt p = codeOfPieces p (n.pieces p) := by
  cases n with
  | call name args => simp only [pieces, codeAt, codeOfNodes_eq_pieces, codeOfPieces_own]
  | block body =>
    cases body
    simp only [pieces, codeAt, Body.codeAt, codeOfPieces_own, ← codeOfNodes_eq_pieces]
  | branch condition yes no =>
    cases no <;> simp [pieces, codeAt, codeOfPieces_own, codeOfPieces_node, codeOfPieces_nil, stop]
  | declare name init =>
    cases init <;> simp [pieces, codeAt, codeOfPieces_own, codeOfPieces_node, codeOfPieces_nil]
  | _ => simp [pieces, codeAt, codeOfPieces_own, codeOfPieces_node, codeOfPieces_nil, stop]

theorem stop_eq_pieces (p : Nat) (n : Node) :
    n.stop p = p + (codeOfPieces p (n.pieces p)).length := by
  rw [stop, codeAt_eq_pieces]

theorem placed_within {p q : Nat} {n : Node} {x : Piece} (h : (q, x) ∈ n.placed p) :
    p ≤ q ∧ x.stop q ≤ n.stop p := by
  rw [stop_eq_pieces]
  exact layout_within h

theorem sizeOf_pos (n : Node) : 0 < sizeOf n := by
  cases n <;> simp <;> omega

theorem sizeOf_lt {p : Nat} {n m : Node} (hpiece : .node m ∈ n.pieces p) : sizeOf m < sizeOf n := by
  cases n with
  | call name args =>
    have hmem : m ∈ args := by simpa [pieces] using hpiece
    have := List.sizeOf_lt_of_mem hmem
    simp
    omega
  | block body =>
    cases body with
    | mk slots statements =>
      have hmem : m ∈ statements := by simpa [pieces] using hpiece
      have := List.sizeOf_lt_of_mem hmem
      simp
      omega
  | branch condition yes no =>
    have := condition.sizeOf_pos
    cases no <;> grind [pieces]
  | loop condition body =>
    have := condition.sizeOf_pos
    grind [pieces]
  | declare name init => cases init <;> grind [pieces]
  | _ => grind [pieces]

/-! ### Other positions -/

/-- The piece with the positions that it names moved. -/
def Piece.shift (k : Nat) : Piece → Piece
  | .own i => .own (i.shift k)
  | .node n => .node n

/-- The code of a node moves with it. -/
def Moves (k : Nat) (n : Node) : Prop := ∀ p, n.codeAt (p + k) = (n.codeAt p).map (.shift k)

theorem Moves.stop {k : Nat} {n : Node} (h : n.Moves k) (p : Nat) :
    n.stop (p + k) = n.stop p + k := by
  rw [Node.stop, h, List.length_map, Node.stop, Nat.add_right_comm]

theorem codeOfPieces_add {k : Nat} {xs : List Piece} (h : ∀ m, .node m ∈ xs → m.Moves k) (p : Nat) :
    codeOfPieces (p + k) (xs.map (.shift k)) = (codeOfPieces p xs).map (.shift k) := by
  induction xs generalizing p with
  | nil => rfl
  | cons x xs ih =>
    have ih := ih (fun m hm => h m (List.mem_cons_of_mem _ hm)) (x.stop p)
    rw [List.map_cons, codeOfPieces, codeOfPieces, List.map_append, ← ih]
    cases x with
    | own i => rw [Piece.stop, Piece.codeAt, Nat.add_right_comm]; rfl
    | node m =>
      have hm := h m List.mem_cons_self
      exact congr (congrArg _ (hm p)) (congrArg (codeOfPieces · _) (hm.stop p))

theorem pieces_add {k : Nat} {n : Node} (p : Nat) (h : ∀ m, .node m ∈ n.pieces p → m.Moves k) :
    n.pieces (p + k) = (n.pieces p).map (.shift k) := by
  cases n with
  | literal v => simp [pieces, Piece.shift, Value.shift_instruction]
  | select condition yes no =>
    have hcondition := (h condition (by simp [pieces])).stop
    have hyes := (h yes (by simp [pieces])).stop
    have hno := (h no (by simp [pieces])).stop
    simp [pieces, Piece.shift, Instruction.shift, Nat.add_right_comm _ k, hcondition, hyes, hno]
  | branch condition yes no =>
    have hcondition := (h condition (by cases no <;> simp [pieces])).stop
    have hyes := (h (.block yes) (by cases no <;> simp [pieces])).stop
    cases no with
    | none =>
      simp [pieces, Piece.shift, Instruction.shift, Nat.add_right_comm _ k, hcondition, hyes]
    | some no =>
      have hno := (h (.block no) (by simp [pieces])).stop
      simp [pieces, Piece.shift, Instruction.shift, Nat.add_right_comm _ k, hcondition, hyes, hno]
  | loop condition body =>
    have hcondition := (h condition (by simp [pieces])).stop
    have hbody := (h (.block body) (by simp [pieces])).stop
    simp [pieces, Piece.shift, Instruction.shift, Nat.add_right_comm _ k, hcondition, hbody]
  | block body =>
    cases body with
    | mk slots statements =>
      -- the header counts the instructions after it, which moving does not change
      have hadd := congrArg List.length
        (codeOfPieces_add (fun m hm => h m (List.mem_cons_of_mem _ hm)) (p + 1))
      simp only [List.map_map, Function.comp_def, Piece.shift, ← codeOfNodes_eq_pieces,
        List.length_map] at hadd
      simp [pieces, Piece.shift, Instruction.shift, Nat.add_right_comm _ k, hadd]
  | _ => simp [pieces, Piece.shift, Instruction.shift]

/-- **Code does not depend on its position**, except for its targets. -/
theorem codeAt_add (p k : Nat) (n : Node) : n.codeAt (p + k) = (n.codeAt p).map (.shift k) := by
  have hinside : ∀ m, .node m ∈ n.pieces p → m.Moves k := by
    intro m hm q
    have hsize := sizeOf_lt hm
    exact codeAt_add q k m
  rw [codeAt_eq_pieces, codeAt_eq_pieces, pieces_add p hinside, codeOfPieces_add hinside]
termination_by sizeOf n

/-! ### Nodes inside -/

/-- The second node is the first one or stands somewhere in it. -/
inductive Occurs : Nat → Node → Nat → Node → Prop
  | self {p n} : Occurs p n p n
  | inside {p n q m r l} : (q, .node m) ∈ n.placed p → Occurs q m r l → Occurs p n r l

section Occurrences

variable {p q j : Nat} {n m : Node} {i : Instruction}

/-- The code of a node inside stands at its position. -/
theorem Occurs.at {program : Array Instruction} (h : Occurs p n q m)
    (hcode : Code.At program p (n.codeAt p)) : Code.At program q (m.codeAt q) := by
  induction h with
  | self => exact hcode
  | inside hmem _ ih =>
    rw [codeAt_eq_pieces] at hcode
    exact ih (at_of_mem_layout hcode hmem)

theorem Occurs.at_own {program : Array Instruction} (h : Occurs p n q m)
    (hcode : Code.At program p (n.codeAt p)) (hown : (j, .own i) ∈ m.placed q) :
    program[j]? = some i := by
  have hm := h.at hcode
  rw [codeAt_eq_pieces] at hm
  exact (at_of_mem_layout hm hown).1

/-- A node inside lies within the code of the node around it. -/
theorem Occurs.within (h : Occurs p n q m) : p ≤ q ∧ m.stop q ≤ n.stop p := by
  induction h with
  | self => exact ⟨Nat.le_refl _, Nat.le_refl _⟩
  | inside hmem _ ih =>
    obtain ⟨hstart, hstop⟩ := placed_within hmem
    exact ⟨Nat.le_trans hstart ih.1, Nat.le_trans ih.2 hstop⟩

/-- Every position in the code of a node is that of an instruction of its own, or of a node
inside. -/
theorem exists_occurs (n : Node) {p j : Nat} (hstart : p ≤ j) (hstop : j < n.stop p) :
    ∃ q m i, Occurs p n q m ∧ (j, .own i) ∈ m.placed q := by
  rw [stop_eq_pieces] at hstop
  obtain ⟨q, x, hmem, hq, hj⟩ := exists_mem_layout hstart hstop
  cases x with
  | own i =>
    obtain rfl : q = j := Nat.le_antisymm hq (Nat.le_of_lt_succ hj)
    exact ⟨p, n, i, .self, hmem⟩
  | node m =>
    have hsize := sizeOf_lt (mem_of_mem_layout hmem)
    obtain ⟨r, l, i, hoccurs, hown⟩ := exists_occurs m hq hj
    exact ⟨r, l, i, .inside hmem hoccurs, hown⟩
termination_by sizeOf n

/-- Every instruction in the code of a node is one of its own, or of a node inside. -/
theorem exists_occurs_of_mem (h : i ∈ n.codeAt 0) :
    ∃ q m j, Occurs 0 n q m ∧ (j, .own i) ∈ m.placed q := by
  obtain ⟨j, hj⟩ := List.mem_iff_getElem?.1 h
  have hstop : j < n.stop 0 := by
    rw [stop, Nat.zero_add]
    exact (List.getElem?_eq_some_iff.1 hj).1
  obtain ⟨q, m, i', hoccurs, hown⟩ := n.exists_occurs (Nat.zero_le j) hstop
  have hi := hoccurs.at_own (Code.at_self (n.codeAt 0)) hown
  rw [List.getElem?_toArray, hj] at hi
  cases hi
  exact ⟨q, m, j, hoccurs, hown⟩

theorem Occurs.exists_expr (h : Occurs p n q m) (hn : ∃ e : Expr, n = e.node) :
    ∃ e : Expr, m = e.node := by
  induction h with
  | self => exact hn
  | inside hmem _ ih =>
    obtain ⟨e, rfl⟩ := hn
    have hpiece := mem_of_mem_layout hmem
    refine ih ?_
    cases e with
    | call line function ty args =>
      simp only [Expr.node, pieces, Expr.nodes_eq_map, List.mem_cons, reduceCtorEq, false_or,
        List.mem_map, Piece.node.injEq, exists_eq_right] at hpiece
      obtain ⟨arg, -, rfl⟩ := hpiece
      exact ⟨arg, rfl⟩
    | _ => grind [pieces, Expr.node]

end Occurrences

/-! ### Jumps -/

/-- What a node that stands at a position prescribes: which of its instructions name positions,
where they stand, and which positions they name. -/
inductive Puts (p : Nat) (n : Node) : Nat → Instruction → Prop
  /-- The header of a block counts the instructions of its statements. -/
  | header {slots statements} : n = .block (.mk slots statements) →
      Puts p n p (.block (codeOfNodes (p + 1) statements).length slots)
  /-- A branch without an alternative is left. -/
  | skip {condition yes} : n = .branch condition yes none → Puts p n p (.jumpIfFalse (n.stop p))
  /-- The start of the alternative. -/
  | alternative {condition yes no otherwise} : n = .branch condition yes (some no) →
      (n.placed p).getLast? = some (otherwise, .node (.block no)) →
      Puts p n p (.jumpIfFalse otherwise)
  /-- From just before the alternative to its end. -/
  | past {condition yes no q} : n = .branch condition yes (some no) →
      (n.placed p).getLast? = some (q + 1, .node (.block no)) → Puts p n q (.jump (n.stop p))
  /-- A loop is left. -/
  | leave {condition body} : n = .loop condition body → Puts p n p (.jumpIfFalse (n.stop p))
  /-- From the end of a loop to its start. -/
  | again {condition body q} : n = .loop condition body → q + 1 = n.stop p → Puts p n q (.jump p)
  /-- The start and the end of the second value of a choice. -/
  | choose {condition yes no otherwise} : n = .select condition yes no →
      (n.placed p).getLast? = some (otherwise, .node no) →
      Puts p n p (.select otherwise (no.stop otherwise))

section Stops

variable (p : Nat) (condition : Node) (yes no body : Body)

theorem stop_branch :
    (Node.branch condition yes none).stop p = (Node.block yes).stop (condition.stop (p + 1)) := by
  simp only [stop, codeAt, List.length_cons, List.length_append]
  omega

theorem stop_branchElse : (Node.branch condition yes (some no)).stop p =
    (Node.block no).stop ((Node.block yes).stop (condition.stop (p + 1)) + 1) := by
  simp only [stop, codeAt, List.length_cons, List.length_append]
  omega

theorem stop_loop : (Node.loop condition body).stop p =
    (Node.block body).stop (condition.stop (p + 1)) + 1 := by
  simp only [stop, codeAt, List.length_cons, List.length_append, List.length_nil]
  omega

end Stops

section Jumps

variable {p q : Nat} {n : Node} {i : Instruction}

/-- The instructions of a node that name positions are among those that it prescribes. -/
theorem puts_of_mem_placed (h : (q, .own i) ∈ n.placed p) (hi : i.targets q ≠ []) :
    Puts p n q i := by
  have hpiece := mem_of_mem_layout h
  -- a node has instructions of its own at its start and where its parts end
  cases n with
  | literal v =>
    obtain rfl : i = v.instruction := by simpa [pieces] using hpiece
    cases v <;> exact absurd rfl hi
  | select condition yes no =>
    obtain ⟨rfl, rfl⟩ : q = p ∧ i = _ := by simpa [placed, pieces, layout] using h
    exact .choose rfl rfl
  | branch condition yes no =>
    cases no with
    | none =>
      obtain ⟨rfl, rfl⟩ : q = p ∧ i = _ := by simpa [placed, pieces, layout] using h
      rw [← stop_branch q condition yes]
      exact .skip rfl
    | some no =>
      obtain ⟨rfl, rfl⟩ | ⟨rfl, rfl⟩ : (q = p ∧ i = _) ∨ (q = _ ∧ i = _) := by
        simpa [placed, pieces, layout] using h
      · exact .alternative rfl rfl
      · rw [← stop_branchElse p condition yes no]
        exact .past rfl rfl
  | loop condition body =>
    obtain ⟨rfl, rfl⟩ | ⟨rfl, rfl⟩ : (q = p ∧ i = _) ∨ (q = _ ∧ i = _) := by
      simpa [placed, pieces, layout] using h
    · rw [← stop_loop q condition body]
      exact .leave rfl
    · exact .again rfl (stop_loop p condition body).symm
  | block body =>
    cases body with
    | mk slots statements =>
      rcases List.mem_cons.1 h with heq | h
      · obtain ⟨rfl, hi⟩ := Prod.mk.inj heq
        obtain rfl := Piece.own.inj hi
        exact .header rfl
      · exact absurd (mem_of_mem_layout h) (by simp)
  | _ =>
    simp [pieces] at hpiece
    subst hpiece
    exact absurd rfl hi

theorem Puts.mem_placed (h : Puts p n q i) : (q, .own i) ∈ n.placed p := by
  cases h with
  | header hn =>
    subst hn
    exact List.mem_cons_self
  | skip hn =>
    subst hn
    rw [stop_branch]
    exact List.mem_cons_self
  | alternative hn hlast =>
    subst hn
    obtain rfl := (Prod.mk.inj (Option.some.inj hlast)).1
    exact List.mem_cons_self
  | past hn hlast =>
    subst hn
    obtain rfl := Nat.succ.inj (Prod.mk.inj (Option.some.inj hlast)).1
    rw [stop_branchElse]
    exact .tail _ (.tail _ (.tail _ (.head _)))
  | leave hn =>
    subst hn
    rw [stop_loop]
    exact List.mem_cons_self
  | again hn hq =>
    subst hn
    rw [stop_loop] at hq
    obtain rfl := Nat.succ.inj hq
    exact .tail _ (.tail _ (.tail _ (.head _)))
  | choose hn hlast =>
    subst hn
    obtain rfl := (Prod.mk.inj (Option.some.inj hlast)).1
    exact List.mem_cons_self

/-- An instruction of a node stands in its code, and the positions that it names are positions of
that code or the one just past it. -/
theorem Puts.within (h : Puts p n q i) :
    p ≤ q ∧ q < n.stop p ∧ ∀ t ∈ i.targets q, p ≤ t ∧ t ≤ n.stop p := by
  obtain ⟨hstart, hstop⟩ := placed_within h.mem_placed
  have hnode : p ≤ n.stop p := Nat.le_add_right _ _
  refine ⟨hstart, hstop, ?_⟩
  intro t ht
  cases h with
  | header hn =>
    obtain rfl := List.mem_singleton.1 ht
    subst hn
    simp only [stop, codeAt, Body.codeAt, List.length_cons]
    omega
  | skip _ | past _ _ | leave _ =>
    obtain rfl := List.mem_singleton.1 ht
    exact ⟨hnode, Nat.le_refl _⟩
  | alternative _ hlast =>
    obtain rfl := List.mem_singleton.1 ht
    obtain ⟨hstart, hstop⟩ := placed_within (List.mem_of_getLast? hlast)
    exact ⟨hstart, Nat.le_trans (Nat.le_add_right _ _) hstop⟩
  | again _ _ =>
    obtain rfl := List.mem_singleton.1 ht
    exact ⟨Nat.le_refl _, hnode⟩
  | choose _ hlast =>
    obtain ⟨hstart, hstop⟩ := placed_within (List.mem_of_getLast? hlast)
    rcases List.mem_pair.1 ht with rfl | rfl
    · exact ⟨hstart, Nat.le_trans (Nat.le_add_right _ _) hstop⟩
    · exact ⟨Nat.le_trans hstart (Nat.le_add_right _ _), hstop⟩

end Jumps

/-! ### All of the code -/

/-- The instructions of a node are valid in every program that has room for its code. -/
theorem checkInstruction_of_placed {length p q : Nat} {n : Node} {i : Instruction}
    (h : (q, .own i) ∈ n.placed p) (hlength : n.stop p ≤ length) :
    Code.checkInstruction length q i = .ok () := by
  by_cases hi : i.targets q = []
  · cases i <;> first | rfl | exact absurd hi (List.cons_ne_nil _ _)
  · have hputs := puts_of_mem_placed h hi
    have hle : ∀ t ∈ i.targets q, t ≤ length := fun t ht =>
      Nat.le_trans (hputs.within.2.2 t ht).2 hlength
    cases hputs with
    | choose hn hlast =>
      subst hn
      obtain rfl := (Prod.mk.inj (Option.some.inj hlast)).1
      refine Code.checkInstruction_select.2 ⟨?_, Nat.le_add_right _ _, hle _ (.tail _ (.head _))⟩
      exact Nat.lt_of_succ_le (Nat.le_trans (Nat.le_add_right _ _) (Nat.le_add_right _ _))
    | header _ =>
      exact Code.checkTarget_eq_ok.2 (Nat.le_trans (Code.advance_le _ _) (hle _ List.mem_cons_self))
    | _ => exact Code.checkTarget_eq_ok.2 (hle _ List.mem_cons_self)

theorem validateFrom_codeOfPieces {length p : Nat} {xs : List Piece}
    (h : ∀ q x, (q, x) ∈ layout p xs → Code.validateFrom length q (x.codeAt q) = .ok ()) :
    Code.validateFrom length p (codeOfPieces p xs) = .ok () := by
  induction xs generalizing p with
  | nil => rfl
  | cons x xs ih =>
    refine Code.validateFrom_append.2 ⟨h p x List.mem_cons_self, ih fun q y hy => ?_⟩
    exact h q y (List.mem_cons_of_mem _ hy)

theorem validateFrom_codeAt (length : Nat) (n : Node) {p : Nat} (h : n.stop p ≤ length) :
    Code.validateFrom length p (n.codeAt p) = .ok () := by
  rw [codeAt_eq_pieces]
  refine validateFrom_codeOfPieces fun q x hmem => ?_
  cases x with
  | own i => exact Code.validateFrom_cons.2 ⟨checkInstruction_of_placed hmem h, rfl⟩
  | node m =>
    have hsize := sizeOf_lt (mem_of_mem_layout hmem)
    exact validateFrom_codeAt length m (Nat.le_trans (placed_within hmem).2 h)
termination_by sizeOf n

/-- **Compiled code is valid.** -/
theorem validate_codeAt (n : Node) : (n.codeAt 0).validate = .ok () :=
  n.validateFrom_codeAt _ (Nat.le_of_eq (Nat.zero_add _))

theorem one_le_length (n : Node) (p : Nat) : 1 ≤ (n.codeAt p).length := by
  cases n with
  | block body => cases body; simp [codeAt, Body.codeAt]
  | branch condition yes no => cases no <;> simp [codeAt]
  | declare name init => cases init <;> simp [codeAt]
  | _ => simp [codeAt]

theorem length_le_codeOfNodes (ns : List Node) (p : Nat) :
    ns.length ≤ (codeOfNodes p ns).length := by
  induction ns generalizing p with
  | nil => exact Nat.zero_le _
  | cons n ns ih =>
    have hn := n.one_le_length p
    have hns := ih (p + (n.codeAt p).length)
    rw [codeOfNodes, List.length_append, List.length_cons]
    omega

/-- A call in the code of a node has fewer arguments than the code has instructions. -/
theorem argc_lt (n : Node) {name : String} {argc : Nat} (h : .call name argc ∈ n.codeAt 0) :
    argc < (n.codeAt 0).length := by
  obtain ⟨q, m, j, hoccurs, hown⟩ := exists_occurs_of_mem h
  have hpiece := mem_of_mem_layout hown
  have hargs : argc < (m.codeAt q).length := by
    cases m with
    | literal v => cases v <;> simp [pieces, Value.instruction] at hpiece
    | call f args =>
      obtain ⟨-, rfl⟩ : name = f ∧ argc = args.length := by simpa [pieces] using hpiece
      rw [codeAt]
      exact Nat.lt_succ_of_le (length_le_codeOfNodes args _)
    | branch condition yes no => cases no <;> simp [pieces] at hpiece
    | block body => cases body; simp [pieces] at hpiece
    | _ => simp [pieces] at hpiece
  have hwithin := hoccurs.within.2
  unfold stop at hwithin
  omega

/-- A block in the code of a node has fewer instructions than the code. -/
theorem count_lt (n : Node) {count : Nat} {slots : List Slot}
    (h : .block count slots ∈ n.codeAt 0) :
    count < (n.codeAt 0).length := by
  obtain ⟨q, m, j, hoccurs, hown⟩ := exists_occurs_of_mem h
  have hputs := puts_of_mem_placed hown (List.cons_ne_nil (j + 1 + count) [])
  have htarget := (hputs.within.2.2 _ List.mem_cons_self).2
  have hwithin := hoccurs.within.2
  unfold stop at hwithin htarget
  omega

/-- Emitting a node leaves the code before it as it is, and appends the program of the node with its
targets moved. In what is appended, the code of each node inside stands at its position; the
instructions that name positions are those that the nodes inside prescribe; and the positions that a
node names are its own, or the one just past it. The program of a node is valid, and for the node of
a block it is the program of the block. -/
theorem emit_nested (n : Node) (before : Code) :
    n.emit before = before ++ (n.emit []).map (.shift before.length) ∧
    (∀ ⦃p m⦄, Occurs before.length n p m → Code.At (n.emit before).toArray p (m.codeAt p) ∧
      before.length ≤ p ∧ m.stop p ≤ (n.emit before).length) ∧
    (∀ ⦃q i⦄, before.length ≤ q → i.targets q ≠ [] →
      ((n.emit before)[q]? = some i ↔ ∃ p m, Occurs before.length n p m ∧ Puts p m q i)) ∧
    (∀ ⦃p m q i⦄, Puts p m q i → p ≤ q ∧ q < m.stop p ∧ ∀ t ∈ i.targets q, p ≤ t ∧ t ≤ m.stop p) ∧
    (n.emit []).validate = .ok () ∧ ∀ b : Block, n = .block b.node → n.emit [] = b.code := by
  have hprogram : n.emit [] = n.codeAt 0 := n.emit_eq []
  have hlength : (n.emit before).length = n.stop before.length := by
    rw [emit_eq, List.length_append, stop]
  have hcode : Code.At (n.emit before).toArray before.length (n.codeAt before.length) := by
    have hall := Code.at_self (n.emit before)
    rw [emit_eq, Code.at_append, Nat.zero_add, ← emit_eq] at hall
    exact hall.2
  rw [hprogram]
  refine ⟨?_, ?_, ?_, ?_, n.validate_codeAt, ?_⟩
  · rw [emit_eq, ← codeAt_add, Nat.zero_add]
  · intro p m h
    rw [hlength]
    exact ⟨h.at hcode, h.within⟩
  · intro q i hstart hi
    rw [← List.getElem?_toArray]
    constructor
    · intro hq
      have hstop : q < n.stop before.length := by
        rw [← hlength]
        exact (List.getElem?_eq_some_iff.1 (List.getElem?_toArray ▸ hq)).1
      -- every position of the code belongs to a node
      obtain ⟨p, m, j, hoccurs, hown⟩ := n.exists_occurs hstart hstop
      obtain rfl : j = i := Option.some.inj ((hoccurs.at_own hcode hown).symm.trans hq)
      exact ⟨p, m, hoccurs, puts_of_mem_placed hown hi⟩
    · rintro ⟨p, m, hoccurs, hputs⟩
      exact hoccurs.at_own hcode hputs.mem_placed
  · intro p m q i h
    exact h.within

  · rintro b rfl
    exact b.codeAt_node 0

/-- A loop as the operand of a negation, with a branch in it whose condition is a choice, behind
three instructions: the jump over the alternative is the one that the branch prescribes, and the
jump back is the one of the loop. -/
theorem emit_nested_loop : ∃ (n : Node) (before : Code), before.length = 3 ∧
    (n.emit before).length = 16 ∧ (n.emit before)[13]? = some (.jump 15) ∧
    (n.emit before)[15]? = some (.jump 4) ∧
    (∃ p m, Occurs 3 n p m ∧ Puts p m 13 (.jump 15) ∧ p ≤ 13 ∧ 15 ≤ m.stop p) ∧
    ∃ p m, Occurs 3 n p m ∧ Puts p m 15 (.jump 4) ∧ p ≤ 4 ∧ 15 < m.stop p := by
  let choice : Node :=
    .select (.literal (.bool true)) (.literal (.bool false)) (.literal (.bool true))
  let branch : Node := .branch choice (.mk [] []) (some (.mk [] []))
  let n : Node := .negate true (.loop (.literal (.bool true)) (.mk [] [branch]))
  let before : Code := [.null, .null, .null]
  have hcode : n.emit before = before ++ [.negate, .jumpIfFalse 16, .bool true, .block 8 [],
      .jumpIfFalse 14, .select 11 12, .bool true, .bool false, .bool true, .block 0 [], .jump 15,
      .block 0 [], .jump 4] := by
    rw [emit_eq]
    rfl
  obtain ⟨-, -, hjumps, hwithin, -⟩ := emit_nested n before
  rw [hcode] at hjumps
  obtain ⟨p, m, hoccurs, hputs⟩ :=
    (hjumps (q := 13) (i := .jump 15) (by decide) (List.cons_ne_nil 15 [])).1 rfl
  obtain ⟨p', m', hoccurs', hputs'⟩ :=
    (hjumps (q := 15) (i := .jump 4) (by decide) (List.cons_ne_nil 4 [])).1 rfl
  obtain ⟨hstart, -, htargets⟩ := hwithin hputs
  obtain ⟨-, hstop', htargets'⟩ := hwithin hputs'
  refine ⟨n, before, rfl, ?_⟩
  rw [hcode]
  refine ⟨rfl, rfl, rfl, ⟨p, m, hoccurs, hputs, hstart, ?_⟩, p', m', hoccurs', hputs', ?_, hstop'⟩
  · exact (htargets 15 List.mem_cons_self).2
  · exact (htargets' 4 List.mem_cons_self).1

end Node

/-! ### Programs -/

section Programs

variable (b : Block) (e : Expr)

theorem Block.validate_code : b.code.validate = .ok () := by
  rw [Block.code, ← b.codeAt_node]
  exact (Node.block b.node).validate_codeAt

theorem Block.argc_lt {name : String} {argc : Nat} (h : .call name argc ∈ b.code) :
    argc < b.code.length := by
  rw [Block.code, ← b.codeAt_node] at h ⊢
  exact (Node.block b.node).argc_lt h

theorem Block.count_lt {count : Nat} {slots : List Slot} (h : .block count slots ∈ b.code) :
    count < b.code.length := by
  rw [Block.code, ← b.codeAt_node] at h ⊢
  exact (Node.block b.node).count_lt h

theorem Expr.validate_code : e.code.validate = .ok () := by
  rw [Expr.code, ← e.codeAt_node]
  exact e.node.validate_codeAt

theorem Expr.argc_lt {name : String} {argc : Nat} (h : .call name argc ∈ e.code) :
    argc < e.code.length := by
  rw [Expr.code, ← e.codeAt_node] at h ⊢
  exact e.node.argc_lt h

end Programs

end BindScript
