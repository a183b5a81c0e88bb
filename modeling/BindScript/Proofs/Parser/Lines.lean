/-
**Errors point into the text.**

The lines of a text are numbered from 1, and a newline ends one and begins the next.  Tokens get the
line that the scanner is at, an unfinished comment the line where it begins; nodes of trees and
errors get the lines of tokens, or of the end of the text.  So all of them are lines of the text,
and an error can be shown together with its line.  Only the empty line after the last newline is not
shown.

Main results:

* `compileErrors_point_into_source` — **errors and nodes stand at lines of the text**.
-/

import BindScript.Proofs.Parser.Calls

namespace BindScript

/-! ### Lines of a text -/

variable {text : List Char}

namespace Text

/-- The number of a line of a text. -/
def HasLine (text : List Char) (number : Nat) : Prop := 1 ≤ number ∧ number ≤ 1 + text.count '\n'

/-- The line of a number, what stands before it, and what comes after it. -/
structure IsLine (text : List Char) (number : Nat) (before line after : List Char) : Prop where
  split : text = before ++ line ++ after
  number : before.count '\n' + 1 = number
  single : '\n' ∉ line
  begins : ∀ c ∈ before.getLast?, c = '\n'
  ends : ∀ c ∈ after.head?, c = '\n'

namespace IsLine

variable {number : Nat} {before line after : List Char} {c b : Char}

theorem newline (h : IsLine text number before line after) :
    IsLine ('\n' :: text) (number + 1) ('\n' :: before) line after where
  split := by rw [h.split]; rfl
  number := by rw [List.count_cons_self, h.number]
  single := h.single
  begins := by
    cases before with
    | nil => simp
    | cons b before =>
      rw [List.getLast?_cons_cons]
      exact h.begins
  ends := h.ends

/-- Another character in front of the first line belongs to it. -/
theorem first (h : IsLine text number [] line after) (hc : c ≠ '\n') :
    IsLine (c :: text) number [] (c :: line) after where
  split := by rw [h.split]; rfl
  number := h.number
  single := by simpa [Ne.symm hc] using h.single
  begins := h.begins
  ends := h.ends

theorem later (h : IsLine text number (b :: before) line after) (hc : c ≠ '\n') :
    IsLine (c :: text) number (c :: b :: before) line after where
  split := by rw [h.split]; rfl
  number := by rw [List.count_cons_of_ne hc, h.number]
  single := h.single
  begins := by
    rw [List.getLast?_cons_cons]
    exact h.begins
  ends := h.ends

theorem one_lt (h : IsLine text number (b :: before) line after) : 1 < number := by
  -- what stands before a line ends with a newline
  have hlast := h.begins _ (List.getLast?_eq_some_getLast (List.cons_ne_nil b before))
  have hmem := List.getLast_mem (List.cons_ne_nil b before)
  rw [hlast] at hmem
  have hpos := List.count_pos_iff.2 hmem
  have hnumber := h.number
  omega

end IsLine

theorem lines_cons {c : Char} (hc : c ≠ '\n') (text : List Char) :
    lines (c :: text) = (c :: (lines text).headD []) :: (lines text).tail := by
  rw [lines, if_neg hc]
  cases lines text <;> rfl

/-- **A text has a line of each number.** All of them are listed, but for an empty one at the
end. -/
theorem exists_isLine {number : Nat} (h : HasLine text number) :
    ∃ before line after, IsLine text number before line after ∧
      (lines text)[number - 1]? = if line = [] ∧ after = [] then none else some line := by
  obtain ⟨n, rfl⟩ : ∃ n, number = n + 1 := ⟨number - 1, by have := h.1; omega⟩
  have hn : n ≤ text.count '\n' := by
    have := h.2
    omega
  rw [Nat.add_sub_cancel]
  clear h
  induction text generalizing n with
  | nil =>
    obtain rfl : n = 0 := by simpa using hn
    exact ⟨[], [], [], ⟨rfl, rfl, by simp, by simp, by simp⟩, rfl⟩
  | cons c cs ih =>
    by_cases hc : c = '\n'
    · subst hc
      cases n with
      | zero => exact ⟨[], [], '\n' :: cs, ⟨rfl, rfl, by simp, by simp, by simp⟩, by simp [lines]⟩
      | succ n =>
        rw [List.count_cons_self] at hn
        obtain ⟨before, line, after, hline, hget⟩ := ih n (by omega)
        refine ⟨'\n' :: before, line, after, hline.newline, ?_⟩
        rw [lines, if_pos rfl, List.getElem?_cons_succ, hget]
    · rw [List.count_cons_of_ne hc] at hn
      obtain ⟨before, line, after, hline, hget⟩ := ih n hn
      cases before with
      | nil =>
        obtain rfl : n = 0 := by simpa using hline.number.symm
        have hhead : (lines cs).headD [] = line := by
          rw [List.headD_eq_head?_getD, List.head?_eq_getElem?, hget]
          split
          · rename_i hempty
            exact hempty.1.symm
          · rfl
        refine ⟨[], c :: line, after, hline.first hc, ?_⟩
        rw [lines_cons hc, hhead, if_neg (by simp)]
        rfl
      | cons b before =>
        obtain ⟨m, rfl⟩ : ∃ m, n = m + 1 := ⟨n - 1, by have := hline.one_lt; omega⟩
        refine ⟨c :: b :: before, line, after, hline.later hc, ?_⟩
        rw [lines_cons hc, List.getElem?_cons_succ, List.getElem?_tail, hget]

end Text

/-- **An error is shown with its line**, without blanks at the end, unless this is the empty line at
the end of the text. -/
theorem CompileError.withSource_eq {e : CompileError} {source : String}
    (h : Text.HasLine source.toList e.line) :
    ∃ before line after, Text.IsLine source.toList e.line before line after ∧
      e.withSource source = "[" ++ e.kind.label ++ s!"] line {e.line}: " ++ e.message ++
        if line = [] ∧ after = [] then "" else "\n    " ++ String.ofList (Text.trimEnd line) := by
  obtain ⟨before, line, after, hline, hget⟩ := Text.exists_isLine h
  refine ⟨before, line, after, hline, ?_⟩
  by_cases hempty : line = [] ∧ after = []
  · simp only [withSource, hget, if_pos hempty, String.append_empty]
  · simp only [withSource, hget, if_neg hempty, String.append_assoc]

/-! ### Lines of tokens -/

namespace Scanner

/-- The scanner is at a line, and there are no more newlines left than the text has from there
on. -/
def Within (text : List Char) (line : Nat) (rest : List Char) : Prop :=
  1 ≤ line ∧ line + rest.count '\n' ≤ 1 + text.count '\n'

theorem Within.hasLine {rest : List Char} {line : Nat} (h : Within text line rest) :
    Text.HasLine text line :=
  ⟨h.1, Nat.le_trans (Nat.le_add_right _ _) h.2⟩

/-- A gap ends at a line of the text, and an unfinished comment begins at one. -/
theorem skipGap_within (gap : Gap) (line : Nat) (cs : List Char) (h : Within text line cs)
    (hgap : ∀ start, gap = .blockComment start → Text.HasLine text start) :
    Within text (skipGap gap line cs).2.line (skipGap gap line cs).2.rest ∧
      ∀ start, (skipGap gap line cs).1 = some start → Text.HasLine text start := by
  have hline := h.hasLine
  unfold Within Text.HasLine at *
  fun_induction skipGap gap line cs <;> simp_all <;> grind

theorem readToken_count_le {cs rest : List Char} {t : Token} (h : readToken cs = (.ok t, rest)) :
    rest.count '\n' ≤ cs.count '\n' := by
  cases cs with
  | nil =>
    obtain ⟨-, rfl⟩ := Prod.mk.inj h
    exact Nat.le_refl _
  | cons c cs => exact ((readToken_suffix h).trans (List.suffix_cons c cs)).sublist.count_le _

/-- Tokens are read at lines of the text, and so are errors. -/
theorem next_within {s : Scanner} (h : Within text s.line s.rest) :
    (∀ t s', s.next = (.ok t, s') → Text.HasLine text t.line ∧ Within text s'.line s'.rest) ∧
      ∀ e s', s.next = (.error e, s') → Text.HasLine text e.line := by
  obtain ⟨hwithin, hcomment⟩ := skipGap_within .blank s.line s.rest h nofun
  unfold next
  split
  · rename_i start after hskip
    rw [hskip] at hcomment
    refine ⟨by simp, ?_⟩
    rintro _ _ ⟨rfl, rfl⟩
    exact hcomment start rfl
  · rename_i rest line hskip
    rw [hskip] at hwithin
    split
    · rename_i token left hread
      refine ⟨?_, by simp⟩
      rintro _ _ ⟨rfl, rfl⟩
      exact ⟨hwithin.hasLine, hwithin.1,
        Nat.le_trans (Nat.add_le_add_left (readToken_count_le hread) _) hwithin.2⟩
    · refine ⟨by simp, ?_⟩
      rintro _ _ ⟨rfl, rfl⟩
      exact hwithin.hasLine

end Scanner

/-- **Tokens stand at lines of the text**, and so do its end and the error that ends it. -/
theorem TokenRun.hasLine {text : List Char} (fuel : Nat) {s : Scanner}
    (h : Scanner.Within text s.line s.rest) :
    (∀ t ∈ (ofScanner fuel s).tokens, Text.HasLine text t.line) ∧
      (∀ line, (ofScanner fuel s).ending = .ok line → Text.HasLine text line) ∧
      ∀ e, (ofScanner fuel s).ending = .error e → Text.HasLine text e.line := by
  induction fuel generalizing s with
  | zero =>
    refine ⟨by simp [ofScanner], ?_, by simp [ofScanner]⟩
    rintro _ ⟨rfl⟩
    exact h.hasLine
  | succ fuel ih =>
    obtain ⟨hok, herror⟩ := Scanner.next_within h
    rw [ofScanner]
    split
    · rename_i e s' hnext
      refine ⟨by simp, by simp, ?_⟩
      rintro _ ⟨rfl⟩
      exact herror e s' hnext
    · rename_i t s' hnext
      obtain ⟨hline, hs'⟩ := hok t s' hnext
      split
      · refine ⟨by simp, ?_, by simp⟩
        rintro _ ⟨rfl⟩
        exact hline
      · obtain ⟨htokens, hending⟩ := ih hs'
        exact ⟨List.forall_mem_cons.2 ⟨hline, htokens⟩, hending⟩

theorem Scanner.within_start (source : String) :
    Within source.toList (start source).line (start source).rest := ⟨Nat.le_refl 1, Nat.le_refl _⟩

/-- A text as an origin. -/
def Origin.ofText (source : String) : Origin where
  tokens := (TokenRun.ofText source).tokens
  line := Text.HasLine source.toList
  lines := (TokenRun.hasLine _ (Scanner.within_start source)).1

theorem Origin.drawn_ofText (source : String) (Γ : Scopes) :
    ({ ParseState.start source with scopes := Γ } : ParseState).Drawn (.ofText source) :=
  ⟨List.suffix_rfl, (TokenRun.hasLine _ (Scanner.within_start source)).2.1,
    (TokenRun.hasLine _ (Scanner.within_start source)).2.2⟩

/-! ### Errors of the type check of programs -/

theorem Expr.Each.line_of_checkCondition {O : Origin} {e : Expr} (h : e.Each (Expr.Placed O))
    {construct : String} {err : CompileError} (herr : e.checkCondition construct = .error err) :
    O.line err.line := by
  rcases except_bind_eq_error.1 herr with herr | ⟨-, -, herr⟩
  · exact h.line_of_check herr
  · exact line_of_require herr ▸ h.line

mutual

/-- The check of a statement fails at a line of the statement. -/
theorem Stmt.Each.line_of_check {O : Origin} {err : CompileError} :
    {s : Stmt} → s.Each (Stmt.Placed O) →
    s.check = .error err → O.line err.line
  | .branch line condition yes no, hs, h => by
      rw [Stmt.check] at h
      rcases except_bind_eq_error.1 h with h | ⟨-, -, h⟩
      · exact (hs.1.expressions condition List.mem_cons_self).line_of_checkCondition h
      rcases except_bind_eq_error.1 h with h | ⟨-, -, h⟩
      · exact Block.Each.line_of_check (hs.2 yes List.mem_cons_self) h
      · exact Block.Each.line_of_checkOption
          (fun b hb => hs.2 b (List.mem_cons_of_mem _ (by simpa using hb))) h
  | .loop line condition body, hs, h => by
      rw [Stmt.check] at h
      rcases except_bind_eq_error.1 h with h | ⟨-, -, h⟩
      · exact (hs.1.expressions condition List.mem_cons_self).line_of_checkCondition h
      · exact Block.Each.line_of_check (hs.2 body List.mem_cons_self) h
  | .block line body, hs, h => Block.Each.line_of_check (hs.2 body List.mem_cons_self) h
  | .declare _ _ _ none, _, h => nomatch h
  | .declare line name ty (some init), hs, h => by
      rw [Stmt.check] at h
      rcases except_bind_eq_error.1 h with h | ⟨-, -, h⟩
      · exact (hs.1.expressions init List.mem_cons_self).line_of_check h
      · exact line_of_require h ▸ hs.1.lines line List.mem_cons_self
  | .assign line target value, hs, h => by
      rw [Stmt.check] at h
      rcases except_bind_eq_error.1 h with h | ⟨-, -, h⟩
      · exact (hs.1.expressions value List.mem_cons_self).line_of_check h
      · exact line_of_require h ▸ hs.1.lines line List.mem_cons_self
  | .perform call, hs, h => (hs.1.expressions call List.mem_cons_self).line_of_check h

theorem Block.Each.line_of_check {O : Origin} {err : CompileError} :
    {b : Block} → b.Each (Stmt.Placed O) →
    b.check = .error err → O.line err.line
  | .mk _ _ _, hb, h => Block.Each.line_of_checkStatements (fun _ hs => hb.statement hs) h

theorem Block.Each.line_of_checkOption {O : Origin} {err : CompileError} : {b : Option Block} →
    (∀ b' ∈ b, b'.Each (Stmt.Placed O)) → checkOption b = .error err → O.line err.line
  | none, _, h => nomatch h
  | some b, hb, h => Block.Each.line_of_check (hb b rfl) h

theorem Block.Each.line_of_checkStatements {O : Origin} {err : CompileError} : {ss : List Stmt} →
    (∀ s ∈ ss, s.Each (Stmt.Placed O)) → checkStatements ss = .error err → O.line err.line
  | [], _, h => nomatch h
  | s :: ss, hss, h => by
      rw [checkStatements] at h
      rcases except_bind_eq_error.1 h with h | ⟨-, -, h⟩
      · exact Stmt.Each.line_of_check (hss s List.mem_cons_self) h
      · exact Block.Each.line_of_checkStatements
          (fun s' hs' => hss s' (List.mem_cons_of_mem _ hs')) h

end

/-! ### Texts -/

theorem except_map_eq_error {ε α β : Type} {x : Except ε α} {f : α → β} {e : ε} :
    x.map f = .error e ↔ x = .error e := by
  cases x with
  | error e' => simp [Except.map]
  | ok a => simp [Except.map]

/-- The expression and all expressions in it stand at lines of the text. -/
def Expr.InText (source : String) (e : Expr) : Prop :=
  e.Each fun x => Text.HasLine source.toList x.line

/-- The statement and its expressions stand at lines of the text. -/
def Stmt.InText (source : String) (s : Stmt) : Prop :=
  (∀ line ∈ s.lines, Text.HasLine source.toList line) ∧ ∀ e ∈ s.expressions, e.InText source

theorem Expr.Each.inText {source : String} {e : Expr} (h : e.Each (Expr.Placed (.ofText source))) :
    e.InText source :=
  fun x hx => (h x hx).1

theorem exists_globalSlots {globals : Globals} (h : ∀ g ∈ globals, g.2.ty.isLeaf = true) :
    ∃ slots, globalSlots globals = .ok slots := by
  induction globals with
  | nil => exact ⟨[], rfl⟩
  | cons g globals ih =>
    obtain ⟨name, value⟩ := g
    obtain ⟨hvalue, hglobals⟩ := List.forall_mem_cons.1 h
    obtain ⟨slots, hslots⟩ := ih hglobals
    cases value with
    | int | float | string | bool => exact ⟨_, by rw [globalSlots, hslots]; rfl⟩
    | void | null | record => simp [Value.ty, Ty.isLeaf] at hvalue

/-- **Errors and nodes stand at lines of the text.** If the globals are of primitive types, then
every error of a program, an expression or bindings has a line of the text, and is shown with it,
unless this is the empty line at the end.  All nodes of accepted trees have lines of the text. -/
theorem compileErrors_point_into_source (source : String) {globals : Globals}
    (hglobals : ∀ g ∈ globals, g.2.ty.isLeaf = true) :
    (∀ e, parseProgram source globals = .error e ∨ parseExpression source = .error e ∨
        parseBindings source = .error e →
      Text.HasLine source.toList e.line ∧
      ∃ before line after, Text.IsLine source.toList e.line before line after ∧
        e.withSource source = "[" ++ e.kind.label ++ s!"] line {e.line}: " ++ e.message ++
          if line = [] ∧ after = [] then "" else "\n    " ++ String.ofList (Text.trimEnd line)) ∧
    (∀ root, parseProgram source globals = .ok root → root.Each (Stmt.InText source)) ∧
    (∀ e, parseExpression source = .ok e → e.InText source) ∧
    ∀ trees, parseBindings source = .ok trees → ∀ e ∈ trees.codes, e.InText source := by
  obtain ⟨slots, hslots⟩ := exists_globalSlots hglobals
  obtain ⟨hroot, hprogram⟩ := Parse.Spec.onText (r := .wholeProgram) Parse.origins_kept trivial
    (Origin.drawn_ofText source (Scopes.push [] slots))
  obtain ⟨htree, hexpression⟩ :=
    Parse.Spec.onText (r := .wholeExpression) Parse.origins_kept trivial
    (Origin.drawn_ofText source (Scopes.push [] []))
  obtain ⟨htrees, hbindings⟩ := Parse.Spec.onText (r := .clauses) Parse.clausing_kept trivial
    ⟨Origin.drawn_ofText source (Scopes.push [] []), rfl⟩
  refine ⟨?_, ?_, ?_, ?_⟩
  · intro e he
    have hline : Text.HasLine source.toList e.line := by
      rcases he with he | he | he
      · -- the globals are not refused, so the error is one of the parser or of the check
        rcases except_bind_eq_error.1 he with he | ⟨slots', hslots', he⟩
        · rw [hslots] at he
          cases he
        obtain rfl : slots = slots' := Except.ok.inj (hslots.symm.trans hslots')
        rcases except_bind_eq_error.1 he with he | ⟨root, htext, he⟩
        · exact hprogram e he
        rcases except_bind_eq_error.1 he with he | ⟨-, -, he⟩
        · exact Block.Each.line_of_check (hroot root htext) he
        · cases he
      · rcases except_bind_eq_error.1 he with he | ⟨tree, htext, he⟩
        · exact hexpression e he
        rcases except_bind_eq_error.1 he with he | ⟨-, -, he⟩
        · exact Expr.Each.line_of_check (htree tree htext) he
        · cases he
      · exact hbindings e he
    exact ⟨hline, e.withSource_eq hline⟩
  · intro root hparse s hs
    obtain ⟨slots', hslots', htext⟩ := parseProgram_eq_ok hparse
    obtain rfl : slots = slots' := Except.ok.inj (hslots.symm.trans hslots')
    have hplaced := hroot root htext s hs
    exact ⟨hplaced.lines, fun e he => (hplaced.expressions e he).inText⟩
  · intro e hparse
    exact (htree e (parseExpression_eq_ok hparse)).inText
  · intro trees hparse e he
    obtain ⟨ts, hts, hfrom⟩ := ((htrees trees hparse).codes e he).reads
    exact (hfrom.placed hts.subset).inText

/-- After a comment of two lines, the error of the third line is shown with it. -/
theorem compileErrors_point_into_source_comment :
    (∀ g ∈ [("n", Value.int 2)], g.2.ty.isLeaf = true) ∧
    parseProgram "/* a\n b */ int x = n;\n  y = x; \n" [("n", .int 2)] =
      .error ⟨.undefinedVariable "y", 3⟩ ∧
    Text.HasLine "/* a\n b */ int x = n;\n  y = x; \n".toList 3 ∧
    CompileError.withSource ⟨.undefinedVariable "y", 3⟩ "/* a\n b */ int x = n;\n  y = x; \n" =
      "[undefined] line 3: undefined variable 'y'\n      y = x;" := by
  have hglobals : ∀ g ∈ [("n", Value.int 2)], g.2.ty.isLeaf = true := by decide
  have hparse : parseProgram "/* a\n b */ int x = n;\n  y = x; \n" [("n", .int 2)] =
      .error ⟨.undefinedVariable "y", 3⟩ := by
    have hfails : (parseProgram "/* a\n b */ int x = n;\n  y = x; \n" [("n", .int 2)]).map
        (fun _ => ()) =
        .error ⟨.undefinedVariable "y", 3⟩ := by
      decide +kernel
    exact except_map_eq_error.1 hfails
  obtain ⟨hline, -⟩ := (compileErrors_point_into_source _ hglobals).1 _ (.inl hparse)
  exact ⟨hglobals, hparse, hline, by decide +kernel⟩

end BindScript
