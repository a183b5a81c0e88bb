/-
**The output of a session.**

A call on a session evaluates programs: one for a kind that is bound to an expression, one for each
entry of the others.  Each program is evaluated on a machine of its own, and what it has written is
added to the output of the session when it has come to its end.  A program that fails leaves before
that, and its texts are dropped; those of the programs before it, in the same call or in earlier
ones, are kept.

A program that was compiled from a source writes at its very end or not at all, so nothing is lost
of it.  A program that was read from a text may write first and fail later.

Main results:

* `Session.output_after` — **the output of a session is what its evaluations wrote that did not
  fail**.
-/

import BindScript.Proofs.Binding.History
import BindScript.Proofs.Machine.Writing

namespace BindScript.Session

/-! ### Evaluations -/

/-- A program, and the session in which it is evaluated. -/
structure Evaluation where
  before : Session
  fuel : Nat
  code : Code

namespace Evaluation

/-- The texts that the evaluation writes, in their order. -/
def texts (e : Evaluation) : List String :=
  (Machine.texts (Snapshot.host e.before.symbols) e.code.toArray e.before.nextLimit e.fuel
    e.before.machine).getD []

/-- Whether the evaluation fails. -/
def fails (e : Evaluation) : Bool := (e.before.evaluate e.fuel e.code).any fun x => !x.1.isOk

end Evaluation

/-- All that evaluations write, one after the other. -/
def written (es : List Evaluation) : String := String.join (es.flatMap Evaluation.texts)

/-- The evaluations that do not fail. -/
def completed (es : List Evaluation) : List Evaluation := es.filter fun e => !e.fails

/-- The evaluations of calls, one after the other. -/
def evaluations (fuel : Nat) (s : Session) (calls : List Call) : List Evaluation :=
  s.notes fuel (fun code s => [⟨s, fuel, code⟩]) calls

/-! ### What is written and what is kept -/

theorem written_cons (e : Evaluation) (es : List Evaluation) :
    written (e :: es) = written [e] ++ written es := by
  simp [written]

theorem written_append (es es' : List Evaluation) :
    written (es ++ es') = written es ++ written es' := by
  simp [written]

theorem completed_append (es es' : List Evaluation) :
    completed (es ++ es') = completed es ++ completed es' :=
  List.filter_append es es'

variable {e : Evaluation}

theorem completed_cons_of_fails (h : e.fails = true) (es : List Evaluation) :
    completed (e :: es) = completed es := by
  simp [completed, h]

theorem completed_cons_of_not_fails (h : e.fails = false) (es : List Evaluation) :
    completed (e :: es) = e :: completed es := by
  simp [completed, h]

theorem length_written_completed_le (es : List Evaluation) :
    (written (completed es)).length ≤ (written es).length := by
  induction es with
  | nil => exact Nat.le_refl _
  | cons e es ih =>
    cases hfails : e.fails with
    | true =>
      rw [completed_cons_of_fails hfails, written_cons e es, String.length_append]
      omega
    | false =>
      rw [completed_cons_of_not_fails hfails, written_cons e (completed es), written_cons e es,
        String.length_append, String.length_append]
      omega

/-- All is kept exactly if those that fail have written nothing. -/
theorem written_completed_eq_iff (es : List Evaluation) :
    written (completed es) = written es ↔ ∀ e ∈ es, e.fails = true → written [e] = "" := by
  induction es with
  | nil => simp [completed]
  | cons e es ih =>
    rw [List.forall_mem_cons, ← ih]
    cases hfails : e.fails with
    | false =>
      rw [completed_cons_of_not_fails hfails, written_cons e (completed es), written_cons e es,
        String.append_right_inj]
      simp
    | true =>
      rw [completed_cons_of_fails hfails, written_cons e es]
      constructor
      · intro h
        -- the rest that is kept cannot make up for what is lost
        have hlength := congrArg String.length h
        rw [String.length_append] at hlength
        have hle := length_written_completed_le es
        have hempty : written [e] = "" := String.length_eq_zero_iff.1 (by omega)
        rw [hempty, String.empty_append] at h
        exact ⟨fun _ => hempty, h⟩
      · rintro ⟨hempty, h⟩
        rw [hempty rfl, String.empty_append, h]

/-! ### From one session to another -/

variable {s t u : Session} {es es' : List Evaluation}

/-- The evaluations are of programs of the bindings, which stay, and what those wrote that did not
fail has been added to the output. -/
structure Adds (s : Session) (es : List Evaluation) (t : Session) : Prop where
  bindings : t.bindings = s.bindings
  programs : ∀ e ∈ es, e.code ∈ s.bindings.codes
  output : t.output = s.output ++ written (completed es)

theorem Adds.append (h : s.Adds es t) (h' : t.Adds es' u) : s.Adds (es ++ es') u := by
  refine ⟨h'.bindings.trans h.bindings, ?_, ?_⟩
  · intro e he
    rcases List.mem_append.1 he with he | he
    · exact h.programs e he
    · rw [← h.bindings]
      exact h'.programs e he
  · rw [h'.output, h.output, completed_append, written_append, String.append_assoc]

/-- What a run leaves in the console is what the evaluation has written. -/
theorem written_of_runFuel {r : Except RuntimeError (Option Value)} {m : Machine Snapshot}
    (hrun : Machine.runFuel (Snapshot.host e.before.symbols) e.code.toArray e.before.nextLimit
      e.fuel e.before.machine = some (r, m)) : written [e] = m.output := by
  have houtput := Machine.output_runFuel (Snapshot.host e.before.symbols) e.code.toArray
    e.before.nextLimit e.fuel e.before.machine
  rw [hrun] at houtput
  obtain ⟨texts, htexts, hjoin⟩ := Option.map_eq_some_iff.1 houtput.symm
  change String.join texts = m.output at hjoin
  rw [← hjoin]
  simp [written, Evaluation.texts, htexts]

theorem evaluate_adds {fuel : Nat} {code : Code} {x : Except RuntimeError Value × Session}
    (hcode : code ∈ s.bindings.codes) (h : s.evaluate fuel code = some x) :
    s.Adds [⟨s, fuel, code⟩] x.2 := by
  have hprograms : ∀ e ∈ [(⟨s, fuel, code⟩ : Evaluation)], e.code ∈ s.bindings.codes := by
    simpa using hcode
  obtain ⟨r, m, hrun⟩ := exists_of_evaluate h
  have hwritten := written_of_runFuel (e := ⟨s, fuel, code⟩) hrun
  have heval := evaluate_eq_some hrun
  obtain rfl := Option.some.inj (heval.symm.trans h)
  refine ⟨rfl, hprograms, ?_⟩
  cases r with
  | error err =>
    -- the console of a program that fails is dropped with its machine
    have hfails : (⟨s, fuel, code⟩ : Evaluation).fails = true := by
      simp only [Evaluation.fails, heval]
      rfl
    rw [completed_cons_of_fails hfails]
    exact (String.append_empty).symm
  | ok v =>
    have hfails : (⟨s, fuel, code⟩ : Evaluation).fails = false := by
      simp only [Evaluation.fails, heval]
      rfl
    rw [completed_cons_of_not_fails hfails]
    change s.output ++ m.output = s.output ++ written [⟨s, fuel, code⟩]
    rw [hwritten]

/-- The evaluations of calls lead from one session to the next. -/
theorem traces_adds (fuel : Nat) : Traces fuel (fun code s => [⟨s, fuel, code⟩]) Adds where
  nil _ := ⟨rfl, by simp, by simp [completed, written]⟩
  append := Adds.append
  bindings := Adds.bindings
  program hcode h := evaluate_adds hcode h

/-! ### Compiled programs -/

/-- A compiled program that fails has written nothing. -/
theorem written_of_fails {source : String} {p : Bindings Code}
    (hcompile : compileBindings source = .ok p) (hcode : e.code ∈ p.codes)
    (hfails : e.fails = true) :
    written [e] = "" := by
  obtain ⟨tree, htyped, hprogram⟩ := compileBindings_typed hcompile hcode
  obtain ⟨x, hx, hxfails⟩ := (Option.any_eq_true _ _).1 hfails
  obtain ⟨r, m, hrun⟩ := exists_of_evaluate hx
  have hwritten := written_of_runFuel hrun
  -- with enough fuel the run is the same one
  have hmore := Machine.runFuel_mono (Nat.le_max_left e.fuel (e.code.length + 1))
    e.before.nextLimit hrun
  have hfuel : tree.code.length < max e.fuel (e.code.length + 1) := by
    rw [← hprogram]
    omega
  obtain rfl := Option.some.inj ((evaluate_eq_some hrun).symm.trans hx)
  rw [hprogram] at hmore
  rcases Machine.run_code_attempts (Snapshot.host_orderly e.before.symbols)
    (Machine.lawful_any _ _ []) htyped e.before.nextLimit hfuel e.before.machine with
    ⟨v, m', hends, -⟩ | ⟨err, m', hends, hkeeps, -⟩
  · rw [← hprogram] at hmore hends
    obtain ⟨rfl, rfl⟩ := Prod.mk.inj (Option.some.inj (hmore.symm.trans hends))
    simp [Except.map, Except.isOk, Except.toBool] at hxfails
  · rw [← hprogram] at hmore hends
    obtain ⟨rfl, rfl⟩ := Prod.mk.inj (Option.some.inj (hmore.symm.trans hends))
    rw [hwritten, hkeeps.output]
    rfl

/-- **The output of a session is what its evaluations wrote that did not fail**, in their order,
whatever chance and the clock have in store. So it is all that was written exactly if those that
failed have written nothing. This is so for all compiled bindings, which come to an end in every
call. -/
theorem output_after (fuel : Nat) (bindings : Bindings Code) (symbols : Table String)
    (limit : Duration) (snapshot : Snapshot) (draws : Tape Nat) (clocks : Tape (Tape Bool))
    (calls : List Call) :
    let s := start bindings symbols limit snapshot draws clocks
    (∀ t, s.after fuel calls = some t →
      t.output = written (completed (s.evaluations fuel calls)) ∧
      (t.output = written (s.evaluations fuel calls) ↔
        ∀ e ∈ s.evaluations fuel calls, e.fails = true → written [e] = "")) ∧
    ∀ source, compileBindings source = .ok bindings →
      (∀ t, s.after fuel calls = some t → t.output = written (s.evaluations fuel calls)) ∧
      ((∀ code ∈ bindings.codes, code.length < fuel) → ∃ t, s.after fuel calls = some t) := by
  intro s
  have houtput : ∀ t, s.after fuel calls = some t →
      t.output = written (completed (s.evaluations fuel calls)) := by
    intro t ht
    exact ((traces_adds fuel).calls ht).output.trans String.empty_append
  refine ⟨fun t ht => ⟨houtput t ht, ?_⟩, fun source hcompile => ⟨fun t ht => ?_, fun hfuel => ?_⟩⟩
  · rw [houtput t ht]
    exact written_completed_eq_iff (s.evaluations fuel calls)
  · rw [houtput t ht]
    refine (written_completed_eq_iff (s.evaluations fuel calls)).2 fun e he hfails => ?_
    exact written_of_fails hcompile (((traces_adds fuel).calls ht).programs e he) hfails
  · exact exists_after hcompile hfuel calls rfl

/-- Bindings of which one writes a line and one may fail. -/
def greetingSource : String :=
  "click: \x7b WriteLn(@ui.mode) \x7d, value: \x7b 7 / Length(@ui.mode) \x7d"

/-- A call that fails between two others takes nothing from the output. -/
theorem output_after_greeting :
    ∃ p t, compileBindings greetingSource = .ok p ∧
      (((plain p []).run 9 .value).any fun x => !x.1.isOk) = true ∧
      (plain p []).after 9 [.one .click, .one .value, .one .click] = some t ∧ t.output = "\n\n" ∧
      written ((plain p []).evaluations 9 [.one .click, .one .value, .one .click]) = "\n\n" := by
  obtain ⟨p, hcompile, hfails, t, ht, houtput⟩ : ∃ p, compileBindings greetingSource = .ok p ∧
      (((plain p []).run 9 .value).any fun x => !x.1.isOk) = true ∧
      ∃ t, (plain p []).after 9 [.one .click, .one .value, .one .click] = some t ∧
        t.output = "\n\n" := by
    decide +kernel
  have hall := ((output_after 9 p [] ⟨0⟩ [] ⟨fun _ => 0, 0⟩ ⟨fun _ => ⟨fun _ => false, 0⟩, 0⟩
    [.one .click, .one .value, .one .click]).2 _ hcompile).1 t ht
  exact ⟨p, t, hcompile, hfails, ht, houtput, hall.symm.trans houtput⟩

/-- A program that writes first, and asks for a character that is none after that. -/
def interruptedText : String := "\x7b\"value\":\"fc:Write:1||s:x||fc:Chr:1||n:-1\"\x7d"

/-- A program that was read from a text can write and then fail, and what it has written is lost. -/
theorem output_after_interrupted :
    ∃ p t, Bindings.ofText "||" interruptedText = .ok p ∧
      written ((plain p []).evaluations 9 [.one .value]) = "x" ∧
      (plain p []).after 9 [.one .value] = some t ∧ t.output = "" := by
  simp only [exists_and_left]
  decide +kernel

end BindScript.Session
