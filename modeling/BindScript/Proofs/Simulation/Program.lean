/-
**The machine runs programs.**

The program of an accepted source text, run on the machine without a host and without a limit, does
what the rules of execution say about its tree: the run comes to an end if the tree has an outcome,
and then shows that outcome; and it goes on for ever if the tree has none.  Nothing is assumed about
the outcome: a run may fail, at any depth of open blocks.

Main results:

* `Machine.runFuel_simulates` — **the machine runs programs as their trees say**.
-/

import BindScript.Proofs.Simulation.Statement

namespace BindScript

variable {length : Nat}

namespace Machine

/-! ### Whole runs -/

/-- What a run gives out at its end. -/
def lastOf : Result Unit Unit → Result Unit (Option Value)
  | (.error e, n) => (.error e, n)
  | (.ok (), n) => (.ok n.lastValue, n)

variable {m : Machine Unit} {code : Code} {limit : Limit} {fuel : Nat}

theorem runFuel_eq :
    runFuel .plain code.toArray limit fuel m =
      (runUntil (step .plain code.toArray fuel) code.length fuel (m.reset.withLimit limit)).map
        lastOf := by
  rw [runFuel, List.size_toArray]
  rcases runUntil (step .plain code.toArray fuel) code.length fuel (m.reset.withLimit limit) with
    _ | ⟨_ | _, _⟩ <;> rfl

theorem reaches_of_runFuel {r : Result Unit (Option Value)}
    (h : runFuel .plain code.toArray limit fuel m = some r) :
    ∃ x, Reaches code.toArray code.length (m.reset.withLimit limit) x ∧ r = lastOf x := by
  rw [runFuel_eq] at h
  obtain ⟨x, hx, rfl⟩ := Option.map_eq_some_iff.1 h
  exact ⟨x, ⟨fuel, fuel, hx⟩, rfl⟩

/-- A run that comes to a result does so with any amount of fuel from some point on. -/
theorem runFuel_of_reaches {x : Result Unit Unit}
    (h : Reaches code.toArray code.length (m.reset.withLimit limit) x) :
    ∃ enough, ∀ fuel, enough ≤ fuel →
      runFuel .plain code.toArray limit fuel m = some (lastOf x) := by
  obtain ⟨rounds, fuel, h⟩ := h
  refine ⟨max rounds fuel, fun more hmore => ?_⟩
  have hrounds : rounds ≤ more := by omega
  have hfuel : fuel ≤ more := by omega
  rw [runFuel_eq, runUntil_mono (step_mono hfuel) _ hrounds h, Option.map_some]

/-! ### The outermost block -/

/-- What can be seen of a run is what the outcome says. The console and the last value are the same,
and every variable that can be asked for has its value. After a normal end the machine has come to
the end of the code, with no block open; after an error the open blocks are those of the outcome. -/
def Shows (length : Nat) (o : Outcome) (r : Result Unit (Option Value)) : Prop :=
  r.2.console = o.2.console ∧ r.2.lastValue = o.2.last ∧
    (∀ name, r.2.valueOf? name = o.2.env.valueOf? name) ∧
    match o.1 with
    | .ok () => r.1 = .ok o.2.last ∧ r.2.position = length ∧ r.2.frames = []
    | .error e => r.1 = .error e ∧ ∃ laters, r.2.frames = Frames.holding o.2.env laters

theorem shows_error {e : RuntimeError} {p : Nat} {laters : List (List Slot)} {st : Store}
    (hfinished : m.finished = none) :
    Shows length (.error e, st) (lastOf (.error e, m.holding p laters st)) := by
  refine ⟨rfl, rfl, fun name => ?_, rfl, laters, rfl⟩
  simp only [lastOf, valueOf?, Env.valueOf?, holding, Frames.find?_holding, hfinished]
  cases st.env.lookup? (splitName name).1 <;> rfl

theorem shows_ok {values : Table Value} {st : Store} (henv : st.env = [values]) :
    Shows length (.ok (), st) (lastOf (.ok (), leave (m.holding length [[]] st))) := by
  have hleave : leave (m.holding length [[]] st) =
      { m.holding length [[]] st with
        frames := [], finished := some (Frame.holding values []) } := by
    simp only [leave, holding, henv, Frames.holding, List.headD_cons]
  rw [hleave]
  refine ⟨rfl, rfl, fun name => ?_, rfl, rfl, rfl⟩
  simp only [lastOf, valueOf?, Env.valueOf?, henv, Env.lookup?, Frames.find?, List.findSome?_nil,
    Option.none_or, Option.bind_some, Frame.live?_holding, List.findSome?_cons]
  cases values.lookup (splitName name).1 <;> rfl

variable {fresh : Prop} {initial : List Slot} {root : Block}

theorem position_leave (n : Machine Unit) : (leave n).position = n.position := by
  rw [leave_eq]

/-- The store that a program begins with has the globals, with values of their types. -/
theorem fits_globals {later : List Slot} (hslots : root.slots = initial ++ later)
    (hbound : ∀ slot ∈ initial, slot.bound = true) (hlater : ∀ slot ∈ later, slot.bound = false)
    (hleaves : ∀ slot ∈ initial, slot.ty = slot.value.ty ∧ slot.ty.isLeaf = true)
    (console : Console) :
    Store.Fits ⟨[boundValues root.slots], console, none⟩ [⟨initial, []⟩] := by
  refine ⟨by simp,
    Scopes.Settled.push ⟨by simp [Scopes.Coherent], by simp [Scopes.LeafTyped]⟩ hleaves, ?_⟩
  refine .cons ?_ .nil
  rw [boundValues_eq hslots hbound hlater]
  exact List.forall₂_map_right_iff.2 (List.forall₂_same.2 fun slot _ => ⟨rfl, rfl⟩)

/-- The outermost block agrees with its code, and ends with one scope. -/
theorem agree_program (hlimit : m.limit = .none) (hindex : IsIndex root.code.length)
    (hfresh : fresh)
    (hroot : TypedAll fresh [⟨initial, []⟩] root.statements [⟨root.slots, root.types⟩])
    (hnames : (initial.map (·.name)).Nodup) (hbound : ∀ slot ∈ initial, slot.bound = true)
    (hleaves : ∀ slot ∈ initial, slot.ty = slot.value.ty ∧ slot.ty.isLeaf = true)
    (console : Console) :
    ∃ later,
      enter root.slots (m.holding 1 [] ⟨[], console, none⟩) =
        m.holding 1 [later] ⟨[boundValues root.slots], console, none⟩ ∧
      Agree (root.Runs console)
        (Reaches root.code.toArray root.code.length
          (m.holding 1 [later] ⟨[boundValues root.slots], console, none⟩))
        (Settles m [[]] root.code.length) ∧
      ∀ st, root.Runs console (.ok (), st) → ∃ values, st.env = [values] := by
  obtain ⟨later, types, hgrown, hlater, -⟩ := hroot.extends
  obtain ⟨hslots, -⟩ : root.slots = initial ++ later ∧ root.types = types := by
    simpa [Scopes.extend] using hgrown
  have hdistinct : (root.slots.map (·.name)).Nodup := hroot.distinct hnames
  have hframe := Frame.ofSlots_eq hslots hdistinct hbound hlater
  have hst := fits_globals hslots hbound hlater hleaves console
  refine ⟨later, by simp only [enter, hframe, holding, Frames.holding, List.headD_cons], ?_, ?_⟩
  · have hcode : Code.At root.code.toArray 1 (codeOfStatements 1 root.statements) := by
      have hat := Code.at_self root.code
      nth_rewrite 2 [root.code_eq] at hat
      exact (Code.at_cons.1 hat).2
    have hlength : root.code.length = 1 + (codeOfStatements 1 root.statements).length := by
      rw [root.code_eq, List.length_cons, Nat.add_comm]
    have hsize : IsIndex root.code.toArray.size := by simpa using hindex
    rw [hlength]
    exact agree_statements hlimit hsize hfresh hroot hst hslots (List.append_nil _).symm hcode
  · intro st hruns
    have hfits := (hruns.fits hfresh rfl hroot (List.append_nil _).symm hst).env
    obtain ⟨values, env, -, henv, hst⟩ := List.forall₂_cons_left_iff.1 hfits
    cases henv
    exact ⟨values, hst⟩

theorem reaches_program {x : Result Unit Unit} (hlimit : m.limit = .none)
    (hindex : IsIndex root.code.length) (hposition : m.position = 0) :
    Reaches root.code.toArray root.code.length m x ↔
      ∃ r, Reaches root.code.toArray root.code.length
        (enter root.slots { m with position := 1 }) r ∧ x = closing r := by
  have hlength : root.code.length =
      m.position + 1 + (codeOfStatements 1 root.statements).length := by
    rw [root.code_eq, List.length_cons, hposition]
    omega
  have hi : root.code.toArray[m.position]? =
      some (.block (codeOfStatements 1 root.statements).length root.slots) := by
    rw [hposition, root.code_eq]
    rfl
  have hsteps : ∀ x, StepsTo root.code.toArray m x ↔ _ :=
    fun x => stepsTo_block hlimit hi (by rw [List.size_toArray]; omega) (by simpa using hindex)
  rw [← hlength, hposition] at hsteps
  rw [reaches_step (by omega)]
  constructor
  · rintro (⟨e, n, hstep, rfl⟩ | ⟨n, hstep, hrest⟩)
    · exact (hsteps _).1 hstep
    · -- the block has come to the end of the code, so the run is over
      obtain ⟨⟨e | u, n'⟩, hr, heq⟩ := (hsteps _).1 hstep
      · simp [closing] at heq
      · obtain rfl : n = leave n' := by simpa [closing] using heq
        have hle := hr.stop_le
        rw [← position_leave] at hle
        exact ⟨_, hr, (reaches_stop hle).1 hrest⟩
  · rintro ⟨⟨e | u, n⟩, hr, rfl⟩
    · exact .inl ⟨e, n, (hsteps _).2 ⟨_, hr, rfl⟩, rfl⟩
    · refine .inr ⟨leave n, (hsteps _).2 ⟨_, hr, rfl⟩, (reaches_stop ?_).2 rfl⟩
      rw [position_leave]
      exact hr.stop_le

theorem shows_of_settles {o : Outcome} {r : Result Unit Unit} (hfinished : m.finished = none)
    (henv : ∀ st, o = (.ok (), st) → ∃ values, st.env = [values]) (h : Settles m [[]] length o r) :
    Shows length o (lastOf (closing r)) := by
  obtain ⟨e | u, st⟩ := o
  · obtain ⟨p, laters, rfl⟩ := h
    exact shows_error hfinished
  · obtain rfl : r = (.ok (), m.holding length [[]] st) := h
    obtain ⟨values, hvalues⟩ := henv st rfl
    exact shows_ok hvalues

/-! ### Programs -/

/-- **The machine runs programs as their trees say**, if record names are fresh. A program that is
accepted and has an outcome is run to its end with any amount of fuel from some point on, and shows
that outcome; every run that ends shows an outcome of the program; and the program has no outcome
exactly if its run does not end. -/
theorem runFuel_simulates {source : String} {globals : Globals}
    (hparse : parseProgram source globals = .ok root) (hglobals : (globals.map Prod.fst).Nodup)
    (hfresh : RecordNamesFresh source) (hindex : IsIndex root.code.length) (m : Machine Unit) :
    (∀ o, root.Runs { m.console with output := "" } o →
        ∃ enough r, (∀ fuel, enough ≤ fuel →
          runFuel .plain root.code.toArray .none fuel m = some r) ∧
          Shows root.code.length o r) ∧
      (∀ fuel r, runFuel .plain root.code.toArray .none fuel m = some r →
        ∃ o, root.Runs { m.console with output := "" } o ∧ Shows root.code.length o r) ∧
      ((∀ o, ¬root.Runs { m.console with output := "" } o) ↔
        ∀ fuel, runFuel .plain root.code.toArray .none fuel m = none) := by
  obtain ⟨initial, hinitial, hroot⟩ := parseProgram_typed hparse
  obtain ⟨hnames, hslots⟩ := globalSlots_eq_ok hinitial
  have hlimit : (m.reset.withLimit .none).limit = .none := rfl
  obtain ⟨later, henter, hagree, hscope⟩ := agree_program hlimit hindex hfresh hroot
    (by rw [hnames]; exact hglobals) (fun slot hslot => (hslots slot hslot).1)
    (fun slot hslot => (hslots slot hslot).2) { m.console with output := "" }
  have hreaches : ∀ x, Reaches root.code.toArray root.code.length (m.reset.withLimit .none) x ↔ _ :=
    fun x => reaches_program hlimit hindex rfl
  have hstart : enter root.slots { m.reset.withLimit .none with position := 1 } = _ := henter
  rw [hstart] at hreaches
  have hforth : ∀ o, root.Runs { m.console with output := "" } o →
      ∃ enough r, (∀ fuel, enough ≤ fuel →
        runFuel .plain root.code.toArray .none fuel m = some r) ∧
        Shows root.code.length o r := by
    intro o ho
    obtain ⟨r, hr, hsettles⟩ := hagree.2 o ho
    obtain ⟨enough, hfuel⟩ := runFuel_of_reaches ((hreaches _).2 ⟨r, hr, rfl⟩)
    exact ⟨enough, _, hfuel, shows_of_settles rfl (fun st hst => hscope st (hst ▸ ho)) hsettles⟩
  have hback : ∀ fuel r, runFuel .plain root.code.toArray .none fuel m = some r →
      ∃ o, root.Runs { m.console with output := "" } o ∧ Shows root.code.length o r := by
    intro fuel r hrun
    obtain ⟨x, hx, rfl⟩ := reaches_of_runFuel hrun
    obtain ⟨r, hr, rfl⟩ := (hreaches x).1 hx
    obtain ⟨o, ho, hsettles⟩ := hagree.1 r hr
    exact ⟨o, ho, shows_of_settles rfl (fun st hst => hscope st (hst ▸ ho)) hsettles⟩
  -- the last part follows from the other two
  refine ⟨hforth, hback, fun hnone fuel => ?_, fun hnone o ho => ?_⟩
  · cases hrun : runFuel .plain root.code.toArray .none fuel m with
    | none => rfl
    | some r =>
      obtain ⟨o, ho, -⟩ := hback fuel r hrun
      exact absurd ho (hnone o)
  · obtain ⟨enough, r, hfuel, -⟩ := hforth o ho
    have := hfuel enough (Nat.le_refl _)
    rw [hnone] at this
    exact absurd this (by simp)

/-- Whether a run ends without a value and leaves an integer in a variable. -/
def leavesInt (name : String) (n : Int64) (r : Result σ (Option Value)) : Bool :=
  match r.1, r.2.valueOf? name with
  | .ok (some .void), some (.int k) => k == n
  | _, _ => false

/-- A loop counts to the value of a global. -/
theorem runFuel_simulates_counting :
    ∃ root m' o, parseProgram "int i = 0; while (i < n) { i = i + 1; }" [("n", .int 2)] = .ok root ∧
      runFuel .plain root.code.toArray .none 60 (start () Console.empty) =
        some (.ok (some .void), m') ∧
      m'.valueOf? "i" = some (.int 2) ∧ m'.position = root.code.length ∧
      root.Runs Console.empty o ∧ Shows root.code.length o (.ok (some .void), m') := by
  obtain ⟨root, hparse, hlength, ⟨result, m'⟩, hrun, hposition, hr⟩ :
      ∃ root, parseProgram "int i = 0; while (i < n) { i = i + 1; }" [("n", .int 2)] = .ok root ∧
        root.code.length < 20 ∧
        ∃ r, runFuel .plain root.code.toArray .none 60 (start () Console.empty) = some r ∧
          r.2.position = root.code.length ∧ leavesInt "i" 2 r = true := by
    decide +kernel
  have hfresh : RecordNamesFresh "int i = 0; while (i < n) { i = i + 1; }" := by decide +kernel
  have hindex : IsIndex root.code.length := Nat.lt_trans hlength (by decide)
  obtain ⟨o, ho, hshows⟩ :=
    (runFuel_simulates hparse (by decide) hfresh hindex (start () Console.empty)).2.1 60 _ hrun
  unfold leavesInt at hr
  split at hr
  · rename_i n hresult hvalue
    obtain rfl : n = 2 := eq_of_beq hr
    obtain rfl : result = .ok (some .void) := hresult
    exact ⟨root, m', o, hparse, hrun, hvalue, hposition, ho, hshows⟩
  · cases hr

/-- A tree in which a record type hides another one: the value of a leaf is negated as the hiding
type says. -/
def hidesRecord : Block → Bool
  | .mk slots _ [.declare _ "p" (.record _) none, .block _ (.mk [⟨_, _, _, false⟩] _
      [.declare _ "b" .bool (some (.negate _ true (.load ⟨_, "p", some "x", _⟩)))])] =>
    match slots with
    | [⟨"p", _, .record [("x", .int 0)], false⟩] => true
    | _ => false
  | _ => false

/-- **Where a record type hides another one, trees and machine differ.** The tree negates a truth
value, and fails because the leaf is an integer; the machine takes the negation that the integer
has, and goes on. -/
theorem negation_under_hidden_record :
    ∃ root st r m',
      parseProgram "record P { int x; } P p; { record P { bool x; } bool b = !p.x; }" [] =
        .ok root ∧
      root.Runs Console.empty (.error (.wrongKind .bool .int), st) ∧
      runFuel .plain root.code.toArray .none 60 (start () Console.empty) = some (.ok r, m') := by
  obtain ⟨root, hparse, hhides, ⟨e | r, m'⟩, hrun, hok⟩ : ∃ root,
      parseProgram "record P { int x; } P p; { record P { bool x; } bool b = !p.x; }" [] =
        .ok root ∧
        hidesRecord root = true ∧
        ∃ r, runFuel .plain root.code.toArray .none 60 (start () Console.empty) = some r ∧
          r.1.isOk = true := by
    decide +kernel
  · simp [Except.isOk, Except.toBool] at hok
  · unfold hidesRecord at hhides
    split at hhides
    · split at hhides
      · refine ⟨_, ?st, r, m', hparse, ?runs, hrun⟩
        case runs =>
          refine .cons .declare (.fails (.block (.fails (.fails (.declareFails ?eval)))))
          case eval => rfl
      · cases hhides
    · cases hhides

end Machine

end BindScript
