/-
**The order of bindings.**

All bindings are run in the order in which they stand, and a program that sets a value is seen by
those after it.  Where no program sets a value the snapshot stays as it is, and where none draws a
number chance has no part in it.  Without a limit such programs come to the same wherever they
stand, so that the order of kinds and entries does not matter.

A text keeps the order of names only.  So bindings that were written and read again behave as before
if they neither set a value nor draw a number, or if they stood in the order of names to begin with;
in other cases they need not.

Main results:

* `Session.runAll_ofJson` — **bindings behave as before when they have been written and read**.
-/

import BindScript.Binding.Session
import BindScript.Proofs.Binding.Text
import BindScript.Proofs.Effects.Atomic
import BindScript.Proofs.Machine.Host
import BindScript.Proofs.Machine.World
import Mathlib.Data.List.Perm.Basic

namespace BindScript

/-! ### Programs that set nothing and draw nothing -/

/-- No program of the bindings calls the function. -/
def Bindings.Avoid (b : Builtin) (p : Bindings Code) : Prop := ∀ code ∈ p.codes, code.Avoids b

instance (b : Builtin) (p : Bindings Code) : Decidable (p.Avoid b) :=
  inferInstanceAs (Decidable (∀ code ∈ p.codes, code.Avoids b))

variable {code : Code} {es : Table Code} {kind : Binding.Kind}

theorem Snapshot.host_quiet (symbols : Table String) (h : code.Avoids .setValue) :
    Machine.Quiet (Snapshot.host symbols) code.toArray where
  resolve _ _ := rfl
  call name argc hcall args s r hr := by
    have hname := h.name_ne (List.mem_toArray.1 hcall)
    change Snapshot.call? name args s = some r at hr
    unfold Snapshot.call? at hr
    split at hr
    · cases hr
      rfl
    · cases hr
      rfl
    · rename_i hset
      exact absurd hset hname
    · cases hr

/-- The programs of compiled bindings are those of typed expressions. -/
theorem compileBindings_typed {source : String} {p : Bindings Code}
    (h : compileBindings source = .ok p) (hcode : code ∈ p.codes) :
    ∃ e : Expr, e.Typed [Scope.empty] ∧ code = e.code := by
  obtain ⟨trees, hparse, rfl⟩ := except_map_eq_ok.1 h
  rw [Bindings.codes_map] at hcode
  obtain ⟨e, he, rfl⟩ := List.mem_map.1 hcode
  exact ⟨e, parseBindings_typed hparse e he, rfl⟩

/-- A compiled program comes to a result when there is more fuel than it has instructions. -/
theorem exists_runFuel {source : String} {p : Bindings Code} (h : compileBindings source = .ok p)
    (hcode : code ∈ p.codes) {fuel : Nat} (hfuel : code.length < fuel) (symbols : Table String)
    (limit : Limit) (m : Machine Snapshot) :
    ∃ r m', Machine.runFuel (Snapshot.host symbols) code.toArray limit fuel m = some (r, m') := by
  obtain ⟨e, he, rfl⟩ := compileBindings_typed h hcode
  rcases Machine.run_code_attempts (Snapshot.host_orderly symbols) (Machine.lawful_any _ _ []) he
    limit hfuel m with ⟨v, m', hrun, -⟩ | ⟨err, m', hrun, -⟩
  · exact ⟨_, m', hrun⟩
  · exact ⟨_, m', hrun⟩

namespace Session

variable {s : Session} {fuel : Nat}

theorem evaluate_eq_some {r : Except RuntimeError (Option Value)} {m : Machine Snapshot}
    (h : Machine.runFuel (Snapshot.host s.symbols) code.toArray s.nextLimit fuel s.machine =
      some (r, m)) :
    s.evaluate fuel code = some (r.map (·.getD .void),
      { s.continueFrom m with output := if r.isOk then s.output ++ m.output else s.output }) := by
  rw [evaluate, h]
  cases r <;> rfl

theorem exists_of_evaluate {x : Except RuntimeError Value × Session}
    (h : s.evaluate fuel code = some x) :
    ∃ r m, Machine.runFuel (Snapshot.host s.symbols) code.toArray s.nextLimit fuel s.machine =
      some (r, m) := by
  cases hrun : Machine.runFuel (Snapshot.host s.symbols) code.toArray s.nextLimit fuel
    s.machine with
  | none =>
    rw [evaluate, hrun] at h
    cases h
  | some y => exact ⟨y.1, y.2, rfl⟩

theorem run_none (h : s.bindings.find? kind = none) : s.run fuel kind = some (.ok .nothing, s) := by
  rw [run, h]

theorem run_expr (h : s.bindings.find? kind = some (.expr code)) :
    s.run fuel kind = (s.evaluate fuel code).map fun x => (x.1.bind (outcome kind), x.2) := by
  rw [run, h]

theorem run_entries (h : s.bindings.find? kind = some (.entries es)) :
    s.run fuel kind = (s.evaluateAll fuel es).map fun x => (x.1.map .entries, x.2) := by
  rw [run, h]

/-! ### One after the other -/

/-- In all sessions of a sort an act comes to a result, the result is as it should be, and such a
session is left behind. -/
def Meets {α : Type} (P : Session → Prop) (act : Session → Answer α)
    (Q : Except RuntimeError α → Prop) : Prop :=
  ∀ s, P s → ∃ r t, act s = some (r, t) ∧ Q r ∧ P t

section Each

variable {ι κ α : Type} {label : ι → κ} {P : Session → Prop}

theorem Meets.map {β : Type} {act : Session → Answer α} {Q : Except RuntimeError α → Prop}
    {Q' : Except RuntimeError β → Prop} (h : Meets P act Q)
    (f : Except RuntimeError α → Except RuntimeError β) (hf : ∀ r, Q r → Q' (f r)) :
    Meets P (fun s => (act s).map fun x => (f x.1, x.2)) Q' := by
  intro s hs
  obtain ⟨r, t, hact, hr, ht⟩ := h s hs
  refine ⟨f r, t, ?_, hf r hr, ht⟩
  simp only [hact]
  rfl

/-- The results that acts have one after the other, from the results of each. -/
inductive EachMeets (label : ι → κ) (Q : ι → Except RuntimeError α → Prop) :
    List ι → Except RuntimeError (List (κ × α)) → Prop
  | nil : EachMeets label Q [] (.ok [])
  | first {i is e} : Q i (.error e) → EachMeets label Q (i :: is) (.error e)
  | later {i is a e} : Q i (.ok a) → EachMeets label Q is (.error e) →
      EachMeets label Q (i :: is) (.error e)
  | cons {i is a as} : Q i (.ok a) → EachMeets label Q is (.ok as) →
      EachMeets label Q (i :: is) (.ok ((label i, a) :: as))

theorem each_meets (label : ι → κ) {act : ι → Session → Answer α}
    {Q : ι → Except RuntimeError α → Prop} {is : List ι} (h : ∀ i ∈ is, Meets P (act i) (Q i)) :
    Meets P (each label act is) (EachMeets label Q is) := by
  induction is with
  | nil => exact fun s hs => ⟨_, s, rfl, .nil, hs⟩
  | cons i is ih =>
    obtain ⟨hi, hrest⟩ := List.forall_mem_cons.1 h
    intro s hs
    obtain ⟨r, t, hact, hr, ht⟩ := hi s hs
    obtain ⟨r', u, hall, hr', hu⟩ := ih hrest t ht
    rw [each, hact]
    cases r with
    | error e => exact ⟨_, t, rfl, .first hr, ht⟩
    | ok a =>
      simp only [hall]
      cases r' with
      | error e => exact ⟨_, u, rfl, .later hr hr', hu⟩
      | ok as => exact ⟨_, u, rfl, .cons hr hr', hu⟩

theorem each_map {ι' : Type} (f : ι' → ι) (act : ι → Session → Answer α) (is : List ι')
    (s : Session) :
    each label act (is.map f) s = each (fun i => label (f i)) (fun i => act (f i)) is s := by
  induction is generalizing s with
  | nil => rfl
  | cons i is ih => simp only [List.map_cons, each, ih]

theorem EachMeets.eq_mapM {give : ι → Except RuntimeError α} {is : List ι}
    {r : Except RuntimeError (List (κ × α))} (h : EachMeets label (fun i r => r = give i) is r) :
    r = is.mapM fun i => (give i).map (Prod.mk (label i)) := by
  induction h with
  | nil => rfl
  | first hi =>
    rw [List.mapM_cons, ← hi]
    rfl
  | later hi _ ih =>
    rw [List.mapM_cons, ← hi, ← ih]
    rfl
  | cons hi _ ih =>
    rw [List.mapM_cons, ← hi, ← ih]
    rfl

end Each

end Session

/-- The outcomes of a body, from the results of its programs. -/
def Binding.Body.Meets (Q : Code → Except RuntimeError Value → Prop) (kind : Binding.Kind) :
    Binding.Body Code → Except RuntimeError Binding.Outcome → Prop
  | .expr code, r => ∃ x, Q code x ∧ r = x.bind (Session.outcome kind)
  | .entries es, r => ∃ x, Session.EachMeets Prod.fst (fun e => Q e.2) es x ∧ r = x.map .entries

namespace Bindings

/-- The outcomes of a kind, from the results of the programs. -/
def Meets (Q : Code → Except RuntimeError Value → Prop) (p : Bindings Code) (kind : Binding.Kind)
    (r : Except RuntimeError Binding.Outcome) : Prop :=
  match p.find? kind with
  | none => r = .ok .nothing
  | some body => body.Meets Q kind r

theorem mem_codes_of_find? {p : Bindings Code} {body : Binding.Body Code}
    (hfind : p.find? kind = some body) (hcode : code ∈ body.codes) : code ∈ p.codes :=
  List.mem_flatMap.2 ⟨(kind, body), mem_of_find? hfind, hcode⟩

end Bindings

namespace Session

section Programs

variable {fuel : Nat} {p : Bindings Code} {P : Session → Prop}
  {Q : Code → Except RuntimeError Value → Prop}

theorem run_meets (hP : ∀ s, P s → s.bindings = p)
    (h : ∀ code ∈ p.codes, Meets P (evaluate fuel code) (Q code)) (kind : Binding.Kind) :
    Meets P (run fuel kind) (p.Meets Q kind) := by
  intro s hs
  have hfound := congrArg (·.find? kind) (hP s hs)
  cases hfind : p.find? kind with
  | none =>
    rw [run_none (hfound.trans hfind)]
    exact ⟨_, s, rfl, by rw [Bindings.Meets, hfind], hs⟩
  | some body =>
    unfold Bindings.Meets
    rw [hfind]
    cases body with
    | expr code =>
      have hcode := h code (Bindings.mem_codes_of_find? hfind (List.mem_singleton.2 rfl))
      rw [run_expr (hfound.trans hfind)]
      exact hcode.map (Except.bind · (outcome kind)) (fun x hx => ⟨x, hx, rfl⟩) s hs
    | entries es =>
      have hall : Meets P (evaluateAll fuel es) (EachMeets Prod.fst (fun e => Q e.2) es) :=
        each_meets _ fun e he => h e.2 (Bindings.mem_codes_of_find? hfind (List.mem_map_of_mem he))
      rw [run_entries (hfound.trans hfind)]
      exact hall.map (Except.map Binding.Outcome.entries) (fun x hx => ⟨x, hx, rfl⟩) s hs

theorem runAll_meets (hP : ∀ s, P s → s.bindings = p)
    (h : ∀ code ∈ p.codes, Meets P (evaluate fuel code) (Q code)) :
    Meets P (runAll fuel) (EachMeets id (p.Meets Q) p.kinds) := by
  intro s hs
  rw [runAll, hP s hs]
  exact each_meets id (fun kind _ => run_meets hP h kind) s hs

end Programs

/-! ### Programs, kinds, bindings -/

/-- A session without a limit that has the given bindings, symbols and snapshot. -/
structure Stands (p : Bindings Code) (symbols : Table String) (snapshot : Snapshot) (s : Session) :
    Prop where
  bindings : s.bindings = p
  symbols : s.symbols = symbols
  limit : s.limit = ⟨0⟩
  snapshot : s.snapshot = snapshot

theorem stands_start (p : Bindings Code) (symbols : Table String) (snapshot : Snapshot)
    (draws : Tape Nat) (clocks : Tape (Tape Bool)) :
    Stands p symbols snapshot (start p symbols ⟨0⟩ snapshot draws clocks) :=
  ⟨rfl, rfl, rfl, rfl⟩

end Session

/-- What a body comes to, from what its programs come to. -/
def Binding.Body.result (value : Code → Except RuntimeError Value) (kind : Binding.Kind) :
    Binding.Body Code → Except RuntimeError Binding.Outcome
  | .expr code => (value code).bind (Session.outcome kind)
  | .entries es => (es.mapM fun e => (value e.2).map (Prod.mk e.1)).map .entries

namespace Bindings

/-- What a kind comes to, from what the programs come to. -/
def result (value : Code → Except RuntimeError Value) (p : Bindings Code) (kind : Binding.Kind) :
    Except RuntimeError Binding.Outcome :=
  match p.find? kind with
  | none => .ok .nothing
  | some body => body.result value kind

/-- What all kinds come to in their order, up to the first error. -/
def results (value : Code → Except RuntimeError Value) (p : Bindings Code) :
    Except RuntimeError (List (Binding.Kind × Binding.Outcome)) :=
  p.kinds.mapM fun kind => (p.result value kind).map (Prod.mk kind)

theorem Meets.eq_result {value : Code → Except RuntimeError Value} {p : Bindings Code}
    {r : Except RuntimeError Binding.Outcome} (h : p.Meets (fun code r => r = value code) kind r) :
    r = p.result value kind := by
  unfold Meets at h
  unfold result
  cases hfind : p.find? kind with
  | none =>
    rw [hfind] at h
    exact h
  | some body =>
    rw [hfind] at h
    cases body with
    | expr code =>
      obtain ⟨x, rfl, rfl⟩ := h
      rfl
    | entries es =>
      obtain ⟨x, hx, rfl⟩ := h
      rw [hx.eq_mapM]
      rfl

end Bindings

namespace Session

variable {fuel : Nat} {p : Bindings Code} {symbols : Table String} {snapshot : Snapshot}
  {value : Code → Except RuntimeError Value}

/-- **A program that neither sets a value nor draws a number** comes to the same in all sessions
with one snapshot, whatever chance has in store and whatever was written before. -/
theorem evaluate_gives (snapshot : Snapshot) (hset : code.Avoids .setValue)
    (hdraw : code.Avoids .random)
    (hends : ∀ m, ∃ r m', Machine.runFuel (Snapshot.host symbols) code.toArray .none fuel m =
      some (r, m')) :
    ∃ r, ∀ p, Meets (Stands p symbols snapshot) (evaluate fuel code) (· = r) := by
  obtain ⟨r, m, hrun⟩ := hends (Machine.start snapshot Console.empty)
  refine ⟨r.map (·.getD .void), fun p s hs => ?_⟩
  have hlimit : s.nextLimit = .none := by
    rw [nextLimit, hs.limit]
    rfl
  have hmachine : s.machine = (Machine.start snapshot Console.empty).withDraws s.draws := by
    rw [machine, hs.snapshot]
    rfl
  have hhere : Machine.runFuel (Snapshot.host s.symbols) code.toArray s.nextLimit fuel s.machine =
      some (r, m.withDraws s.draws) := by
    rw [hs.symbols, hlimit, hmachine, Machine.runFuel_withDraws _ hdraw, hrun]
    rfl
  have hhost : m.host = snapshot :=
    Machine.runFuel_hostIs (Snapshot.host_quiet symbols hset) .none fuel _ _ hrun
  exact ⟨_, _, evaluate_eq_some hhere, rfl, hs.bindings, hs.symbols, hs.limit, hhost⟩

/-- What is run one after the other gives what each gives alone. -/
theorem runAll_gives (h : ∀ code ∈ p.codes,
    Meets (Stands p symbols snapshot) (evaluate fuel code) (· = value code)) :
    Meets (Stands p symbols snapshot) (runAll fuel) (· = p.results value) := by
  have hkind : ∀ kind ∈ p.kinds,
      Meets (Stands p symbols snapshot) (run fuel kind) (· = p.result value kind) := by
    intro kind _ s hs
    obtain ⟨r, t, hrun, hr, ht⟩ := run_meets (fun _ => Stands.bindings) h kind s hs
    exact ⟨r, t, hrun, hr.eq_result, ht⟩
  intro s hs
  obtain ⟨r, t, hrun, hr, ht⟩ := each_meets id hkind s hs
  refine ⟨r, t, ?_, hr.eq_mapM, ht⟩
  rw [runAll, hs.bindings]
  exact hrun

end Session

/-! ### Sorted bindings -/

section Results

variable {ε ι α : Type} {f : ι → Except ε α}

theorem mapM_eq_ok {is : List ι} {as : List α} :
    is.mapM f = .ok as ↔ List.Forall₂ (fun i a => f i = .ok a) is as := by
  induction is generalizing as with
  | nil => simp [pure, Except.pure, eq_comm]
  | cons i is ih =>
    rw [List.mapM_cons, except_bind_eq_ok, List.forall₂_cons_left_iff]
    constructor
    · rintro ⟨a, ha, hrest⟩
      obtain ⟨as', has', hall⟩ := except_bind_eq_ok.1 hrest
      exact ⟨a, as', ha, ih.1 has', (Except.ok.inj hall).symm⟩
    · rintro ⟨a, as', ha, hrest, rfl⟩
      exact ⟨a, ha, except_bind_eq_ok.2 ⟨as', ih.2 hrest, rfl⟩⟩

theorem exists_mapM_eq_ok {is : List ι} :
    (∃ as, is.mapM f = .ok as) ↔ ∀ i ∈ is, ∃ a, f i = .ok a := by
  simp only [mapM_eq_ok]
  induction is with
  | nil => exact ⟨fun _ => by simp, fun _ => ⟨[], .nil⟩⟩
  | cons i is ih =>
    rw [List.forall_mem_cons, ← ih]
    constructor
    · rintro ⟨_, _ | ⟨ha, hrest⟩⟩
      exact ⟨⟨_, ha⟩, _, hrest⟩
    · rintro ⟨⟨a, ha⟩, as, hrest⟩
      exact ⟨a :: as, .cons ha hrest⟩

end Results

/-- An outcome with its entries in the order of their names. -/
def Binding.Outcome.sorted : Binding.Outcome → Binding.Outcome
  | .entries es => .entries (Json.sortMembers es)
  | o => o

theorem Session.sorted_outcome {v : Value} {o : Binding.Outcome} (h : outcome kind v = .ok o) :
    o.sorted = o := by
  unfold outcome at h
  split at h
  · cases h
    rfl
  · cases h
    rfl
  · cases h
  · cases h
  · cases h
    rfl
  · cases h
    rfl

variable {value : Code → Except RuntimeError Value}

/-- A body comes to the same after sorting, with its entries sorted. -/
theorem Binding.Body.result_sorted {body : Binding.Body Code} (h : body.Suits kind) :
    (∀ o, body.result value kind = .ok o → body.sorted.result value kind = .ok o.sorted) ∧
    ∀ o, body.sorted.result value kind = .ok o → ∃ o', body.result value kind = .ok o' := by
  cases body with
  | expr code =>
    refine ⟨fun o ho => ?_, fun o ho => ⟨o, ho⟩⟩
    obtain ⟨v, -, hv⟩ := except_bind_eq_ok.1 ho
    rw [Session.sorted_outcome hv]
    exact ho
  | entries es =>
    have hperm : (Json.sortMembers es).Perm es := Json.sortMembers_perm h.2
    have hpair : ∀ (e : String × Code) (v : String × Value),
        (value e.2).map (Prod.mk e.1) = .ok v ↔ e.1 = v.1 ∧ value e.2 = .ok v.2 := by
      intro e v
      rw [except_map_eq_ok]
      constructor
      · rintro ⟨w, hw, rfl⟩
        exact ⟨rfl, hw⟩
      · rintro ⟨hname, hv⟩
        exact ⟨v.2, hv, by rw [hname]⟩
    constructor
    · intro o ho
      obtain ⟨vs, hvs, rfl⟩ := except_map_eq_ok.1 ho
      rw [mapM_eq_ok] at hvs
      simp only [hpair] at hvs
      have hsorted := Json.sortMembers_forall₂ (fun code v => value code = .ok v) hvs
      refine except_map_eq_ok.2 ⟨Json.sortMembers vs, mapM_eq_ok.2 ?_, rfl⟩
      simpa only [hpair] using hsorted
    · intro o ho
      obtain ⟨vs, hvs, -⟩ := except_map_eq_ok.1 ho
      obtain ⟨vs', hvs'⟩ := exists_mapM_eq_ok.2 fun e he =>
        exists_mapM_eq_ok.1 ⟨vs, hvs⟩ e (hperm.mem_iff.2 he)
      exact ⟨_, except_map_eq_ok.2 ⟨vs', hvs', rfl⟩⟩

namespace Bindings

variable {p : Bindings Code}

theorem mem_codes_sorted (h : p.WellFormed) (hcode : code ∈ p.sorted.codes) : code ∈ p.codes := by
  obtain ⟨b', hb', hcode⟩ := List.mem_flatMap.1 hcode
  obtain ⟨b, hb, rfl⟩ := List.mem_map.1 ((sorted_perm h.kinds).mem_iff.1 hb')
  refine List.mem_flatMap.2 ⟨b, hb, ?_⟩
  have hsuits := h.bodies b hb
  cases hbody : b.2 with
  | expr e =>
    rw [hbody] at hcode
    exact hcode
  | entries es =>
    rw [hbody] at hcode hsuits
    exact ((Json.sortMembers_perm hsuits.2).map Prod.snd).mem_iff.1 hcode

theorem result_sorted (h : p.WellFormed) (kind : Binding.Kind) :
    (∀ o, p.result value kind = .ok o → p.sorted.result value kind = .ok o.sorted) ∧
    ∀ o, p.sorted.result value kind = .ok o → ∃ o', p.result value kind = .ok o' := by
  simp only [result, find?_sorted h.kinds]
  cases hfind : p.find? kind with
  | none =>
    refine ⟨fun o ho => ?_, fun _ _ => ⟨_, rfl⟩⟩
    cases ho
    rfl
  | some body => exact Binding.Body.result_sorted (h.bodies _ (mem_of_find? hfind))

/-- **Sorted bindings come to the same**, in another order. -/
theorem results_sorted (value : Code → Except RuntimeError Value) (h : p.WellFormed) :
    (∀ os, p.results value = .ok os →
      ∃ os', p.sorted.results value = .ok os' ∧ os'.Perm (os.map fun o => (o.1, o.2.sorted))) ∧
    ∀ os', p.sorted.results value = .ok os' → ∃ os, p.results value = .ok os := by
  have hkinds : p.sorted.kinds.Perm p.kinds := kinds_sorted h.kinds
  constructor
  · intro os hos
    have hsorted : List.Forall₂
        (fun kind o => (p.sorted.result value kind).map (Prod.mk kind) = .ok o)
        p.kinds (os.map fun o => (o.1, o.2.sorted)) := by
      refine List.forall₂_map_right_iff.2 ((mapM_eq_ok.1 hos).imp fun kind o ho => ?_)
      obtain ⟨o', ho', rfl⟩ := except_map_eq_ok.1 ho
      exact except_map_eq_ok.2 ⟨_, (result_sorted h kind).1 o' ho', rfl⟩
    obtain ⟨os', hos', hperm⟩ := List.perm_comp_forall₂ hkinds hsorted
    exact ⟨os', mapM_eq_ok.2 hos', hperm⟩
  · intro os' hos'
    refine exists_mapM_eq_ok.2 fun kind hkind => ?_
    obtain ⟨o, ho⟩ := exists_mapM_eq_ok.1 ⟨os', hos'⟩ kind (hkinds.mem_iff.2 hkind)
    obtain ⟨o', ho', -⟩ := except_map_eq_ok.1 ho
    obtain ⟨o'', ho''⟩ := (result_sorted h kind).2 o' ho'
    exact ⟨_, except_map_eq_ok.2 ⟨o'', ho'', rfl⟩⟩

end Bindings

/-! ### Writing and reading -/

namespace Session

/-- **Compiled bindings that have been written and read again are the same bindings in the order of
names.** Bindings that stood in that order are the same as before, so that they do the same in every
session. Bindings that neither set a value nor draw a number come to a result without a limit,
before and after, whatever chance has in store; they leave the snapshot as it is, and either fail
both times or give the same outcome for each kind. -/
theorem runAll_ofJson {source separator : String} {first : Char} {p : Bindings Code}
    (hcompile : compileBindings source = .ok p) (hseparator : checkSeparator separator = .ok first)
    (hlength : ∀ code ∈ p.codes, IsIndex code.length) :
    ∃ q, Bindings.ofJson separator (p.toJson separator) = .ok q ∧
      Bindings.ofText separator (p.toJson separator).text = .ok q ∧ q = p.sorted ∧
      (p.InOrder → q = p) ∧
      (p.Avoid .setValue → p.Avoid .random →
        ∀ symbols snapshot draws clocks draws' clocks' fuel,
        (∀ code ∈ p.codes, code.length < fuel) →
        ∃ r s r' s', (start p symbols ⟨0⟩ snapshot draws clocks).runAll fuel = some (r, s) ∧
          (start q symbols ⟨0⟩ snapshot draws' clocks').runAll fuel = some (r', s') ∧
          s.snapshot = snapshot ∧ s'.snapshot = snapshot ∧
          (∀ os, r = .ok os →
            ∃ os', r' = .ok os' ∧ os'.Perm (os.map fun o => (o.1, o.2.sorted))) ∧
          ∀ e, r = .error e → ∃ e', r' = .error e') := by
  have hshape := (compileBindings_eq_ok hcompile).1
  have hread : Bindings.ofJson separator (p.toJson separator) = .ok p.sorted := by
    refine Bindings.ofJson_toJson hshape fun code hcode => ?_
    obtain ⟨e, -, rfl⟩ := compileBindings_typed hcompile hcode
    exact e.decode_code hseparator (hlength _ hcode)
  refine ⟨_, hread, by rw [Bindings.ofText_toJson, hread], rfl, Bindings.sorted_of_inOrder, ?_⟩
  intro hset hdraw symbols snapshot draws clocks draws' clocks' fuel hfuel
  -- each program has a value of its own, in both sessions
  have hvalues : ∀ code, ∃ r, code ∈ p.codes →
      ∀ q, Meets (Stands q symbols snapshot) (evaluate fuel code) (· = r) := by
    intro code
    by_cases hcode : code ∈ p.codes
    · obtain ⟨r, hr⟩ := evaluate_gives snapshot (hset code hcode) (hdraw code hcode)
        (exists_runFuel hcompile hcode (hfuel code hcode) symbols .none)
      exact ⟨r, fun _ => hr⟩
    · exact ⟨.ok .void, fun h => absurd h hcode⟩
  choose value hvalue using hvalues
  obtain ⟨_, s, hbefore, rfl, hs⟩ := runAll_gives (fun code hcode => hvalue code hcode p) _
    (stands_start p symbols snapshot draws clocks)
  obtain ⟨_, s', hafter, rfl, hs'⟩ := runAll_gives
    (fun code hcode => hvalue code (Bindings.mem_codes_sorted hshape hcode) p.sorted) _
    (stands_start p.sorted symbols snapshot draws' clocks')
  obtain ⟨hforward, hback⟩ := Bindings.results_sorted value hshape
  refine ⟨_, s, _, s', hbefore, hafter, hs.snapshot, hs'.snapshot, hforward, fun e he => ?_⟩
  cases hsorted : p.sorted.results value with
  | error e' => exact ⟨e', rfl⟩
  | ok os' =>
    obtain ⟨os, hos⟩ := hback os' hsorted
    exact absurd (hos.symm.trans he) (by simp)

/-- A snapshot with one entry. -/
def darkMode : Snapshot := [⟨"ui", "mode", .text "dark", none⟩]

/-- A session without symbols and limit, in which all draws are zero. -/
def plain (bindings : Bindings Code) (snapshot : Snapshot) : Session :=
  start bindings [] ⟨0⟩ snapshot ⟨fun _ => 0, 0⟩ ⟨fun _ => ⟨fun _ => false, 0⟩, 0⟩

/-- Bindings that read an entry, with neither the kinds nor the entries in the order of their
names. -/
def readingSource : String :=
  "value: \x7b @ui.mode \x7d, css: \x7b 'wide': 1 < 2, 'night': @ui.mode == 'dark' \x7d"

theorem runAll_ofJson_reading :
    ∃ p q os os' s s', compileBindings readingSource = .ok p ∧ p.Avoid .setValue ∧ p.Avoid .random ∧
      Bindings.ofText "||" (p.toJson "||").text = .ok q ∧ q.kinds ≠ p.kinds ∧
      (plain p darkMode).runAll 9 = some (.ok os, s) ∧
      (plain q darkMode).runAll 9 = some (.ok os', s') ∧
      os'.Perm (os.map fun o => (o.1, o.2.sorted)) := by
  obtain ⟨p, hcompile, hset, hdraw, hkinds, hlength, x, hx, hxok⟩ :
      ∃ p, compileBindings readingSource = .ok p ∧ p.Avoid .setValue ∧ p.Avoid .random ∧
        p.sorted.kinds ≠ p.kinds ∧ (∀ code ∈ p.codes, code.length < 9) ∧
        ∃ x, (plain p darkMode).runAll 9 = some x ∧ ∃ os, x.1 = .ok os ∧ True := by
    decide +kernel
  have hseparator : checkSeparator "||" = .ok '|' := rfl
  have hindex : ∀ code ∈ p.codes, IsIndex code.length := fun code hcode =>
    Nat.lt_trans (hlength code hcode) (by decide)
  obtain ⟨q, -, hread, rfl, -, hsame⟩ := runAll_ofJson hcompile hseparator hindex
  obtain ⟨r, s, r', s', hbefore, hafter, -, -, hok, -⟩ := hsame hset hdraw [] darkMode
    ⟨fun _ => 0, 0⟩ ⟨fun _ => ⟨fun _ => false, 0⟩, 0⟩ ⟨fun _ => 0, 0⟩
    ⟨fun _ => ⟨fun _ => false, 0⟩, 0⟩ 9 hlength
  obtain rfl : x = (r, s) := Option.some.inj (hx.symm.trans hbefore)
  obtain ⟨os, rfl, -⟩ := hxok
  obtain ⟨os', rfl, hperm⟩ := hok os rfl
  exact ⟨p, p.sorted, os, os', s, s', hcompile, hset, hdraw, hread, hkinds, hbefore, hafter, hperm⟩

/-- The texts of all outcomes, if there is no error. -/
def texts? (s : Session) : Option (List (Binding.Kind × String)) :=
  (s.runAll 9).bind fun x => x.1.toOption.map (List.map fun o => (o.1, o.2.toJson.text))

/-- Bindings of which one reads what the next one sets. -/
def settingSource : String :=
  "value: \x7b @ui.mode \x7d, click: \x7b SetValue('ui', 'mode', 'light') \x7d"

/-- Where a value is set the order matters: read again, the click comes before the value. -/
theorem runAll_ofJson_setting :
    ∃ p q, compileBindings settingSource = .ok p ∧ Bindings.ofJson "||" (p.toJson "||") = .ok q ∧
      (plain p darkMode).texts? = some [(.value, "\"dark\""), (.click, "null")] ∧
      (plain q darkMode).texts? = some [(.click, "null"), (.value, "\"light\"")] := by
  simp only [exists_and_left]
  decide +kernel

end Session

end BindScript
