/-
**The history of a session.**

Bindings are run by calls, of one kind or of all kinds.  Whatever a call comes to, its programs are
run one after the other up to the first error; the history of a session is all that they asked of
the snapshot, with the answers.  It leads from the snapshot at the start to the one at the end.  So
the snapshot is revised and nothing more, also by calls that fail; and what a program sets can be
followed through all that is asked later, be it by the same program, by another one, or by another
call.

Main results:

* `Session.snapshot_after` — **the frame law of snapshots**.
-/

import BindScript.Proofs.Binding.Session
import BindScript.Proofs.Binding.Snapshot

namespace BindScript

namespace Session

/-! ### Calls -/

/-- A call on a session: the binding of one kind, or all of them. -/
inductive Call where
  | one (kind : Binding.Kind)
  | all

/-- The session after a call, whether it fails or not. -/
def afterCall (fuel : Nat) (s : Session) : Call → Option Session
  | .one kind => (s.run fuel kind).map Prod.snd
  | .all => (s.runAll fuel).map Prod.snd

/-- The session after calls, one after the other. -/
def after (fuel : Nat) (s : Session) : List Call → Option Session
  | [] => some s
  | call :: calls => (s.afterCall fuel call).bind fun t => t.after fuel calls

section Compiled

variable {source : String} {p : Bindings Code} {fuel : Nat}

/-- Compiled bindings come to an end in every call, when there is more fuel than any program has
instructions. -/
theorem exists_after (hcompile : compileBindings source = .ok p)
    (hfuel : ∀ code ∈ p.codes, code.length < fuel) (calls : List Call) {s : Session}
    (hs : s.bindings = p) : ∃ t, s.after fuel calls = some t := by
  have hprograms : ∀ code ∈ p.codes,
      Meets (fun s => s.bindings = p) (evaluate fuel code) (fun _ => True) := by
    intro code hcode s hs
    obtain ⟨r, m, hrun⟩ :=
      exists_runFuel hcompile hcode (hfuel code hcode) s.symbols s.nextLimit s.machine
    exact ⟨_, _, evaluate_eq_some hrun, trivial, hs⟩
  induction calls generalizing s with
  | nil => exact ⟨s, rfl⟩
  | cons call calls ih =>
    cases call with
    | one kind =>
      obtain ⟨r, t, hrun, -, ht⟩ := run_meets (fun _ => id) hprograms kind s hs
      rw [after, afterCall, hrun]
      exact ih ht
    | all =>
      obtain ⟨r, t, hrun, -, ht⟩ := runAll_meets (fun _ => id) hprograms s hs
      rw [after, afterCall, hrun]
      exact ih ht

end Compiled

/-! ### Notes about programs -/

section Notes

variable {β : Type}

/-- The notes about acts that are done one after the other, up to the first error. -/
def notesOfEach {ι α : Type} (act : ι → Session → Answer α) (notes : ι → Session → List β) :
    List ι → Session → List β
  | [], _ => []
  | i :: rest, s =>
    match act i s with
    | some (.ok _, t) => notes i s ++ notesOfEach act notes rest t
    | _ => notes i s

variable (fuel : Nat) (note : Code → Session → List β)

/-- The notes about the binding of a kind. -/
def notesOfKind (kind : Binding.Kind) (s : Session) : List β :=
  match s.bindings.find? kind with
  | none => []
  | some (.expr code) => note code s
  | some (.entries es) => notesOfEach (fun e => evaluate fuel e.2) (fun e => note e.2) es s

def notesOfCall (s : Session) : Call → List β
  | .one kind => s.notesOfKind fuel note kind
  | .all => notesOfEach (run fuel) (notesOfKind fuel note) s.bindings.kinds s

/-- The notes about calls, one after the other. -/
def notes (s : Session) : List Call → List β
  | [] => []
  | call :: calls =>
    s.notesOfCall fuel note call ++ ((s.afterCall fuel call).map fun t => t.notes calls).getD []

/-- What notes say of the sessions between which they are taken, if it holds of the note about each
program and if notes can be joined. -/
structure Traces (R : Session → List β → Session → Prop) : Prop where
  nil : ∀ s, R s [] s
  append : ∀ {s t u xs ys}, R s xs t → R t ys u → R s (xs ++ ys) u
  bindings : ∀ {s t xs}, R s xs t → t.bindings = s.bindings
  program : ∀ {s : Session} {code x}, code ∈ s.bindings.codes → s.evaluate fuel code = some x →
    R s (note code s) x.2

variable {fuel note} {R : Session → List β → Session → Prop}

theorem Traces.each {ι κ α : Type} {label : ι → κ} {act : ι → Session → Answer α}
    {notes : ι → Session → List β} (h : Traces fuel note R) {p : Bindings Code} {is : List ι}
    (hact : ∀ i ∈ is, ∀ {s x}, s.bindings = p → act i s = some x → R s (notes i s) x.2)
    {s : Session} {x : Except RuntimeError (List (κ × α)) × Session} (hs : s.bindings = p)
    (hx : each label act is s = some x) : R s (notesOfEach act notes is s) x.2 := by
  induction is generalizing s x with
  | nil =>
    cases hx
    exact h.nil s
  | cons i is ih =>
    obtain ⟨hi, hrest⟩ := List.forall_mem_cons.1 hact
    rw [Session.each] at hx
    rw [notesOfEach]
    rcases hfirst : act i s with _ | ⟨e | a, t⟩
    · rw [hfirst] at hx
      cases hx
    · rw [hfirst] at hx
      cases hx
      exact hi hs hfirst
    · simp only [hfirst] at hx
      have ht := hi hs hfirst
      have hmore := fun y => ih hrest (x := y) ((h.bindings ht).trans hs)
      rcases hall : Session.each label act is t with _ | ⟨e | as, u⟩
      · rw [hall] at hx
        cases hx
      · rw [hall] at hx
        cases hx
        exact h.append ht (hmore _ hall)
      · rw [hall] at hx
        cases hx
        exact h.append ht (hmore (.ok as, u) hall)

theorem Traces.kind (h : Traces fuel note R) {kind : Binding.Kind} {s : Session}
    {x : Except RuntimeError Binding.Outcome × Session} (hx : s.run fuel kind = some x) :
    R s (s.notesOfKind fuel note kind) x.2 := by
  unfold notesOfKind
  cases hfind : s.bindings.find? kind with
  | none =>
    rw [run_none hfind] at hx
    cases hx
    exact h.nil s
  | some body =>
    cases body with
    | expr code =>
      rw [run_expr hfind] at hx
      obtain ⟨y, hy, rfl⟩ := Option.map_eq_some_iff.1 hx
      exact h.program (Bindings.mem_codes_of_find? hfind (List.mem_singleton.2 rfl)) hy
    | entries es =>
      rw [run_entries hfind] at hx
      obtain ⟨y, hy, rfl⟩ := Option.map_eq_some_iff.1 hx
      refine h.each (fun e he s x hs hx => h.program ?_ hx) rfl hy
      rw [hs]
      exact Bindings.mem_codes_of_find? hfind (List.mem_map_of_mem he)

theorem Traces.call (h : Traces fuel note R) {s t : Session} {call : Call}
    (ht : s.afterCall fuel call = some t) : R s (s.notesOfCall fuel note call) t := by
  cases call with
  | one kind =>
    obtain ⟨x, hx, rfl⟩ := Option.map_eq_some_iff.1 ht
    exact h.kind hx
  | all =>
    obtain ⟨x, hx, rfl⟩ := Option.map_eq_some_iff.1 ht
    exact h.each (fun kind _ s x _ hx => h.kind hx) rfl hx

/-- **The notes about calls** lead from the first session to the last one. -/
theorem Traces.calls (h : Traces fuel note R) {s t : Session} {calls : List Call}
    (ht : s.after fuel calls = some t) : R s (s.notes fuel note calls) t := by
  induction calls generalizing s with
  | nil =>
    obtain rfl := Option.some.inj ht
    exact h.nil s
  | cons call calls ih =>
    obtain ⟨u, hu, hrest⟩ := Option.bind_eq_some_iff.1 ht
    rw [notes, hu]
    exact h.append (h.call hu) (ih hrest)

end Notes

/-! ### What is asked -/

/-- What a program asks of the snapshot. -/
def asked (fuel : Nat) (code : Code) (s : Session) : List Host.Exchange :=
  (Machine.exchanges (Snapshot.host s.symbols) code.toArray s.nextLimit fuel s.machine).getD []

/-- What calls ask, one after the other. -/
def history (fuel : Nat) (s : Session) (calls : List Call) : List Host.Exchange :=
  s.notes fuel (asked fuel) calls

variable {s t u : Session} {xs ys : List Host.Exchange}

/-- The exchanges lead from the snapshot of the first session to that of the second one, and the
bindings and symbols stay. -/
structure Hears (s : Session) (xs : List Host.Exchange) (t : Session) : Prop where
  bindings : t.bindings = s.bindings
  symbols : t.symbols = s.symbols
  replays : (Snapshot.host s.symbols).Replays s.snapshot xs t.snapshot

theorem Hears.append (h : s.Hears xs t) (h' : t.Hears ys u) : s.Hears (xs ++ ys) u := by
  have hreplays := h'.replays
  rw [h.symbols] at hreplays
  exact ⟨h'.bindings.trans h.bindings, h'.symbols.trans h.symbols, h.replays.append hreplays⟩

theorem evaluate_hears {fuel : Nat} {code : Code} {x : Except RuntimeError Value × Session}
    (h : s.evaluate fuel code = some x) : s.Hears (asked fuel code s) x.2 := by
  obtain ⟨r, m, hrun⟩ := exists_of_evaluate h
  obtain ⟨xs, hxs, hreplays⟩ := Machine.runFuel_replays hrun
  obtain rfl := Option.some.inj ((evaluate_eq_some hrun).symm.trans h)
  refine ⟨rfl, rfl, ?_⟩
  rw [asked, hxs]
  exact hreplays

theorem traces_hears (fuel : Nat) : Traces fuel (asked fuel) Hears where
  nil _ := ⟨rfl, rfl, .nil⟩
  append := Hears.append
  bindings := Hears.bindings
  program _ h := evaluate_hears h

end Session

/-! ### The frame law -/

namespace Snapshot

/-- What setting a value in a snapshot does and does not do, when the given exchanges come after it.
Without an entry nothing happens.  No other name resolves to something else, and options stay as
they are.  The name of the entry resolves to the text, until the value is set again. -/
structure Settles (symbols : Table String) (s : Snapshot) (container key text : String)
    (later : List Host.Exchange) : Prop where
  missing : s.find? container key = none → s.setText container key text = s
  names : ∀ name, name ≠ container ++ "." ++ key →
    resolve symbols name (s.setText container key text) = resolve symbols name s
  options : ∀ args, selectedId args (s.setText container key text) = selectedId args s ∧
    selectedExtra args (s.setText container key text) = selectedExtra args s
  stays : '.' ∉ container.toList → (s.find? container key).isSome = true →
    ∀ xs ys, later = xs ++ ys →
    (∀ x ∈ xs, ∀ text', x.request.setting? ≠ some (container, key, text')) →
    (∀ t, (host symbols).Replays (s.setText container key text) xs t →
      resolve symbols (container ++ "." ++ key) t = text) ∧
    ∀ y zs, ys = y :: zs → y.request = .resolve (container ++ "." ++ key) →
      y.answer = .ok (.string text)

theorem settles {symbols : Table String} {s t : Snapshot} {container key text : String}
    {later : List Host.Exchange}
    (h : (host symbols).Replays (s.setText container key text) later t) :
    Settles symbols s container key text later where
  missing hnone := setText_eq_self hnone text
  names name hname := resolve_setText_other symbols hname text s
  options args := by
    simp only [selectedId, selectedExtra, selection?_setText, and_self]
  stays hcontainer hfound xs ys hlater hxs := by
    have hstays : ∀ u, (host symbols).Replays (s.setText container key text) xs u →
        resolve symbols (container ++ "." ++ key) u = text := by
      intro u hu
      rw [resolve_replays hu hxs hcontainer, resolve_setText symbols hcontainer hfound]
    refine ⟨hstays, ?_⟩
    rintro y zs rfl hrequest
    rw [hlater] at h
    obtain ⟨u, hu, hrest⟩ := h.split
    cases hrest with
    | cons hy _ =>
      rw [hrequest] at hy
      have hanswer := (Prod.mk.inj (Option.some.inj hy)).1
      rw [← hanswer, hstays u hu]

end Snapshot

namespace Session

/-- **The frame law of snapshots.** Calls revise the snapshot and do nothing else to it, whether
they fail or not, whatever chance and the clock have in store: it keeps its entries in their order
with containers, keys and selected options; some values become texts, and only in the first entries
with their container and key. All that happens is in the history of the session, which leads from
the snapshot at the start to the one at the end; and wherever the history sets a value, the name of
the entry resolves to it until it is set again, and nothing else that can be asked changes. Compiled
bindings come to an end in every call. -/
theorem snapshot_after (fuel : Nat) (s : Session) (calls : List Call) :
    (∀ source, compileBindings source = .ok s.bindings →
      (∀ code ∈ s.bindings.codes, code.length < fuel) → ∃ t, s.after fuel calls = some t) ∧
    ∀ t, s.after fuel calls = some t →
      s.snapshot.Revises t.snapshot ∧
      (Snapshot.host s.symbols).Replays s.snapshot (s.history fuel calls) t.snapshot ∧
      ∀ earlier x later container key text, s.history fuel calls = earlier ++ x :: later →
        x.request.setting? = some (container, key, text) →
        ∃ u, (Snapshot.host s.symbols).Replays s.snapshot earlier u ∧ x.answer = .ok .void ∧
          (Snapshot.host s.symbols).Replays (u.setText container key text) later t.snapshot ∧
          u.Settles s.symbols container key text later := by
  refine ⟨fun source hcompile hfuel => exists_after hcompile hfuel calls rfl, fun t ht => ?_⟩
  have hreplays : (Snapshot.host s.symbols).Replays s.snapshot (s.history fuel calls) t.snapshot :=
    ((traces_hears fuel).calls ht).replays
  refine ⟨Snapshot.replays_revises hreplays, hreplays, ?_⟩
  intro earlier x later container key text hhistory hset
  rw [hhistory] at hreplays
  obtain ⟨u, hearlier, hrest⟩ := hreplays.split
  cases hrest with
  | cons hx hlater =>
    rw [Snapshot.respond_setting hset] at hx
    obtain ⟨hanswer, rfl⟩ := Prod.mk.inj (Option.some.inj hx)
    exact ⟨u, hearlier, hanswer.symm, hlater, Snapshot.settles hlater⟩

/-- Bindings of which the first one sets an entry that the last one reads. -/
def switchingSource : String :=
  "click: \x7b SetValue('ui', 'mode', 'light') \x7d, " ++
    "css: \x7b 'wide': @ui.size == 'L' \x7d, value: \x7b @ui.mode \x7d"

/-- A value that a click has set is read two requests later, in another call. -/
theorem snapshot_after_switching :
    ∃ p t x y z, compileBindings switchingSource = .ok p ∧
      (plain p darkMode).after 9 [.one .click, .one .css, .one .value] = some t ∧
      (plain p darkMode).history 9 [.one .click, .one .css, .one .value] = [x, y, z] ∧
      x.request.setting? = some ("ui", "mode", "light") ∧ x.answer = .ok .void ∧
      z.request = .resolve ("ui" ++ "." ++ "mode") ∧ z.answer = .ok (.string "light") := by
  obtain ⟨p, hcompile, hfuel, hhistory⟩ : ∃ p, compileBindings switchingSource = .ok p ∧
      (∀ code ∈ p.codes, code.length < 9) ∧
      ((plain p darkMode).history 9 [.one .click, .one .css, .one .value]).map
        (fun x => (x.request.setting?, x.request.name?)) =
          [(some ("ui", "mode", "light"), none), (none, some "ui.size"),
            (none, some "ui.mode")] := by
    decide +kernel
  obtain ⟨x, y, z, hlist, hx, hy, hz⟩ : ∃ x y z,
      (plain p darkMode).history 9 [.one .click, .one .css, .one .value] = [x, y, z] ∧
        x.request.setting? = some ("ui", "mode", "light") ∧ y.request.setting? = none ∧
        z.request.name? = some "ui.mode" := by
    match hlist : (plain p darkMode).history 9 [.one .click, .one .css, .one .value] with
    | [x, y, z] =>
      rw [hlist] at hhistory
      simp only [List.map_cons, List.map_nil, List.cons.injEq, Prod.mk.injEq] at hhistory
      exact ⟨x, y, z, rfl, hhistory.1.1, hhistory.2.1.1, hhistory.2.2.1.2⟩
    | [] | [_] | [_, _] | _ :: _ :: _ :: _ :: _ =>
      rw [hlist] at hhistory
      simp at hhistory
  have hz := Host.Request.eq_resolve hz
  obtain ⟨hends, hframe⟩ :=
    snapshot_after 9 (plain p darkMode) [.one .click, .one .css, .one .value]
  obtain ⟨t, ht⟩ := hends _ hcompile hfuel
  obtain ⟨u, hu, hanswer, hlater, hsettles⟩ :=
    (hframe t ht).2.2 [] x [y, z] "ui" "mode" "light" hlist hx
  cases hu with
  | nil =>
    have hstays := (hsettles.stays (by decide) rfl [y] [z] rfl (by simp [hy])).2 z [] rfl hz
    exact ⟨p, t, x, y, z, hcompile, ht, hlist, hx, hanswer, hz, hstays⟩

end Session

end BindScript
