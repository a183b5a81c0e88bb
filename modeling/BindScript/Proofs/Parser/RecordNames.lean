/-
**Fresh record names.**

A record type may be declared under the name of a record type of an outer block, which it then
hides.  Whether a text ever does so can be read off its tokens: the braces open and close the
blocks, and each `record` with a name declares one.  The parser keeps the names of the scan and
those of its scopes the same.

Main results:

* `ParseState.Good.passes` — expressions keep a state good;
* `ParseState.Good.enter`, `ParseState.Good.leave` — so do braces.
-/

import BindScript.Proofs.Parser.Basic

namespace BindScript

/-! ### The scan -/

/-- The names in sight with one more in the innermost block. -/
def noteRecord (name : String) : List (List String) → List (List String)
  | [] => []
  | names :: outer => (names ++ [name]) :: outer

/-- Whether no record is declared under the name of a record in sight. The names in sight are given
block by block, the innermost first. -/
def recordNamesFresh (visible : List (List String)) : List Token → Bool
  | .keyword .record :: .ident name :: rest =>
    visible.all (fun names => !names.contains name) &&
      recordNamesFresh (noteRecord name visible) rest
  | .mark .openBrace :: rest => recordNamesFresh ([] :: visible) rest
  | .mark .closeBrace :: rest => recordNamesFresh (visible.drop 1) rest
  | _ :: rest => recordNamesFresh visible rest
  | [] => true

/-- In this text no record type is declared while another one of the same name is in sight. -/
def RecordNamesFresh (source : String) : Prop :=
  recordNamesFresh [[]] ((TokenRun.ofText source).tokens.map (·.token)) = true

instance (source : String) : Decidable (RecordNamesFresh source) :=
  inferInstanceAs (Decidable (_ = true))

theorem recordNamesFresh_plain (visible : List (List String)) {t : Token} (h : t.isPlain = true)
    (rest : List Token) : recordNamesFresh visible (t :: rest) = recordNamesFresh visible rest := by
  cases t with
  | keyword k =>
    cases k with
    | record => simp [Token.isPlain] at h
    | _ => simp [recordNamesFresh]
  | mark m =>
    cases m with
    | openBrace => simp [Token.isPlain] at h
    | closeBrace => simp [Token.isPlain] at h
    | _ => simp [recordNamesFresh]
  | _ => simp [recordNamesFresh]

theorem recordNamesFresh_append (visible : List (List String)) {passed : List Token}
    (h : ∀ t ∈ passed, t.isPlain = true) (rest : List Token) :
    recordNamesFresh visible (passed ++ rest) = recordNamesFresh visible rest := by
  induction passed with
  | nil => rfl
  | cons t passed ih =>
    rw [List.cons_append, recordNamesFresh_plain visible (h t (by simp))]
    exact ih fun t' ht' => h t' (List.mem_cons_of_mem _ ht')

/-! ### The scopes of the parser -/

/-- The names of the record types, block by block. -/
def Scopes.recordNames (Γ : Scopes) : List (List String) := Γ.map fun s => s.types.map (·.1)

theorem Scopes.type?_eq_none {Γ : Scopes} {name : String}
    (h : Γ.recordNames.all (fun names => !names.contains name) = true) : Γ.type? name = none := by
  refine List.findSome?_eq_none_iff.2 ?_
  intro s hs
  have hnames := List.all_eq_true.1 h (s.types.map (·.1)) (List.mem_map_of_mem hs)
  exact Table.lookup_eq_none (by simpa using hnames)

namespace ParseState

/-- What holds of the state of the parser between two statements. -/
structure Good (fresh : Prop) (s : ParseState) : Prop where
  named : s.WellNamed
  leaves : s.scopes.LeafTyped
  names : fresh → recordNamesFresh s.scopes.recordNames (s.tokens.map (·.token)) = true

variable {fresh : Prop} {s s' : ParseState}

theorem Good.passes (h : s.Good fresh) (hpass : s.Passes s') : s'.Good fresh := by
  refine ⟨hpass.wellNamed h.named, by rw [hpass.1]; exact h.leaves, ?_⟩
  intro hfresh
  obtain ⟨hscopes, passed, htokens, hplain⟩ := hpass
  have hnames := h.names hfresh
  rw [htokens, List.map_append, recordNamesFresh_append] at hnames
  · rw [hscopes]
    exact hnames
  · intro t ht
    obtain ⟨t', ht', rfl⟩ := List.mem_map.1 ht
    exact hplain t' ht'

theorem Good.enter (h : s.Good fresh) {t : Token.Located} {rest : List Token.Located}
    (htokens : s.tokens = t :: rest) (htoken : t.token = .mark .openBrace) :
    ({ s with tokens := rest, scopes := Scope.empty :: s.scopes } : ParseState).Good fresh := by
  refine ⟨?_, ?_, ?_⟩
  · intro t' ht'
    exact h.named t' (by rw [htokens]; exact List.mem_cons_of_mem _ ht')
  · intro scope hscope
    rcases List.mem_cons.1 hscope with rfl | hscope
    · simp [Scope.empty]
    · exact h.leaves scope hscope
  · intro hfresh
    have hnames := h.names hfresh
    rw [htokens, List.map_cons, htoken] at hnames
    simpa [recordNamesFresh, Scopes.recordNames, Scope.empty] using hnames

theorem Good.leave (h : s.Good fresh) {t : Token.Located} {rest : List Token.Located}
    (htokens : s.tokens = t :: rest) (htoken : t.token = .mark .closeBrace) :
    ({ s with tokens := rest, scopes := s.scopes.pop } : ParseState).Good fresh := by
  refine ⟨?_, ?_, ?_⟩
  · intro t' ht'
    exact h.named t' (by rw [htokens]; exact List.mem_cons_of_mem _ ht')
  · intro scope hscope
    exact h.leaves scope (List.mem_of_mem_drop hscope)
  · intro hfresh
    have hnames := h.names hfresh
    rw [htokens, List.map_cons, htoken] at hnames
    simpa [recordNamesFresh, Scopes.recordNames, Scopes.pop, List.map_drop] using hnames

theorem Good.addVariable (h : s.Good fresh) {ty : Ty} {name : String} {line : Nat} {Γ : Scopes}
    (hadd : s.scopes.addVariable ty name line = (.ok (), Γ)) :
    ({ s with scopes := Γ } : ParseState).Good fresh := by
  obtain ⟨scope, outer, value, hscopes, -, -, -, rfl⟩ := Scopes.addVariable_eq_ok hadd
  refine ⟨h.named, ?_, ?_⟩
  · intro scope' hscope'
    rcases List.mem_cons.1 hscope' with rfl | hscope'
    · exact h.leaves scope (by rw [hscopes]; exact List.mem_cons_self)
    · exact h.leaves scope' (by rw [hscopes]; exact List.mem_cons_of_mem _ hscope')
  · intro hfresh
    have hnames := h.names hfresh
    rw [hscopes] at hnames
    exact hnames

theorem good_start (source : String) (slots : List Slot) :
    ({ ParseState.start source with scopes := [⟨slots, []⟩] } : ParseState).Good
      (RecordNamesFresh source) := by
  refine ⟨ParseState.wellNamed_start source _, ?_, ?_⟩
  · intro scope hscope
    obtain rfl : scope = ⟨slots, []⟩ := by simpa using hscope
    simp
  · intro hfresh
    exact hfresh

end ParseState

end BindScript
