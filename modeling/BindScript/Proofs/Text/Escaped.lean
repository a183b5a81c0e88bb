/-
**Splitting undoes joining.**

Let the separator begin with a character that is not a backslash.  An escaped piece has no unescaped
occurrence of that character, so the scan runs through the piece and gives back its characters; a
separator after it ends the piece.  Nothing is asked of the characters of the separator after its
first.

Main results:

* `Text.Escaped.split_join` — **the pieces of a joined text**.
-/

import BindScript.Text.Escaped

namespace BindScript.Text.Escaped

variable {first : Char} {more : List Char}

theorem foldr_consHead (piece q : List Char) (qs : List (List Char)) :
    piece.foldr consHead (q :: qs) = (piece ++ q) :: qs := by
  induction piece with
  | nil => rfl
  | cons c piece ih => rw [List.foldr_cons, ih]; rfl

/-- A character that is neither a backslash nor the first of the separator stands for itself. -/
theorem splitFrom_cons {c : Char} (hslash : c ≠ '\\') (hfirst : c ≠ first) (rest : List Char) :
    splitFrom (first :: more) 0 (c :: rest) = consHead c (splitFrom (first :: more) 0 rest) := by
  have hprefix : (first :: more).isPrefixOf (c :: rest) = false := by
    simp [List.isPrefixOf, Ne.symm hfirst]
  cases rest with
  | nil => simp [splitFrom, hslash, hprefix]
  | cons d rest => simp [splitFrom, hslash, hprefix]

/-- The scan of an escaped piece gives its characters, and goes on after it. -/
theorem splitFrom_escape (piece rest : List Char) :
    splitFrom (first :: more) 0 (escape first piece ++ rest) =
      piece.foldr consHead (splitFrom (first :: more) 0 rest) := by
  induction piece with
  | nil => rfl
  | cons c piece ih =>
    have hescape : escape first (c :: piece) =
        (if c = '\\' ∨ c = first then ['\\', c] else [c]) ++ escape first piece := rfl
    rw [hescape, List.foldr_cons, ← ih]
    split
    · rfl
    · rename_i hc
      rw [not_or] at hc
      exact splitFrom_cons hc.1 hc.2 _

theorem splitFrom_skip (separator passed rest : List Char) :
    splitFrom separator passed.length (passed ++ rest) = splitFrom separator 0 rest := by
  induction passed with
  | nil => rfl
  | cons c passed ih =>
    rw [List.length_cons, List.cons_append, splitFrom]
    exact ih

theorem splitFrom_separator (hfirst : first ≠ '\\') (rest : List Char) :
    splitFrom (first :: more) 0 (first :: more ++ rest) =
      [] :: splitFrom (first :: more) 0 rest := by
  have hprefix : (first :: more).isPrefixOf (first :: (more ++ rest)) = true := by
    simp [List.isPrefixOf_iff_prefix]
  rw [List.cons_append, ← splitFrom_skip (first :: more) more rest]
  cases htail : more ++ rest with
  | nil =>
    rw [htail] at hprefix
    simp [splitFrom, hfirst, hprefix]
  | cons d tail =>
    rw [htail] at hprefix
    simp [splitFrom, hfirst, hprefix]

/-- **Splitting gives back what was joined**, for one or more pieces. -/
theorem split_join (hfirst : first ≠ '\\') (pieces : List (List Char)) (hpieces : pieces ≠ []) :
    split (first :: more) (join (first :: more) first pieces) = pieces := by
  induction pieces with
  | nil => exact absurd rfl hpieces
  | cons piece pieces ih =>
    cases pieces with
    | nil =>
      have hone : splitFrom (first :: more) 0 (escape first piece ++ []) = _ :=
        splitFrom_escape piece []
      rw [List.append_nil] at hone
      rw [split, join, List.map_cons, List.map_nil, List.intercalate_singleton, hone]
      exact (foldr_consHead piece [] []).trans (by rw [List.append_nil])
    | cons next pieces =>
      have hjoin : join (first :: more) first (piece :: next :: pieces) =
          escape first piece ++ (first :: more ++ join (first :: more) first (next :: pieces)) := by
        simp only [join, List.map_cons, List.intercalate_cons_cons, List.append_assoc]
      have hnext : splitFrom (first :: more) 0 (join (first :: more) first (next :: pieces)) =
          next :: pieces := ih (by simp)
      rw [split, hjoin, splitFrom_escape, splitFrom_separator hfirst, hnext, foldr_consHead,
        List.append_nil]

end BindScript.Text.Escaped
