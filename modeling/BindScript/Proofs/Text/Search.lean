/-
**Where a text is cut.**

A text that is put together around a mark is cut at that mark again, if the part that is searched
first does not have the mark in it.

Main results:

* `Text.cutAt?_append`, `Text.cutAt?_eq_none`, `Text.cutAt?_eq_some` — the
  first mark;
* `Text.cutAtLast?_append`, `Text.cutAtLast?_eq_none` — the last mark;
* `Text.cutAtPair?_append` — the first mark of two characters.
-/

import BindScript.Text.Search

namespace BindScript.Text

variable {mark : Char}

variable {before text : List Char}

theorem cutAt?_append (h : mark ∉ before) (after : List Char) :
    cutAt? mark (before ++ mark :: after) = some (before, after) := by
  induction before with
  | nil => simp [cutAt?]
  | cons c before ih =>
    obtain ⟨hc, hbefore⟩ : ¬mark = c ∧ mark ∉ before := by simpa using h
    simp [cutAt?, Ne.symm hc, ih hbefore]

theorem cutAt?_eq_none (h : mark ∉ text) : cutAt? mark text = none := by
  induction text with
  | nil => rfl
  | cons c text ih =>
    obtain ⟨hc, htext⟩ : ¬mark = c ∧ mark ∉ text := by simpa using h
    simp [cutAt?, Ne.symm hc, ih htext]

theorem cutAt?_eq_some {after : List Char} (h : cutAt? mark text = some (before, after)) :
    text = before ++ mark :: after ∧ mark ∉ before := by
  induction text generalizing before with
  | nil => simp [cutAt?] at h
  | cons c text ih =>
    rw [cutAt?] at h
    split at h
    · rename_i hc
      cases h
      exact ⟨by simp [hc], by simp⟩
    · rename_i hc
      obtain ⟨⟨before', after'⟩, hcut, heq⟩ := Option.map_eq_some_iff.1 h
      cases heq
      obtain ⟨rfl, hmark⟩ := ih hcut
      exact ⟨rfl, by simpa using ⟨fun h => hc h.symm, hmark⟩⟩

theorem cutAtLast?_eq_none (h : mark ∉ text) : cutAtLast? mark text = none := by
  induction text with
  | nil => rfl
  | cons c text ih =>
    obtain ⟨hc, htext⟩ : ¬mark = c ∧ mark ∉ text := by simpa using h
    simp [cutAtLast?, ih htext, Ne.symm hc]

theorem cutAtLast?_append {after : List Char} (h : mark ∉ after) (before : List Char) :
    cutAtLast? mark (before ++ mark :: after) = some (before, after) := by
  induction before with
  | nil => simp [cutAtLast?, cutAtLast?_eq_none h]
  | cons c before ih => simp [cutAtLast?, ih]

theorem cutAtPair?_append {other : Char} (h : mark ∉ before) (after : List Char) :
    cutAtPair? (mark, other) (before ++ mark :: other :: after) = some (before, after) := by
  induction before with
  | nil => simp [cutAtPair?]
  | cons c before ih =>
    obtain ⟨hc, hbefore⟩ : ¬mark = c ∧ mark ∉ before := by simpa using h
    -- the search looks at two characters at a time, so what follows `c` has to be a cons
    obtain ⟨d, cs, hcons⟩ : ∃ d cs, before ++ mark :: other :: after = d :: cs := by
      cases before <;> simp
    have hread := ih hbefore
    rw [hcons] at hread
    rw [List.cons_append, hcons]
    simp [cutAtPair?, Ne.symm hc, hread]

end BindScript.Text
