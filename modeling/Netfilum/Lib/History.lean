import Mathlib.Data.List.Nodup

namespace History

/-!
# What happened before what

A run is recorded as a list of events, the latest last.  That the events `x`, `y`, `z`
happened in this order is said by `[x, y, z] <+ h`.

* `split_concat`, `concat_sublist_concat` — what one more event adds.
* `before_or_after` — of two different events one happened before the other.
* `not_before_and_after` — not both, where nothing happens twice.
-/

open scoped List

variable {α : Type*} {l h : List α} {x y z : α}

/-- What happened before an event has happened after it. -/
theorem grow (hl : l <+ h) : l <+ h ++ [z] := hl.trans (List.sublist_append_left h [z])

/-- Where an event stands in the longer history. -/
theorem split_concat {earlier later : List α} (heq : h ++ [z] = earlier ++ x :: later) :
    (∃ later', h = earlier ++ x :: later') ∨ h = earlier ∧ x = z := by
  rcases List.eq_nil_or_concat later with rfl | ⟨later', last, rfl⟩
  · obtain ⟨hh, hx⟩ := List.append_inj' heq rfl
    injection hx with hx
    exact .inr ⟨hh, hx.symm⟩
  · rw [List.concat_eq_append, ← List.cons_append, ← List.append_assoc] at heq
    exact .inl ⟨later', (List.append_inj' heq rfl).1⟩

/-- Events end in the latest one, or happened before it. -/
theorem concat_sublist_concat : l ++ [y] <+ h ++ [z] ↔ l ++ [y] <+ h ∨ y = z ∧ l <+ h := by
  have hrev : ∀ k : List α, (k ++ [y]).reverse = y :: k.reverse := fun k => by
    rw [List.reverse_append, List.reverse_singleton, List.singleton_append]
  rw [← List.reverse_sublist, hrev, List.reverse_append, List.reverse_singleton,
    List.singleton_append, List.sublist_cons_iff, ← hrev, List.reverse_sublist]
  refine or_congr_right ⟨?_, ?_⟩
  · rintro ⟨r, heq, hr⟩
    rw [hrev] at heq
    injection heq with hy hl
    exact ⟨hy, List.reverse_sublist.mp (hl ▸ hr)⟩
  · rintro ⟨rfl, hl⟩
    exact ⟨l.reverse, hrev l, List.reverse_sublist.mpr hl⟩

/-- What happened before one more event, or before that. -/
theorem pair_concat : [x, y] <+ h ++ [z] ↔ [x, y] <+ h ∨ y = z ∧ x ∈ h := by
  rw [← List.singleton_sublist]
  exact concat_sublist_concat (l := [x])

/-- Of two events one comes before the other. -/
theorem before_or_after (hx : x ∈ h) (hy : y ∈ h) (hne : x ≠ y) :
    [x, y] <+ h ∨ [y, x] <+ h := by
  induction h with
  | nil => cases hx
  | cons e h ih =>
    rcases List.mem_cons.mp hx with hxe | hxh
    · rcases List.mem_cons.mp hy with hye | hyh
      · exact absurd (hxe.trans hye.symm) hne
      · rw [hxe]
        exact .inl ((List.singleton_sublist.mpr hyh).cons_cons e)
    · rcases List.mem_cons.mp hy with hye | hyh
      · rw [hye]
        exact .inr ((List.singleton_sublist.mpr hxh).cons_cons e)
      · exact (ih hxh hyh).imp (·.cons e) (·.cons e)

/-- No two events come before one another. -/
theorem not_before_and_after (hnodup : h.Nodup) (hxy : [x, y] <+ h) : ¬ [y, x] <+ h := by
  induction h with
  | nil => cases hxy
  | cons e h ih =>
    obtain ⟨hfresh, hnodup⟩ := List.nodup_cons.mp hnodup
    intro hyx
    -- the first event of the history can only be one of the two
    rcases List.sublist_cons_iff.mp hxy with hxy | ⟨r, heq, hr⟩
    · rcases List.sublist_cons_iff.mp hyx with hyx | ⟨r, heq, -⟩
      · exact ih hnodup hxy hyx
      · injection heq with hy
        exact hfresh (hy ▸ hxy.subset (by simp))
    · injection heq with hx hr'
      subst hx hr'
      rcases List.sublist_cons_iff.mp hyx with hyx | ⟨r, heq, -⟩
      · exact hfresh (hyx.subset (by simp))
      · injection heq with hy
        exact hfresh (hy ▸ hr.subset (by simp))

/-- What happened before an event that is not among the later ones is among the earlier. -/
theorem mem_of_before {earlier later : List α} (hxy : [x, y] <+ earlier ++ later)
    (hy : y ∉ later) : x ∈ earlier := by
  obtain ⟨l₁, l₂, heq, h₁, h₂⟩ := List.sublist_append_iff.mp hxy
  rcases List.eq_nil_or_concat l₂ with rfl | ⟨l₂, z, rfl⟩
  · rw [List.append_nil] at heq
    exact h₁.subset (heq ▸ List.mem_cons_self)
  · -- the second event would be a later one
    rw [List.concat_eq_append, ← List.append_assoc] at heq
    have hz : y = z := by
      have hlast := congrArg List.getLast? heq
      simpa using hlast
    refine absurd (h₂.subset ?_) hy
    rw [hz, List.concat_eq_append]
    exact List.mem_append_right _ List.mem_cons_self

/-- A history at an event that another happened before. -/
theorem split_before (hxy : [x, y] <+ h) :
    ∃ earlier later, h = earlier ++ y :: later ∧ x ∈ earlier := by
  have hsplit : [x] ++ [y] <+ h := hxy
  obtain ⟨l₁, l₂, rfl, hx, hy⟩ := List.append_sublist_iff.mp hsplit
  obtain ⟨middle, later, rfl⟩ := List.append_of_mem (List.singleton_sublist.mp hy)
  exact ⟨l₁ ++ middle, later, by rw [List.append_assoc],
    List.mem_append_left _ (List.singleton_sublist.mp hx)⟩

end History
