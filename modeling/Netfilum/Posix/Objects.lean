import Netfilum.Posix.Removal

namespace Posix

/-!
# Objects over time

An object is known by its serial number.  What is removed never comes back, and what is
added was never there before.

* `Tree.Has` — the object exists.
* `Descends` — the objects of the later tree are new or were there before; every edit of
  the tree is such a step.
* `not_has_remove`, `not_has_emptied` — a removed object is gone.
-/

variable {t t' t'' : Tree} {q : Loc} {e : Entry}

/-- The object with this serial number exists. -/
def Tree.Has (t : Tree) (i : Nat) : Prop := ∃ e ∈ t.entries, e.ino = i

instance (t : Tree) (i : Nat) : Decidable (t.Has i) :=
  inferInstanceAs (Decidable (∃ e ∈ t.entries, e.ino = i))

/-- An entry has an object. -/
theorem Tree.has_of_mem (h : e ∈ t.entries) : t.Has e.ino := ⟨e, h, rfl⟩

/-- Every object of the later tree is new or was there before. -/
structure Descends (t t' : Tree) : Prop where
  next_le : t.next ≤ t'.next
  has     : ∀ i, i < t.next → t'.Has i → t.Has i

namespace Descends

/-- Nothing changes. -/
theorem refl (t : Tree) : Descends t t := ⟨Nat.le_refl _, fun _ _ h => h⟩

/-- No object comes back in steps. -/
theorem trans (h : Descends t t') (h' : Descends t' t'') : Descends t t'' :=
  ⟨Nat.le_trans h.next_le h'.next_le,
    fun i hi hhas => h.has i hi (h'.has i (Nat.lt_of_lt_of_le hi h.next_le) hhas)⟩

/-- An edit that only drops and relocates entries. -/
theorem of_entries (hnext : t'.next = t.next)
    (h : ∀ e' ∈ t'.entries, ∃ e ∈ t.entries, e.ino = e'.ino) : Descends t t' := by
  refine ⟨Nat.le_of_eq hnext.symm, fun i _ hhas => ?_⟩
  obtain ⟨e', he', rfl⟩ := hhas
  exact h e' he'

/-- An edit brings back no object. -/
theorem edit (t : Tree) (E : Edit) : Descends t (t.edit E) := by
  refine of_entries rfl fun e' he' => ?_
  obtain ⟨e, he, rfl⟩ := List.mem_map.mp he'
  exact ⟨e, he, (E.ino_eq e).symm⟩

/-- New time stamps bring back no object. -/
theorem touch (t : Tree) (os : Os) (d : Loc) : Descends t (t.touch os d) := edit t _

/-- A removal brings back no object. -/
theorem prune (t : Tree) (q : Loc) : Descends t (t.prune q) := by
  rcases eq_or_ne q [] with rfl | hq
  · rw [Tree.prune, dif_pos rfl]
    exact refl t
  · refine of_entries (by rw [Tree.prune, dif_neg hq]) fun e' he' => ?_
    exact ⟨e', ((Tree.mem_prune hq).mp he').1, rfl⟩

/-- Emptying a directory brings back no object. -/
theorem clear (t : Tree) (d : Loc) : Descends t (t.clear d) :=
  of_entries rfl fun e' he' => ⟨e', List.mem_of_mem_filter he', rfl⟩

/-- A new entry has a new object. -/
theorem insert (t : Tree) (d : Loc) (x : Name) (a : Attr) (b : Body) :
    Descends t (t.insert d x a b) := by
  by_cases h : t.shape d = some .dir ∧ t.look (d ++ [x]) = none
  · refine ⟨?_, fun i hi hhas => ?_⟩
    · have hnext : (t.insert d x a b).next = t.next + 1 := by rw [Tree.insert, dif_pos h]
      omega
    · obtain ⟨e', he', rfl⟩ := hhas
      rcases (Tree.mem_insert h.1 h.2).mp he' with hold | rfl
      · exact Tree.has_of_mem hold
      · exact absurd hi (Nat.lt_irrefl _)
  · rw [Tree.insert, dif_neg h]
    exact refl t

/-- A move brings back no object. -/
theorem move (t : Tree) (src dst : Loc) : Descends t (t.move src dst) := by
  by_cases h : t.Movable src dst
  · refine of_entries (by rw [Tree.move, dif_pos h]) fun e' he' => ?_
    obtain ⟨e, he, rfl⟩ := (Tree.mem_move h).mp he'
    exact ⟨e, he, rfl⟩
  · rw [Tree.move, dif_neg h]
    exact refl t

/-- Emptying a directory and stamping it brings back no object. -/
theorem emptied (t : Tree) (os : Os) (q : Loc) : Descends t (Fs.emptied os q t) := by
  unfold Fs.emptied
  split
  · exact refl t
  · exact (clear t q).trans (touch _ os q)

/-- A rename brings back no object. -/
theorem renamed (t : Tree) (os : Os) (src dst : Loc) :
    Descends t (Fs.renamed os src dst t) := by
  unfold Fs.renamed
  split
  · exact refl t
  · have hmove := (prune t dst).trans (move _ src dst)
    have hchanged := hmove.trans (edit _ (.attrAt dst os.changed))
    exact (hchanged.trans (touch _ os _)).trans (touch _ os _)

/-- Removing an entry and stamping its directory brings back no object. -/
theorem remove (t : Tree) (os : Os) (d : Loc) (x : Name) :
    Descends t ((t.prune (d ++ [x])).touch os d) := (prune t _).trans (touch _ os d)

/-- An object that is gone does not come back. -/
theorem not_has {i : Nat} (h : Descends t t') (hi : i < t.next) (hno : ¬ t.Has i) :
    ¬ t'.Has i := fun hhas => hno (h.has i hi hhas)

end Descends

/-! ### Objects that are removed -/

/-- What was at or below a removed entry is gone. -/
theorem not_has_prune (he : e ∈ t.entries) (hq : q ≠ []) (h : q <+: e.loc) :
    ¬ (t.prune q).Has e.ino := by
  rintro ⟨e', he', heq⟩
  obtain ⟨hmem, hapart⟩ := (Tree.mem_prune hq).mp he'
  obtain rfl := t.eq_of_ino_eq hmem he heq
  exact hapart h

/-- The object of what is removed is gone. -/
theorem not_has_remove {d : Loc} {x : Name} (he : e ∈ t.entries) (h : d ++ [x] <+: e.loc)
    (os : Os) : ¬ ((t.prune (d ++ [x])).touch os d).Has e.ino := by
  have hlt : e.ino < (t.prune (d ++ [x])).next :=
    Nat.lt_of_lt_of_le (t.inos_lt e he) (Descends.prune t _).next_le
  exact (Descends.touch _ os d).not_has hlt (not_has_prune he (by simp) h)

/-- What was below an emptied directory is gone. -/
theorem not_has_emptied (he : e ∈ t.entries) (h : q <+: e.loc) (hne : e.loc ≠ q) (os : Os) :
    ¬ (Fs.emptied os q t).Has e.ino := by
  rintro ⟨e', he', heq⟩
  -- what is left was there before, at the same location
  have htag := Tree.tag_of_look (Tree.look_of_mem he')
  have hkept : q <+: e'.loc → e'.loc = q := by
    intro hq
    by_contra hne'
    have hgone : (Fs.emptied os q t).look e'.loc = none := Fs.look_emptied_below hq hne'
    rw [Tree.look_of_mem he'] at hgone
    cases hgone
  rw [Fs.tag_emptied hkept] at htag
  obtain ⟨e₀, he₀, -, hino⟩ := Tree.tag_eq_some_iff.mp htag
  obtain rfl := t.eq_of_ino_eq (Tree.mem_of_look he₀) he (hino.trans heq)
  rw [← Tree.look_loc he₀] at hkept
  exact hne (hkept h)

end Posix
