import Mathlib.Data.List.Infix
import Mathlib.Logic.Function.Basic
import Mathlib.Tactic.ByContra

/-!
# Trees of files and directories

What a file system is to those who use it by paths: at every path there is nothing, a file
with its contents, or a directory.  Names and contents are arbitrary.

* `FileTree` carries its own well-formedness: the root is a directory, and what exists lies in
  a directory.
* `put`, `erase`, `move` — the edits.  Each is total (outside its precondition it changes
  nothing) and has one lemma that says what stands at a path afterwards.
* `node_below` — nothing lies below a file or a missing path.
-/

/-- What stands at a path: a file with its contents, or a directory. -/
inductive FileTree.Node (α : Type*) where
  | file (data : List α)
  | dir

/-- A tree of files and directories, by paths from its root. -/
@[ext] structure FileTree (ν α : Type*) where
  node   : List ν → Option (FileTree.Node α)
  root   : node [] = some .dir
  closed : ∀ q, q ≠ [] → node q ≠ none → node q.dropLast = some .dir

namespace FileTree

variable {ν α : Type*} {T T' : FileTree ν α} {p q r : List ν} {n : Node α}

/-- A path is not a prefix of the path of its directory. -/
theorem not_prefix_dropLast (hq : q ≠ []) : ¬ q <+: q.dropLast := by
  intro h
  have hle := h.length_le
  have hpos := List.length_pos_of_ne_nil hq
  rw [List.length_dropLast] at hle
  omega

/-- Every path above what exists holds a directory. -/
theorem node_above (hpq : p <+: q) (hne : p ≠ q) (h : T.node q ≠ none) :
    T.node p = some .dir := by
  obtain ⟨r, rfl⟩ := hpq
  induction r using List.reverseRecOn with
  | nil => simp at hne
  | append_singleton r x ih =>
    have hup : T.node (p ++ r) = some .dir := by
      have := T.closed (p ++ (r ++ [x])) (by simp) h
      rwa [← List.append_assoc, List.dropLast_concat] at this
    rcases eq_or_ne r [] with rfl | hr
    · simpa using hup
    · exact ih (by simp [hr]) (by simp [hup])

/-- Nothing lies below a path that is no directory. -/
theorem node_below (hpq : p <+: q) (hne : p ≠ q) (h : T.node p ≠ some .dir) :
    T.node q = none := by
  by_contra hq
  exact h (node_above hpq hne hq)

/-- No entry lies in the directory. -/
def Empty (T : FileTree ν α) (q : List ν) : Prop := ∀ x, T.node (q ++ [x]) = none

/-- Nothing lies below what is no directory, or an empty one. -/
theorem node_below_empty (hpq : p <+: q) (hne : p ≠ q) (h : T.node p = some .dir → T.Empty p) :
    T.node q = none := by
  by_cases hdir : T.node p = some .dir
  · obtain ⟨r, rfl⟩ := hpq
    obtain ⟨y, r, rfl⟩ := List.exists_cons_of_ne_nil (l := r) (by simpa using hne)
    rw [← List.singleton_append, ← List.append_assoc]
    by_cases hr : r = []
    · rw [hr, List.append_nil]
      exact h hdir y
    · exact node_below (List.prefix_append _ r) (by simpa using Ne.symm hr)
        (by rw [h hdir y]; simp)
  · exact node_below hpq hne hdir

/-! ### Putting a node -/

/-- A node can stand at `q`: in a directory, and not a file in the place of a directory. -/
structure Fits (T : FileTree ν α) (q : List ν) (n : Node α) : Prop where
  ne     : q ≠ []
  parent : T.node q.dropLast = some .dir
  keeps  : T.node q = some .dir → n = .dir

section Edits

open Classical

/-- Put a node at `q`, where nothing was or in the place of a file. -/
noncomputable def put (T : FileTree ν α) (q : List ν) (n : Node α) : FileTree ν α :=
  if h : T.Fits q n then
  { node := Function.update T.node q (some n)
    root := by rw [Function.update_of_ne h.ne.symm, T.root]
    closed := by
      intro r hr hex
      by_cases hrq : r = q
      · -- the directory it stands in is another path
        subst hrq
        have hne : r.dropLast ≠ r := fun heq => not_prefix_dropLast hr (by rw [heq])
        rw [Function.update_of_ne hne, h.parent]
      · rw [Function.update_of_ne hrq] at hex
        have hdir := T.closed r hr hex
        by_cases hup : r.dropLast = q
        · rw [hup, Function.update_self, h.keeps (hup ▸ hdir)]
        · rw [Function.update_of_ne hup, hdir] }
  else T

/-- Putting a node changes this path only. -/
theorem node_put (h : T.Fits q n) : (T.put q n).node = Function.update T.node q (some n) := by
  rw [put, dif_pos h]

/-- What was put is there. -/
theorem node_put_self (h : T.Fits q n) : (T.put q n).node q = some n := by
  rw [node_put h, Function.update_self]

/-- Every other path keeps its node. -/
theorem node_put_of_ne (hr : r ≠ q) : (T.put q n).node r = T.node r := by
  unfold put
  split
  · exact Function.update_of_ne hr _ _
  · rfl

/-- To put what is there changes nothing. -/
theorem put_self (h : T.node q = some n) : T.put q n = T := by
  by_cases hfits : T.Fits q n
  · ext1
    rw [node_put hfits, ← h, Function.update_eq_self]
  · rw [put, dif_neg hfits]

/-! ### Erasing -/

/-- Remove what stands at `q`, with everything below.  The root stays. -/
noncomputable def erase (T : FileTree ν α) (q : List ν) : FileTree ν α :=
  if hq : q = [] then T else
  { node := fun r => if q <+: r then none else T.node r
    root := by rw [if_neg (by simpa using hq), T.root]
    closed := by
      intro r hr hex
      by_cases hqr : q <+: r
      · exact absurd (if_pos hqr) hex
      · rw [if_neg hqr] at hex
        have hup : ¬ q <+: r.dropLast := fun h => hqr (h.trans (List.dropLast_prefix r))
        rw [if_neg hup, T.closed r hr hex] }

/-- Erasing takes the path and everything below it. -/
theorem node_erase (hq : q ≠ []) :
    (T.erase q).node r = if q <+: r then none else T.node r := by
  rw [erase, dif_neg hq]

/-- What is not at or below the path stays. -/
theorem node_erase_apart (h : ¬ q <+: r) : (T.erase q).node r = T.node r := by
  by_cases hq : q = []
  · exact absurd (hq ▸ List.nil_prefix) h
  · rw [node_erase hq, if_neg h]

/-! ### Moving -/

/-- A subtree can be moved: into a directory outside of it. -/
structure Movable (T : FileTree ν α) (src dst : List ν) : Prop where
  ne     : dst ≠ []
  parent : T.node dst.dropLast = some .dir
  apart  : ¬ src <+: dst

/-- The root is never moved. -/
theorem Movable.src_ne {src dst : List ν} (h : T.Movable src dst) : src ≠ [] := by
  rintro rfl
  exact h.apart List.nil_prefix

/-- Move what stands at `src` to `dst`, in the place of what was there. -/
noncomputable def move (T : FileTree ν α) (src dst : List ν) : FileTree ν α :=
  if h : T.Movable src dst then
  { node := fun r =>
      if dst <+: r then T.node (src ++ r.drop dst.length)
      else if src <+: r then none
      else T.node r
    root := by
      rw [if_neg (by simpa using h.ne), if_neg (by simpa using h.src_ne), T.root]
    closed := by
      intro r hr hex
      by_cases hd : dst <+: r
      · obtain ⟨s, rfl⟩ := hd
        rw [if_pos (List.prefix_append dst s), List.drop_left] at hex
        rcases eq_or_ne s [] with rfl | hs
        · -- what arrives at `dst` itself lies in the directory that was there
          have hout : ¬ src <+: dst.dropLast := fun hp =>
            h.apart (hp.trans (List.dropLast_prefix dst))
          rw [List.append_nil, if_neg (not_prefix_dropLast h.ne), if_neg hout, h.parent]
        · rw [List.dropLast_append_of_ne_nil hs, if_pos (List.prefix_append dst _),
            List.drop_left]
          have hdir := T.closed (src ++ s) (by simp [hs]) hex
          rwa [List.dropLast_append_of_ne_nil hs] at hdir
      · rw [if_neg hd] at hex
        by_cases hsr : src <+: r
        · exact absurd (if_pos hsr) hex
        · rw [if_neg hsr] at hex
          have hup := List.dropLast_prefix r
          rw [if_neg fun hp => hd (hp.trans hup), if_neg fun hp => hsr (hp.trans hup),
            T.closed r hr hex] }
  else T

/-- Moving takes everything at and below one path to the other. -/
theorem node_move {src dst : List ν} (h : T.Movable src dst) :
    (T.move src dst).node r = if dst <+: r then T.node (src ++ r.drop dst.length)
      else if src <+: r then none else T.node r := by
  rw [move, dif_pos h]

/-- What is at or below neither path stays. -/
theorem node_move_apart {src dst : List ν} (hs : ¬ src <+: r) (hd : ¬ dst <+: r) :
    (T.move src dst).node r = T.node r := by
  unfold move
  split
  · exact (if_neg hd).trans (if_neg hs)
  · rfl

end Edits

end FileTree
