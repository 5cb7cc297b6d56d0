import Netfilum.Posix.Tree

namespace Posix

/-!
# Edits of a tree

The four ways a system call changes a tree.  Each is a total function from trees to trees
(outside its precondition it changes nothing), and each comes with the lemma that says
what `look` and `shape` find afterwards.
-/

/-- A change of attributes or contents that keeps location, identity and shape. -/
structure Edit where
  apply    : Entry → Entry
  loc_eq   : ∀ e, (apply e).loc = e.loc
  ino_eq   : ∀ e, (apply e).ino = e.ino
  shape_eq : ∀ e, (apply e).shape = e.shape

namespace Edit

/-- Change the attributes of the entry at `q`. -/
def attrAt (q : Loc) (f : Attr → Attr) : Edit where
  apply e := if e.loc = q then { e with attr := f e.attr } else e
  loc_eq e := by split <;> rfl
  ino_eq e := by split <;> rfl
  shape_eq e := by split <;> rfl

/-- Replace the contents of the regular file at `q`, and change its attributes. -/
def dataAt (q : Loc) (data : List UInt8) (f : Attr → Attr) : Edit where
  apply e := if e.loc = q ∧ e.shape = .file then
      { e with body := .file data, attr := f e.attr } else e
  loc_eq e := by split <;> rfl
  ino_eq e := by split <;> rfl
  shape_eq e := by
    split
    · rename_i h
      exact h.2.symm
    · rfl

/-- Away from its location, an attribute change does nothing. -/
theorem attrAt_apply_of_ne {q : Loc} {f : Attr → Attr} {e : Entry} (h : e.loc ≠ q) :
    (attrAt q f).apply e = e := if_neg h

/-- The attributes of this entry are changed. -/
theorem attrAt_apply_self {q : Loc} {f : Attr → Attr} {e : Entry} (h : e.loc = q) :
    (attrAt q f).apply e = { e with attr := f e.attr } := if_pos h

/-- No other entry gets new data. -/
theorem dataAt_apply_of_ne {q : Loc} {data : List UInt8} {f : Attr → Attr} {e : Entry}
    (h : e.loc ≠ q) : (dataAt q data f).apply e = e := if_neg (fun h' => h h'.1)

/-- This file gets new data and attributes. -/
theorem dataAt_apply_self {q : Loc} {data : List UInt8} {f : Attr → Attr} {e : Entry}
    (h : e.loc = q) (hs : e.shape = .file) :
    (dataAt q data f).apply e = { e with body := .file data, attr := f e.attr } :=
  if_pos ⟨h, hs⟩

end Edit

namespace Tree

variable {t : Tree}

/-! ### Editing in place -/

/-- Apply an edit to every entry. -/
def edit (t : Tree) (E : Edit) : Tree where
  entries := t.entries.map E.apply
  next := t.next
  locs_nodup := by
    rw [List.map_map, show Entry.loc ∘ E.apply = Entry.loc from funext E.loc_eq]
    exact t.locs_nodup
  inos_nodup := by
    rw [List.map_map, show Entry.ino ∘ E.apply = Entry.ino from funext E.ino_eq]
    exact t.inos_nodup
  inos_lt := by
    intro e' he'
    obtain ⟨e, he, rfl⟩ := List.mem_map.mp he'
    rw [E.ino_eq]; exact t.inos_lt e he
  closed := by
    intro e' he' hne
    obtain ⟨e, he, rfl⟩ := List.mem_map.mp he'
    rw [E.loc_eq] at hne ⊢
    obtain ⟨d, hd, hloc, hdir⟩ := t.closed e he hne
    exact ⟨E.apply d, List.mem_map_of_mem hd, by rw [E.loc_eq, hloc], by rw [E.shape_eq, hdir]⟩
  root := by
    obtain ⟨d, hd, hloc, hdir⟩ := t.root
    exact ⟨E.apply d, List.mem_map_of_mem hd, by rw [E.loc_eq, hloc], by rw [E.shape_eq, hdir]⟩

/-- What is found is what was there, edited. -/
theorem look_edit (E : Edit) (q : Loc) : (t.edit E).look q = (t.look q).map E.apply := by
  cases he : t.look q with
  | none =>
    rw [look_eq_none_iff] at he
    rw [Option.map_none, look_eq_none_iff]
    intro e' hmem'
    obtain ⟨e, hmem, rfl⟩ := List.mem_map.mp hmem'
    rw [E.loc_eq]; exact he e hmem
  | some e =>
    obtain ⟨hmem, rfl⟩ := look_eq_some_iff.mp he
    rw [Option.map_some, look_eq_some_iff]
    exact ⟨List.mem_map_of_mem hmem, E.loc_eq e⟩

/-- Edits are invisible to path resolution, and keep every object where it is. -/
@[simp] theorem tag_edit (E : Edit) : (t.edit E).tag = t.tag := by
  funext q
  unfold tag
  rw [look_edit, Option.map_map]
  congr 1
  funext e
  exact Prod.ext (E.shape_eq e) (E.ino_eq e)

/-- Change the attributes of the entry at `q`. -/
def setAttr (t : Tree) (q : Loc) (f : Attr → Attr) : Tree := t.edit (.attrAt q f)

/-- Replace the contents of the regular file at `q`, and change its attributes. -/
def setData (t : Tree) (q : Loc) (data : List UInt8) (f : Attr → Attr) : Tree :=
  t.edit (.dataAt q data f)

/-- New attributes change neither shapes nor objects. -/
@[simp] theorem tag_setAttr (q : Loc) (f : Attr → Attr) : (t.setAttr q f).tag = t.tag := tag_edit _

/-- New data change neither shapes nor objects. -/
@[simp] theorem tag_setData (q : Loc) (data : List UInt8) (f : Attr → Attr) :
    (t.setData q data f).tag = t.tag := tag_edit _

/-- New attributes change no shape. -/
@[simp] theorem shape_setAttr (q : Loc) (f : Attr → Attr) : (t.setAttr q f).shape = t.shape :=
  shape_congr (tag_setAttr q f)

/-- Every other entry keeps its attributes. -/
theorem look_setAttr_of_ne {p q : Loc} {f : Attr → Attr} (h : p ≠ q) :
    (t.setAttr q f).look p = t.look p := by
  rw [setAttr, look_edit]
  cases he : t.look p with
  | none => rfl
  | some e =>
    rw [Option.map_some, Edit.attrAt_apply_of_ne (by rw [look_loc he]; exact h)]

/-- This entry has the new attributes. -/
theorem look_setAttr_self {q : Loc} {f : Attr → Attr} {e : Entry} (h : t.look q = some e) :
    (t.setAttr q f).look q = some { e with attr := f e.attr } := by
  rw [setAttr, look_edit, h, Option.map_some, Edit.attrAt_apply_self (look_loc h)]

/-- Every other entry keeps its data. -/
theorem look_setData_of_ne {p q : Loc} {data : List UInt8} {f : Attr → Attr} (h : p ≠ q) :
    (t.setData q data f).look p = t.look p := by
  rw [setData, look_edit]
  cases he : t.look p with
  | none => rfl
  | some e =>
    rw [Option.map_some, Edit.dataAt_apply_of_ne (by rw [look_loc he]; exact h)]

/-- This file has the new data and attributes. -/
theorem look_setData_self {q : Loc} {data : List UInt8} {f : Attr → Attr} {e : Entry}
    (h : t.look q = some e) (hs : e.shape = .file) :
    (t.setData q data f).look q = some { e with body := .file data, attr := f e.attr } := by
  rw [setData, look_edit, h, Option.map_some, Edit.dataAt_apply_self (look_loc h) hs]

/-! ### Removing a subtree -/

/-- Remove the entry at `p` and everything below it.  The root directory stays. -/
def prune (t : Tree) (p : Loc) : Tree :=
  if hp : p = [] then t else
  { entries := t.entries.filter (fun e => ¬ p <+: e.loc)
    next := t.next
    locs_nodup := (List.filter_sublist.map Entry.loc).nodup t.locs_nodup
    inos_nodup := (List.filter_sublist.map Entry.ino).nodup t.inos_nodup
    inos_lt := fun e he => t.inos_lt e (List.mem_of_mem_filter he)
    closed := by
      intro e he hne
      have hkeep : ¬ p <+: e.loc := by simpa using (List.mem_filter.mp he).2
      obtain ⟨d, hd, hloc, hdir⟩ := t.closed e (List.mem_of_mem_filter he) hne
      refine ⟨d, List.mem_filter.mpr ⟨hd, ?_⟩, hloc, hdir⟩
      have : ¬ p <+: d.loc := fun h => hkeep (h.trans (hloc ▸ List.dropLast_prefix e.loc))
      simpa using this
    root := by
      obtain ⟨d, hd, hloc, hdir⟩ := t.root
      refine ⟨d, List.mem_filter.mpr ⟨hd, ?_⟩, hloc, hdir⟩
      simpa [hloc] using hp }

/-- What stays is what is not at or below the place. -/
theorem mem_prune {p : Loc} (hp : p ≠ []) {e : Entry} :
    e ∈ (t.prune p).entries ↔ e ∈ t.entries ∧ ¬ p <+: e.loc := by
  simp [prune, hp]

/-- At and below the place there is nothing, and elsewhere what was there. -/
theorem look_prune {p : Loc} (hp : p ≠ []) (q : Loc) :
    (t.prune p).look q = if p <+: q then none else t.look q := by
  split
  · rename_i hpq
    rw [look_eq_none_iff]
    intro e he heq
    exact ((mem_prune hp).mp he).2 (heq ▸ hpq)
  · rename_i hpq
    cases he : t.look q with
    | none =>
      rw [look_eq_none_iff] at he ⊢
      exact fun e hmem => he e ((mem_prune hp).mp hmem).1
    | some e =>
      obtain ⟨hmem, rfl⟩ := look_eq_some_iff.mp he
      exact look_eq_some_iff.mpr ⟨(mem_prune hp).mpr ⟨hmem, hpq⟩, rfl⟩

/-- What is not at or below the place stays. -/
theorem look_prune_apart {p q : Loc} (h : ¬ p <+: q) : (t.prune p).look q = t.look q := by
  rcases eq_or_ne p [] with rfl | hp
  · exact absurd (List.nil_prefix) h
  · rw [look_prune hp, if_neg h]

/-- What is at or below the place is gone. -/
theorem look_prune_below {p q : Loc} (hp : p ≠ []) (h : p <+: q) :
    (t.prune p).look q = none := by
  rw [look_prune hp, if_pos h]

/-- At and below the place there is no shape. -/
theorem shape_prune {p : Loc} (hp : p ≠ []) (q : Loc) :
    (t.prune p).shape q = if p <+: q then none else t.shape q := by
  unfold shape
  rw [look_prune hp]
  split <;> rfl

/-- Remove everything strictly below `d`. -/
def clear (t : Tree) (d : Loc) : Tree where
  entries := t.entries.filter (fun e => ¬ (d <+: e.loc ∧ e.loc ≠ d))
  next := t.next
  locs_nodup := (List.filter_sublist.map Entry.loc).nodup t.locs_nodup
  inos_nodup := (List.filter_sublist.map Entry.ino).nodup t.inos_nodup
  inos_lt := fun e he => t.inos_lt e (List.mem_of_mem_filter he)
  closed := by
    intro e he hne
    have hkeep : ¬ (d <+: e.loc ∧ e.loc ≠ d) := of_decide_eq_true (List.mem_filter.mp he).2
    obtain ⟨p, hp, hloc, hdir⟩ := t.closed e (List.mem_of_mem_filter he) hne
    refine ⟨p, List.mem_filter.mpr ⟨hp, ?_⟩, hloc, hdir⟩
    have : ¬ (d <+: p.loc ∧ p.loc ≠ d) := by
      rintro ⟨hpre, -⟩
      rw [hloc] at hpre
      refine hkeep ⟨hpre.trans (List.dropLast_prefix _), ?_⟩
      rintro rfl
      have := hpre.length_le
      have := List.length_pos_of_ne_nil hne
      rw [List.length_dropLast] at *
      omega
    exact decide_eq_true this
  root := by
    obtain ⟨p, hp, hloc, hdir⟩ := t.root
    refine ⟨p, List.mem_filter.mpr ⟨hp, ?_⟩, hloc, hdir⟩
    rw [hloc]
    cases d <;> simp

/-- What is not strictly below the directory stays. -/
theorem look_clear_of_not_below {d q : Loc} (h : ¬ (d <+: q ∧ q ≠ d)) :
    (t.clear d).look q = t.look q := by
  cases he : t.look q with
  | none =>
    rw [look_eq_none_iff] at he ⊢
    exact fun e hmem => he e (List.mem_of_mem_filter hmem)
  | some e =>
    obtain ⟨hmem, rfl⟩ := look_eq_some_iff.mp he
    exact look_eq_some_iff.mpr ⟨List.mem_filter.mpr ⟨hmem, decide_eq_true h⟩, rfl⟩

/-- What is strictly below the directory is gone. -/
theorem look_clear_of_below {d q : Loc} (h : d <+: q) (hne : q ≠ d) :
    (t.clear d).look q = none := by
  rw [look_eq_none_iff]
  rintro e he rfl
  have hkeep : ¬ (d <+: e.loc ∧ e.loc ≠ d) := of_decide_eq_true (List.mem_filter.mp he).2
  exact hkeep ⟨h, hne⟩

/-- Strictly below the directory there is no shape. -/
theorem shape_clear {d : Loc} (q : Loc) :
    (t.clear d).shape q = if d <+: q ∧ q ≠ d then none else t.shape q := by
  split
  · rename_i h
    exact shape_eq_none_iff.mpr (look_clear_of_below h.1 h.2)
  · rename_i h
    exact congrArg (Option.map Entry.shape) (look_clear_of_not_below h)

/-! ### Adding a leaf -/

/-- Add a new object named `x` to the directory at `d`. -/
def insert (t : Tree) (d : Loc) (x : Name) (a : Attr) (b : Body) : Tree :=
  if h : t.shape d = some .dir ∧ t.look (d ++ [x]) = none then
  { entries := t.entries ++ [⟨d ++ [x], t.next, a, b⟩]
    next := t.next + 1
    locs_nodup := by
      rw [List.map_append, List.nodup_append]
      refine ⟨t.locs_nodup, by simp, ?_⟩
      intro q hq r hr
      obtain ⟨e, he, rfl⟩ := List.mem_map.mp hq
      rw [List.map_singleton, List.mem_singleton] at hr
      rw [hr]
      exact look_eq_none_iff.mp h.2 e he
    inos_nodup := by
      rw [List.map_append, List.nodup_append]
      refine ⟨t.inos_nodup, by simp, ?_⟩
      intro i hi j hj
      obtain ⟨e, he, rfl⟩ := List.mem_map.mp hi
      rw [List.map_singleton, List.mem_singleton] at hj
      rw [hj]
      exact Nat.ne_of_lt (t.inos_lt e he)
    inos_lt := by
      intro e he
      rcases List.mem_append.mp he with he | he
      · exact Nat.lt_succ_of_lt (t.inos_lt e he)
      · rw [List.mem_singleton.mp he]; exact Nat.lt_succ_self _
    closed := by
      intro e he hne
      rcases List.mem_append.mp he with he | he
      · obtain ⟨p, hp, hloc, hdir⟩ := t.closed e he hne
        exact ⟨p, List.mem_append_left _ hp, hloc, hdir⟩
      · obtain ⟨p, hp, hdir⟩ := shape_eq_some_iff.mp h.1
        obtain ⟨hmem, rfl⟩ := look_eq_some_iff.mp hp
        refine ⟨p, List.mem_append_left _ hmem, ?_, hdir⟩
        rw [List.mem_singleton.mp he, List.dropLast_concat]
    root := by
      obtain ⟨p, hp, hloc, hdir⟩ := t.root
      exact ⟨p, List.mem_append_left _ hp, hloc, hdir⟩ }
  else t

section Insert

variable {d : Loc} {x : Name} {a : Attr} {b : Body}

/-- What is there is what was there and the new entry. -/
theorem mem_insert (hd : t.shape d = some .dir) (hx : t.look (d ++ [x]) = none) {e : Entry} :
    e ∈ (t.insert d x a b).entries ↔ e ∈ t.entries ∨ e = ⟨d ++ [x], t.next, a, b⟩ := by
  simp [insert, hd, hx]

/-- The new entry is where it was put. -/
theorem look_insert_self (hd : t.shape d = some .dir) (hx : t.look (d ++ [x]) = none) :
    (t.insert d x a b).look (d ++ [x]) = some ⟨d ++ [x], t.next, a, b⟩ :=
  look_eq_some_iff.mpr ⟨(mem_insert hd hx).mpr (.inr rfl), rfl⟩

/-- Everywhere else is what was there. -/
theorem look_insert_of_ne {q : Loc} (h : q ≠ d ++ [x]) : (t.insert d x a b).look q = t.look q := by
  by_cases hc : t.shape d = some .dir ∧ t.look (d ++ [x]) = none
  · cases he : t.look q with
    | none =>
      rw [look_eq_none_iff] at he ⊢
      intro e hmem
      rcases (mem_insert hc.1 hc.2).mp hmem with hmem | rfl
      · exact he e hmem
      · exact h.symm
    | some e =>
      obtain ⟨hmem, rfl⟩ := look_eq_some_iff.mp he
      exact look_eq_some_iff.mpr ⟨(mem_insert hc.1 hc.2).mpr (.inl hmem), rfl⟩
  · rw [insert, dif_neg hc]

/-- Everywhere else is the shape that was there. -/
theorem shape_insert_of_ne {q : Loc} (h : q ≠ d ++ [x]) :
    (t.insert d x a b).shape q = t.shape q := by
  unfold shape; rw [look_insert_of_ne h]

/-- Everywhere else is the object that was there. -/
theorem tag_insert_of_ne {q : Loc} (h : q ≠ d ++ [x]) :
    (t.insert d x a b).tag q = t.tag q := by
  unfold tag; rw [look_insert_of_ne h]

end Insert

/-! ### Relocating a subtree -/

/-- The location, after moving `src` to `dst`, of what was at `q`. -/
def relocate (src dst q : Loc) : Loc := if src <+: q then dst ++ q.drop src.length else q

/-- What is below the one place goes below the other. -/
theorem relocate_append (src dst r : Loc) : relocate src dst (src ++ r) = dst ++ r := by
  simp [relocate]

/-- What is not at or below the one place stays. -/
theorem relocate_apart {src q : Loc} (dst : Loc) (h : ¬ src <+: q) :
    relocate src dst q = q := if_neg h

/-- When a subtree can be moved: the source is below the root, the target is a free
    location in a directory outside the source. -/
structure Movable (t : Tree) (src dst : Loc) : Prop where
  src_ne : src ≠ []
  dst_ne : dst ≠ []
  free   : t.look dst = none
  parent : t.shape dst.dropLast = some .dir
  apart  : ¬ src <+: dst

instance (t : Tree) (src dst : Loc) : Decidable (t.Movable src dst) :=
  decidable_of_iff (src ≠ [] ∧ dst ≠ [] ∧ t.look dst = none ∧
      t.shape dst.dropLast = some .dir ∧ ¬ src <+: dst)
    ⟨fun ⟨a, b, c, d, e⟩ => ⟨a, b, c, d, e⟩, fun ⟨a, b, c, d, e⟩ => ⟨a, b, c, d, e⟩⟩

/-- No two existing entries are moved onto one location. -/
theorem Movable.relocate_inj {src dst : Loc} (h : t.Movable src dst) {e e' : Entry}
    (he : e ∈ t.entries) (he' : e' ∈ t.entries)
    (heq : relocate src dst e.loc = relocate src dst e'.loc) : e = e' := by
  -- nothing exists at or below the target yet
  have hfree : ∀ e ∈ t.entries, ¬ dst <+: e.loc := by
    intro e he hpre
    have := look_below_none hpre h.free
    rw [look_of_mem he] at this
    cases this
  apply t.eq_of_loc_eq he he'
  by_cases hs : src <+: e.loc <;> by_cases hs' : src <+: e'.loc
  · obtain ⟨r, hr⟩ := hs
    obtain ⟨r', hr'⟩ := hs'
    rw [← hr, ← hr', relocate_append, relocate_append, List.append_cancel_left_eq] at heq
    rw [← hr, ← hr', heq]
  · obtain ⟨r, hr⟩ := hs
    rw [← hr, relocate_append, relocate_apart _ hs'] at heq
    exact absurd ⟨r, heq⟩ (hfree e' he')
  · obtain ⟨r, hr⟩ := hs'
    rw [← hr, relocate_append, relocate_apart _ hs] at heq
    exact absurd ⟨r, heq.symm⟩ (hfree e he)
  · rwa [relocate_apart _ hs, relocate_apart _ hs'] at heq

/-- Move the subtree at `src` to `dst`. -/
def move (t : Tree) (src dst : Loc) : Tree :=
  if h : t.Movable src dst then
  { entries := t.entries.map (fun e => { e with loc := relocate src dst e.loc })
    next := t.next
    locs_nodup := by
      rw [List.map_map]
      exact (List.Nodup.of_map _ t.locs_nodup).map_on
        (fun e he e' he' heq => h.relocate_inj he he' heq)
    inos_nodup := by
      rw [List.map_map]
      exact t.inos_nodup
    inos_lt := by
      intro e' he'
      obtain ⟨e, he, rfl⟩ := List.mem_map.mp he'
      exact t.inos_lt e he
    closed := by
      intro e' he' hne
      obtain ⟨e, he, rfl⟩ := List.mem_map.mp he'
      dsimp only at hne ⊢
      by_cases hs : src <+: e.loc
      · obtain ⟨r, hr⟩ := hs
        rw [← hr, relocate_append]
        rcases eq_or_ne r [] with rfl | hrne
        · -- the moved root itself: its new directory is the free location's
          obtain ⟨d, hd, hdir⟩ := shape_eq_some_iff.mp h.parent
          obtain ⟨hmem, hloc⟩ := look_eq_some_iff.mp hd
          refine ⟨_, List.mem_map_of_mem hmem, ?_, hdir⟩
          have : ¬ src <+: d.loc := by
            rw [hloc]; exact fun hp => h.apart (hp.trans (List.dropLast_prefix dst))
          rw [relocate_apart _ this, hloc, List.append_nil]
        · -- below it: the directory moves along
          obtain ⟨d, hd, hloc, hdir⟩ := t.closed e he (by simp [← hr, hrne])
          refine ⟨_, List.mem_map_of_mem hd, ?_, hdir⟩
          dsimp only
          rw [hloc, ← hr, List.dropLast_append_of_ne_nil hrne, relocate_append,
            List.dropLast_append_of_ne_nil hrne]
      · rw [relocate_apart _ hs] at hne ⊢
        obtain ⟨d, hd, hloc, hdir⟩ := t.closed e he hne
        refine ⟨_, List.mem_map_of_mem hd, ?_, hdir⟩
        have : ¬ src <+: d.loc := by
          rw [hloc]; exact fun hp => hs (hp.trans (List.dropLast_prefix _))
        rw [relocate_apart _ this, hloc]
    root := by
      obtain ⟨d, hd, hloc, hdir⟩ := t.root
      refine ⟨_, List.mem_map_of_mem hd, ?_, hdir⟩
      have : ¬ src <+: d.loc := by rw [hloc]; simpa using h.src_ne
      rw [relocate_apart _ this, hloc] }
  else t

section Move

variable {src dst : Loc}

/-- What is there is what was there, relocated. -/
theorem mem_move (h : t.Movable src dst) {e : Entry} :
    e ∈ (t.move src dst).entries ↔
      ∃ e' ∈ t.entries, { e' with loc := relocate src dst e'.loc } = e := by
  simp [move, h]

/-- At and below the target stands what stood at and below the source. -/
theorem look_move_target (h : t.Movable src dst) (r : Loc) :
    (t.move src dst).look (dst ++ r)
      = (t.look (src ++ r)).map (fun e => { e with loc := dst ++ r }) := by
  cases he : t.look (src ++ r) with
  | none =>
    rw [Option.map_none, look_eq_none_iff]
    intro e' hmem' heq
    obtain ⟨e, hmem, rfl⟩ := (mem_move h).mp hmem'
    -- an entry there would have come from the source, or have been there before
    by_cases hs : src <+: e.loc
    · obtain ⟨r', hr'⟩ := hs
      rw [← hr', relocate_append, List.append_cancel_left_eq] at heq
      rw [← heq, hr'] at he
      rw [look_of_mem hmem] at he
      cases he
    · rw [relocate_apart _ hs] at heq
      have hnone : t.look e.loc = none := look_below_none ⟨r, heq.symm⟩ h.free
      rw [look_of_mem hmem] at hnone
      cases hnone
  | some e =>
    obtain ⟨hmem, hloc⟩ := look_eq_some_iff.mp he
    rw [Option.map_some, look_eq_some_iff]
    refine ⟨(mem_move h).mpr ⟨e, hmem, ?_⟩, rfl⟩
    rw [hloc, relocate_append]

/-- Nothing is left at or below the source. -/
theorem look_move_source (h : t.Movable src dst) (hds : ¬ dst <+: src) {q : Loc}
    (hq : src <+: q) : (t.move src dst).look q = none := by
  rw [look_eq_none_iff]
  intro e' hmem' heq
  obtain ⟨e, hmem, rfl⟩ := (mem_move h).mp hmem'
  dsimp only at heq
  by_cases hs : src <+: e.loc
  · obtain ⟨r, hr⟩ := hs
    rw [← hr, relocate_append] at heq
    -- both `src` and `dst` would be prefixes of one location
    rcases List.prefix_or_prefix_of_prefix hq (show dst <+: q from ⟨r, heq⟩) with hp | hp
    · exact h.apart hp
    · exact hds hp
  · rw [relocate_apart _ hs] at heq
    exact hs (heq ▸ hq)

/-- Everything else stays. -/
theorem look_move_of_apart {q : Loc} (hs : ¬ src <+: q) (hd : ¬ dst <+: q) :
    (t.move src dst).look q = t.look q := by
  by_cases h : t.Movable src dst
  · cases he : t.look q with
    | none =>
      rw [look_eq_none_iff] at he ⊢
      intro e' hmem' heq
      obtain ⟨e, hmem, rfl⟩ := (mem_move h).mp hmem'
      dsimp only at heq
      by_cases hs' : src <+: e.loc
      · -- what was moved stands at or below the target
        obtain ⟨r, hr⟩ := hs'
        rw [← hr, relocate_append] at heq
        exact hd ⟨r, heq⟩
      · rw [relocate_apart _ hs'] at heq
        exact he e hmem heq
    | some e =>
      obtain ⟨hmem, hloc⟩ := look_eq_some_iff.mp he
      rw [look_eq_some_iff]
      refine ⟨(mem_move h).mpr ⟨e, hmem, ?_⟩, hloc⟩
      rw [relocate_apart _ (by rw [hloc]; exact hs)]
  · rw [move, dif_neg h]

end Move

end Tree

end Posix
