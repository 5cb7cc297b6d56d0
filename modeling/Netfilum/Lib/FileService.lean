import Netfilum.Lib.FileTree

namespace FileTree

/-!
# What a file service does

The commands that a file service carries out on a tree of files and directories, and what it
answers.  A command that is refused changes nothing, save a write that meets the largest size
of a file: it stores what fits.

* `run` — the answer to a command, if it has one, and the tree it leaves.
* `run_frame`, `run_local` — a command changes only what it writes, and depends only on what
  it reads;  `run_comm` — so commands that do not meet can be exchanged.
* `isolated` — what happens outside a subtree makes no difference inside it.
* `run_twice` — to repeat a command changes nothing more, unless it appends.
-/

/-- A kind of node. -/
inductive Kind where
  | file
  | dir
  deriving DecidableEq

variable {ν α : Type*}

/-- A new node. -/
def Kind.blank : Kind → Node α
  | .file => .file []
  | .dir  => .dir

/-- What a file service can be asked. -/
inductive Command (ν α : Type*) where
  | look (p : List ν)
  | make (p : List ν) (kind : Kind)
  | list (p : List ν)
  | read (p : List ν) (offset length : Nat)
  /-- Write at an offset, or at the end. -/
  | write (p : List ν) (offset : Option Nat) (data : List α)
  | mayRemove (p : List ν) (kind : Kind)
  | remove (p : List ν) (kind : Kind)
  | rename (src dst : List ν) (replace : Bool)
  | resize (p : List ν) (size : Nat)
  | check (p : List ν)
  /-- Change attributes, which are no part of the tree. -/
  | adjust (p : List ν)
  /-- Ask for something that does not depend on the tree. -/
  | report
  /-- Ask for something in a way that cannot be understood. -/
  | invalid

/-- What it answers. -/
inductive Answer (ν α : Type*) where
  | node (n : Node α)
  | children (nodes : ν → Option (Node α))
  | bytes (data : List α)
  | written (count : Nat) (n : Node α)
  | done

/-- Whether the command may be refused for reasons of its own. -/
def Command.Fallible : Command ν α → Prop
  | .adjust _ | .report => True
  | _                   => False

/-- Whether the command writes to the end of a file. -/
def Command.Appends : Command ν α → Prop
  | .write _ none _ => True
  | _               => False

/-! ### Contents -/

/-- What stands where nothing was written. -/
class Fill (α : Type*) where
  fill : α

open Fill (fill)

variable [Fill α]

/-- Contents after writing `data` at `pos`; a gap is filled up. -/
def splice (old : List α) (pos : Nat) (data : List α) : List α :=
  old.take pos ++ List.replicate (pos - old.length) fill ++ data ++ old.drop (pos + data.length)

/-- Contents cut off or extended to `size`. -/
def resized (old : List α) (size : Nat) : List α :=
  old.take size ++ List.replicate (size - old.length) fill

/-- The contents that a write leaves in a file of at most `limit` bytes. -/
def stored (limit : Nat) (old : List α) (offset : Option Nat) (data : List α) : List α :=
  let pos := offset.getD old.length
  if data.take (limit - pos) = [] then old else splice old pos (data.take (limit - pos))

/-- Whether all of the write fits. -/
def Accepts (limit : Nat) (old : List α) (offset : Option Nat) (data : List α) : Prop :=
  (∀ pos, offset = some pos → pos ≤ limit) ∧
    (data ≠ [] → offset.getD old.length + data.length ≤ limit)

omit [Fill α] in
/-- The contents of the file at `p`. -/
def contents (T : FileTree ν α) (p : List ν) : Option (List α) :=
  match T.node p with
  | some (.file data) => some data
  | _                 => none

omit [Fill α] in
/-- Whether a node of this kind can be removed at `p`. -/
def Removable (T : FileTree ν α) (p : List ν) : Kind → Prop
  | .file => ∃ data, T.node p = some (.file data)
  | .dir  => T.node p = some .dir ∧ T.Empty p

omit [Fill α] in
/-- Whether what is at `src` can be renamed to `dst`. -/
structure Renamable (T : FileTree ν α) (src dst : List ν) (replace : Bool) : Prop where
  source  : T.node src ≠ none
  movable : T.Movable src dst
  free    : T.node dst = none ∨ replace = true ∧ ¬ dst <+: src

section Run

open Classical

/-- The answer to a command, if it has one, and the tree it leaves. -/
noncomputable def run (limit : Nat) (T : FileTree ν α) :
    Command ν α → Option (Answer ν α) × FileTree ν α
  | .look p => ((T.node p).map .node, T)
  | .make p kind =>
    if T.node p = none ∧ T.node p.dropLast = some .dir then
      (some (.node kind.blank), T.put p kind.blank)
    else (none, T)
  | .list p =>
    (if T.node p = some .dir then some (.children fun x => T.node (p ++ [x])) else none, T)
  | .read p offset length =>
    (if offset ≤ limit then
      (T.contents p).map fun data => .bytes ((data.drop offset).take length) else none, T)
  | .write p offset data =>
    match T.contents p with
    | none     => (none, T)
    | some old =>
      (if Accepts limit old offset data then
        some (.written data.length (.file (stored limit old offset data))) else none,
        T.put p (.file (stored limit old offset data)))
  | .mayRemove p kind => (if T.Removable p kind then some .done else none, T)
  | .remove p kind =>
    if p ≠ [] ∧ T.Removable p kind then (some .done, T.erase p) else (none, T)
  | .rename src dst replace =>
    if T.Renamable src dst replace then (some .done, T.move src dst) else (none, T)
  | .resize p size =>
    match T.contents p with
    | none     => (none, T)
    | some old =>
      if size ≤ limit then
        (some (.node (.file (resized old size))), T.put p (.file (resized old size)))
      else (none, T)
  | .check p  => ((T.node p).map fun _ => .done, T)
  | .adjust p => ((T.node p).map .node, T)
  | .report   => (some .done, T)
  | .invalid  => (none, T)

end Run

variable {T T' : FileTree ν α} {p q src dst : List ν} {limit : Nat} {old data : List α}
  {c c' : Command ν α} {kind : Kind}

/-! ### What the edits need -/

omit [Fill α] in
/-- Contents are those of a file. -/
theorem contents_eq_some : T.contents p = some data ↔ T.node p = some (.file data) := by
  unfold contents
  split
  · rename_i h
    rw [h, Option.some.injEq, Option.some.injEq, Node.file.injEq]
  · rename_i h
    refine iff_of_false (fun hc => ?_) (h data)
    cases hc

omit [Fill α] in
/-- A file can be stored anew. -/
theorem fits_file (h : T.node p = some (.file old)) (data : List α) : T.Fits p (.file data) := by
  have hne : p ≠ [] := by
    rintro rfl
    rw [T.root] at h
    cases h
  refine ⟨hne, T.closed p hne (by rw [h]; simp), fun hdir => ?_⟩
  rw [h] at hdir
  cases hdir

omit [Fill α] in
/-- A new node fits where nothing is, in a directory. -/
theorem fits_new {n : Node α} (h : T.node p = none) (hdir : T.node p.dropLast = some .dir) :
    T.Fits p n := by
  refine ⟨?_, hdir, fun hp => ?_⟩
  · rintro rfl
    rw [T.root] at h
    cases h
  · rw [h] at hp
    cases hp

omit [Fill α] in
/-- Nothing lies below what can be removed. -/
theorem Removable.below (h : T.Removable p kind) (hpq : p <+: q) (hne : p ≠ q) :
    T.node q = none := by
  refine node_below_empty hpq hne fun hdir => ?_
  cases kind with
  | dir => exact h.2
  | file =>
    obtain ⟨data, hfile⟩ := h
    rw [hfile] at hdir
    cases hdir

/-- A write that fits. -/
theorem run_write_fits {offset : Option Nat} (h : T.contents p = some old)
    (hfits : Accepts limit old offset data) : T.run limit (.write p offset data)
      = (some (.written data.length (.file (stored limit old offset data))),
        T.put p (.file (stored limit old offset data))) := by
  simp only [run, h, if_pos hfits]

/-- A write that does not fit stores what does. -/
theorem run_write_short {offset : Option Nat} (h : T.contents p = some old)
    (hfits : ¬ Accepts limit old offset data) : T.run limit (.write p offset data)
      = (none, T.put p (.file (stored limit old offset data))) := by
  simp only [run, h, if_neg hfits]

/-! ### What a command reads and writes -/

/-- The paths that decide on the command. -/
def Command.Reads : Command ν α → List ν → Prop
  | .look p, q | .read p _ _, q | .write p _ _, q | .resize p _, q | .check p, q
  | .adjust p, q            => q = p
  | .make p _, q            => q = p ∨ q = p.dropLast
  | .list p, q | .mayRemove p _, q | .remove p _, q => q = p ∨ ∃ x, q = p ++ [x]
  | .rename src dst _, q    => src <+: q ∨ dst <+: q ∨ q = dst.dropLast
  | .report, _ | .invalid, _ => False

/-- The paths where the command may change what stands there. -/
def Command.Writes : Command ν α → List ν → Prop
  | .make p _, q | .write p _ _, q | .remove p _, q | .resize p _, q => q = p
  | .rename src dst _, q => src <+: q ∨ dst <+: q
  | _, _                 => False

omit [Fill α] in
/-- A command reads what it writes. -/
theorem Command.reads_of_writes (h : c.Writes q) : c.Reads q := by
  cases c with
  | make p kind => exact .inl h
  | write p offset data => exact h
  | remove p kind => exact .inl h
  | rename src dst replace => exact h.imp_right .inl
  | resize p size => exact h
  | _ => exact h.elim

/-- **Frame.**  A command changes nothing but what it writes. -/
theorem run_frame (h : ¬ c.Writes q) : (T.run limit c).2.node q = T.node q := by
  cases c with
  | make p kind =>
    simp only [run]
    split
    · exact node_put_of_ne h
    · rfl
  | write p offset data =>
    simp only [run]
    split
    · rfl
    · exact node_put_of_ne h
  | remove p kind =>
    simp only [run]
    split
    · rename_i hr
      rw [node_erase hr.1]
      split
      · rename_i hpq
        exact (hr.2.below hpq fun heq => h heq.symm).symm
      · rfl
    · rfl
  | rename src dst replace =>
    simp only [run]
    split
    · exact node_move_apart (fun hs => h (.inl hs)) fun hd => h (.inr hd)
    · rfl
  | resize p size =>
    simp only [run]
    split
    · rfl
    · split
      · exact node_put_of_ne h
      · rfl
  | _ => rfl

/-- `T'` looks like `T` wherever the command reads. -/
def Command.Same (c : Command ν α) (T T' : FileTree ν α) : Prop :=
  ∀ q, c.Reads q → T'.node q = T.node q

omit [Fill α] in
/-- The contents of a path depend on its node only. -/
theorem contents_congr (h : T'.node p = T.node p) : T'.contents p = T.contents p := by
  unfold contents
  rw [h]

omit [Fill α] in
/-- Whether a path may be removed depends on its node and on its children. -/
theorem removable_congr (h : ∀ q, (q = p ∨ ∃ x, q = p ++ [x]) → T'.node q = T.node q) :
    T'.Removable p kind ↔ T.Removable p kind := by
  cases kind with
  | file => unfold Removable; rw [h p (.inl rfl)]
  | dir =>
    unfold Removable Empty
    rw [h p (.inl rfl)]
    exact and_congr_right fun _ => forall_congr' fun x => by rw [h _ (.inr ⟨x, rfl⟩)]

omit [Fill α] in
/-- Whether a rename may be made depends on what it reads. -/
theorem renamable_congr {replace : Bool}
    (h : (Command.rename src dst replace : Command ν α).Same T T') :
    T'.Renamable src dst replace ↔ T.Renamable src dst replace := by
  have hsrc := h src (.inl (List.prefix_refl src))
  have hdst := h dst (.inr (.inl (List.prefix_refl dst)))
  have hup := h dst.dropLast (.inr (.inr rfl))
  constructor
  · rintro ⟨hs, ⟨hne, hp, ha⟩, hf⟩
    exact ⟨hsrc ▸ hs, ⟨hne, hup ▸ hp, ha⟩, hdst ▸ hf⟩
  · rintro ⟨hs, ⟨hne, hp, ha⟩, hf⟩
    exact ⟨hsrc.symm ▸ hs, ⟨hne, hup.symm ▸ hp, ha⟩, hdst.symm ▸ hf⟩

omit [Fill α] in
open Classical in
/-- What is put in two trees that look alike. -/
theorem node_put_congr {n : Node α} (hfits : T.Fits p n) (hfits' : T'.Fits p n)
    (h : T'.node q = T.node q) : (T'.put p n).node q = (T.put p n).node q := by
  rw [node_put hfits, node_put hfits']
  by_cases hq : q = p
  · rw [hq, Function.update_self, Function.update_self]
  · rw [Function.update_of_ne hq, Function.update_of_ne hq, h]

/-- **Locality.**  The answer, and what stands at the paths read, depends on nothing else. -/
theorem run_local (limit : Nat) (h : c.Same T T') :
    (T'.run limit c).1 = (T.run limit c).1 ∧ c.Same (T.run limit c).2 (T'.run limit c).2 := by
  cases c with
  | look p | check p | adjust p =>
    have hp := h p rfl
    simp only [run]
    exact ⟨by rw [hp], h⟩
  | make p kind =>
    have hp := h p (.inl rfl)
    have hup := h p.dropLast (.inr rfl)
    simp only [run]
    by_cases hc : T.node p = none ∧ T.node p.dropLast = some .dir
    · have hc' : T'.node p = none ∧ T'.node p.dropLast = some .dir :=
        ⟨hp.trans hc.1, hup.trans hc.2⟩
      rw [if_pos hc, if_pos hc']
      exact ⟨rfl, fun q hq =>
        node_put_congr (fits_new hc.1 hc.2) (fits_new hc'.1 hc'.2) (h q hq)⟩
    · have hc' : ¬ (T'.node p = none ∧ T'.node p.dropLast = some .dir) := by rwa [hp, hup]
      rw [if_neg hc, if_neg hc']
      exact ⟨rfl, h⟩
  | list p =>
    have hchildren : (fun x => T'.node (p ++ [x])) = fun x => T.node (p ++ [x]) :=
      funext fun x => h _ (.inr ⟨x, rfl⟩)
    simp only [run]
    exact ⟨by rw [h p (.inl rfl), hchildren], h⟩
  | read p offset length =>
    simp only [run]
    exact ⟨by rw [contents_congr (h p rfl)], h⟩
  | write p offset data =>
    have hp := h p rfl
    simp only [run, contents_congr hp]
    split
    · exact ⟨rfl, h⟩
    · rename_i old hold
      have hfile := contents_eq_some.mp hold
      exact ⟨rfl, fun q hq => node_put_congr (fits_file hfile _) (fits_file (hp ▸ hfile) _)
        (h q hq)⟩
  | mayRemove p kind =>
    have hr : T'.Removable p kind ↔ T.Removable p kind := removable_congr h
    simp only [run]
    by_cases hc : T.Removable p kind
    · rw [if_pos hc, if_pos (hr.mpr hc)]
      exact ⟨rfl, h⟩
    · rw [if_neg hc, if_neg fun hc' => hc (hr.mp hc')]
      exact ⟨rfl, h⟩
  | remove p kind =>
    have hr : T'.Removable p kind ↔ T.Removable p kind := removable_congr h
    simp only [run]
    by_cases hc : p ≠ [] ∧ T.Removable p kind
    · rw [if_pos hc, if_pos (hc.imp_right hr.mpr)]
      refine ⟨rfl, fun q hq => ?_⟩
      rw [node_erase hc.1, node_erase hc.1, h q hq]
    · rw [if_neg hc, if_neg fun hc' => hc (hc'.imp_right hr.mp)]
      exact ⟨rfl, h⟩
  | rename src dst replace =>
    have hr := renamable_congr h
    simp only [run]
    by_cases hc : T.Renamable src dst replace
    · rw [if_pos hc, if_pos (hr.mpr hc)]
      refine ⟨rfl, fun q hq => ?_⟩
      rw [node_move hc.movable, node_move (hr.mpr hc).movable, h q hq,
        h _ (.inl (List.prefix_append src _))]
    · rw [if_neg hc, if_neg fun hc' => hc (hr.mp hc')]
      exact ⟨rfl, h⟩
  | resize p size =>
    have hp := h p rfl
    simp only [run, contents_congr hp]
    split
    · exact ⟨rfl, h⟩
    · rename_i old hold
      have hfile := contents_eq_some.mp hold
      split
      · exact ⟨rfl, fun q hq => node_put_congr (fits_file hfile _) (fits_file (hp ▸ hfile) _)
          (h q hq)⟩
      · exact ⟨rfl, h⟩
  | report | invalid => exact ⟨rfl, h⟩

/-! ### Repeating a command -/

/-- A command that leaves the tree alone does so again. -/
theorem run_twice_of_eq (h : (T.run limit c).2 = T) :
    ((T.run limit c).2.run limit c).2 = (T.run limit c).2 := by
  rw [h, h]

/-- To write the same at the same place again changes nothing. -/
theorem splice_splice (old : List α) (pos : Nat) (data : List α) :
    splice (splice old pos data) pos data = splice old pos data := by
  -- the part before the data has length `pos`
  obtain ⟨front, hfront, hlen⟩ : ∃ front,
      front = old.take pos ++ List.replicate (pos - old.length) fill ∧ front.length = pos := by
    refine ⟨_, rfl, ?_⟩
    rw [List.length_append, List.length_take, List.length_replicate]
    omega
  have hsplice : splice old pos data = front ++ data ++ old.drop (pos + data.length) := by
    rw [hfront]
    rfl
  generalize old.drop (pos + data.length) = back at hsplice
  have htotal : pos ≤ (front ++ data ++ back).length := by
    rw [List.length_append, List.length_append, hlen]
    omega
  rw [hsplice]
  unfold splice
  rw [show pos - (front ++ data ++ back).length = 0 by omega, List.replicate_zero, List.append_nil,
    List.append_assoc front, List.take_left' hlen, ← List.append_assoc,
    List.drop_left' (by rw [List.length_append, hlen])]

/-- Writing the same data to the same place twice is writing it once. -/
theorem stored_stored (limit : Nat) (old : List α) (pos : Nat) (data : List α) :
    stored limit (stored limit old (some pos) data) (some pos) data
      = stored limit old (some pos) data := by
  unfold stored
  simp only [Option.getD_some]
  by_cases hnil : data.take (limit - pos) = []
  · rw [if_pos hnil, if_pos hnil]
  · rw [if_neg hnil, if_neg hnil, splice_splice]

/-- A file that is resized has the new size. -/
theorem length_resized (old : List α) (size : Nat) : (resized old size).length = size := by
  simp only [resized, List.length_append, List.length_take, List.length_replicate]
  omega

/-- Resizing to the same size twice is resizing once. -/
theorem resized_resized (old : List α) (size : Nat) :
    resized (resized old size) size = resized old size := by
  have hlen := length_resized old size
  generalize resized old size = new at hlen
  rw [resized, List.take_of_length_le (by omega), show size - new.length = 0 by omega,
    List.replicate_zero, List.append_nil]

omit [Fill α] in
/-- What stands in the place of a file is what was put there. -/
theorem node_put_file (h : T.node p = some (.file old)) (data : List α) :
    (T.put p (.file data)).node p = some (.file data) := node_put_self (fits_file h data)

omit [Fill α] in
/-- After a renaming nothing is left at the source. -/
theorem Renamable.source_gone {replace : Bool} (h : T.Renamable src dst replace) :
    (T.move src dst).node src = none := by
  have habove : ¬ dst <+: src := by
    rcases h.free with hfree | ⟨-, hfree⟩
    · intro hd
      -- the source would lie below a missing path
      have hne : dst ≠ src := fun heq => h.movable.apart (heq ▸ List.prefix_refl _)
      exact h.source (node_below hd hne (by rw [hfree]; simp))
    · exact hfree
  rw [node_move h.movable, if_neg habove, if_pos (List.prefix_refl src)]

/-- **A command that comes twice** leaves the tree as if it had come once, unless it appends. -/
theorem run_twice (limit : Nat) (T : FileTree ν α) (hc : ¬ c.Appends) :
    ((T.run limit c).2.run limit c).2 = (T.run limit c).2 := by
  cases c with
  | make p kind =>
    by_cases hcond : T.node p = none ∧ T.node p.dropLast = some .dir
    · have hrun : (T.run limit (.make p kind)).2 = T.put p kind.blank := by
        simp only [run, if_pos hcond]
      have hnode : (T.put p kind.blank).node p = some kind.blank :=
        node_put_self (fits_new hcond.1 hcond.2)
      rw [hrun]
      simp only [run]
      rw [if_neg]
      rintro ⟨hnone, -⟩
      rw [hnode] at hnone
      cases hnone
    · exact run_twice_of_eq (by simp only [run, if_neg hcond])
  | write p offset data =>
    cases offset with
    | none => exact absurd trivial hc
    | some pos =>
      cases hold : T.contents p with
      | none => exact run_twice_of_eq (by simp only [run, hold])
      | some old =>
        have hrun : (T.run limit (.write p (some pos) data)).2
            = T.put p (.file (stored limit old (some pos) data)) := by
          simp only [run, hold]
        have hnode := node_put_file (contents_eq_some.mp hold) (stored limit old (some pos) data)
        rw [hrun]
        simp only [run, contents_eq_some.mpr hnode]
        rw [stored_stored, put_self hnode]
  | remove p kind =>
    by_cases hcond : p ≠ [] ∧ T.Removable p kind
    · have hrun : (T.run limit (.remove p kind)).2 = T.erase p := by
        simp only [run, if_pos hcond]
      have hnode : (T.erase p).node p = none := by
        rw [node_erase hcond.1, if_pos (List.prefix_refl p)]
      rw [hrun]
      simp only [run]
      rw [if_neg]
      rintro ⟨-, hr⟩
      cases kind with
      | file =>
        obtain ⟨data, hfile⟩ := hr
        rw [hnode] at hfile
        cases hfile
      | dir =>
        have hdir := hr.1
        rw [hnode] at hdir
        cases hdir
    · exact run_twice_of_eq (by simp only [run, if_neg hcond])
  | rename src dst replace =>
    by_cases hcond : T.Renamable src dst replace
    · have hrun : (T.run limit (.rename src dst replace)).2 = T.move src dst := by
        simp only [run, if_pos hcond]
      rw [hrun]
      simp only [run]
      rw [if_neg fun h => h.source hcond.source_gone]
    · exact run_twice_of_eq (by simp only [run, if_neg hcond])
  | resize p size =>
    cases hold : T.contents p with
    | none => exact run_twice_of_eq (by simp only [run, hold])
    | some old =>
      by_cases hfits : size ≤ limit
      · have hrun : (T.run limit (.resize p size)).2 = T.put p (.file (resized old size)) := by
          simp only [run, hold, if_pos hfits]
        have hnode := node_put_file (contents_eq_some.mp hold) (resized old size)
        rw [hrun]
        simp only [run, contents_eq_some.mpr hnode, if_pos hfits]
        rw [resized_resized, put_self hnode]
      · exact run_twice_of_eq (by simp only [run, hold, if_neg hfits])
  | _ => rfl

/-! ### Exchanging commands -/

/-- Two commands do not meet: neither writes what the other reads. -/
def Command.Apart (c c' : Command ν α) : Prop :=
  (∀ q, c.Writes q → ¬ c'.Reads q) ∧ ∀ q, c'.Writes q → ¬ c.Reads q

/-- A command leaves alone what another reads, if they do not meet. -/
theorem same_run (h : ∀ q, c.Writes q → ¬ c'.Reads q) (T : FileTree ν α) (limit : Nat) :
    c'.Same T (T.run limit c).2 := fun _ hq => run_frame fun hw => h _ hw hq

/-- What the second command leaves where the first does not write. -/
theorem node_run_run {limit' : Nat} (hapart : c.Apart c') (hq : ¬ c.Writes q) :
    ((T.run limit c).2.run limit' c').2.node q = (T.run limit' c').2.node q := by
  have hsame := same_run hapart.1 T limit
  by_cases hr : c'.Reads q
  · exact (run_local limit' hsame).2 q hr
  · have hw : ¬ c'.Writes q := fun hw => hr (Command.reads_of_writes hw)
    rw [run_frame hw, run_frame hw, run_frame hq]

/-- **Commands that do not meet** can be exchanged: both are answered as if the other had not
    been there, and the order makes no difference to the tree. -/
theorem run_comm (T : FileTree ν α) (limit limit' : Nat) (hapart : c.Apart c') :
    ((T.run limit c).2.run limit' c').1 = (T.run limit' c').1 ∧
      ((T.run limit' c').2.run limit c).1 = (T.run limit c).1 ∧
      ((T.run limit c).2.run limit' c').2 = ((T.run limit' c').2.run limit c).2 := by
  have hback : c'.Apart c := ⟨hapart.2, hapart.1⟩
  refine ⟨(run_local limit' (same_run hapart.1 T limit)).1,
    (run_local limit (same_run hback.1 T limit')).1, ?_⟩
  ext1
  funext q
  by_cases hw : c.Writes q
  · -- the second command does not read here, so neither does it write
    have hw' : ¬ c'.Writes q := fun h => hapart.1 q hw (Command.reads_of_writes h)
    rw [run_frame hw', node_run_run hback hw']
  · rw [node_run_run hapart hw, run_frame hw]

/-! ### Runs -/

section Calls

variable {κ : Type*} (command : κ → Nat × Command ν α)

/-- Calls for commands, each with the size limit of its time, and what they are answered. -/
noncomputable def trace (T : FileTree ν α) : List κ → List (κ × Option (Answer ν α))
  | []           => []
  | call :: rest =>
    (call, (T.run (command call).1 (command call).2).1) ::
      (T.run (command call).1 (command call).2).2.trace rest

/-- The tree that they leave. -/
noncomputable def after (T : FileTree ν α) (calls : List κ) : FileTree ν α :=
  calls.foldl (fun T call => (T.run (command call).1 (command call).2).2) T

end Calls

/-- The command reads only inside the subtree at `r`. -/
def Command.Inside (r : List ν) (c : Command ν α) : Prop := ∀ q, c.Reads q → r <+: q

/-- The command writes only outside of it. -/
def Command.Outside (r : List ν) (c : Command ν α) : Prop := ∀ q, c.Writes q → ¬ r <+: q

/-- The trees look alike inside the subtree at `r`. -/
def SameInside (r : List ν) (T T' : FileTree ν α) : Prop := ∀ q, r <+: q → T'.node q = T.node q

/-- What reads only inside the subtree is answered alike, and leaves it alike. -/
theorem SameInside.run {r : List ν} (h : SameInside r T T') (hc : c.Inside r) (limit : Nat) :
    (T'.run limit c).1 = (T.run limit c).1 ∧
      SameInside r (T.run limit c).2 (T'.run limit c).2 := by
  have hlocal := run_local limit fun q hq => h q (hc q hq)
  refine ⟨hlocal.1, fun q hq => ?_⟩
  by_cases hr : c.Reads q
  · exact hlocal.2 q hr
  · have hw : ¬ c.Writes q := fun hw => hr (Command.reads_of_writes hw)
    rw [run_frame hw, run_frame hw, h q hq]

/-- What writes only outside of the subtree leaves it as it is. -/
theorem SameInside.skip {r : List ν} (h : SameInside r T T') (hc : c.Outside r) (limit : Nat) :
    SameInside r T (T'.run limit c).2 := fun q hq => by
  rw [run_frame fun hw => hc q hw hq, h q hq]

/-- **Isolation.**  Commands inside a subtree are answered, among others that write outside of
    it, as they are when they come alone, and leave the same in the subtree. -/
theorem isolated {κ : Type*} (command : κ → Nat × Command ν α) {r : List ν} (mine : κ → Bool)
    (calls : List κ) (hin : ∀ call ∈ calls, mine call = true → (command call).2.Inside r)
    (hout : ∀ call ∈ calls, mine call = false → (command call).2.Outside r)
    (h : SameInside r T T') :
    (T'.trace command calls).filter (fun x => mine x.1) = T.trace command (calls.filter mine) ∧
      SameInside r (T.after command (calls.filter mine)) (T'.after command calls) := by
  induction calls generalizing T T' with
  | nil => exact ⟨rfl, h⟩
  | cons call calls ih =>
    have hin' := fun call hmem => hin call (List.mem_cons_of_mem _ hmem)
    have hout' := fun call hmem => hout call (List.mem_cons_of_mem _ hmem)
    have hfirst : call ∈ call :: calls := List.mem_cons_self
    cases hmine : mine call with
    | true =>
      obtain ⟨hanswer, hsame⟩ := h.run (hin _ hfirst hmine) (command call).1
      obtain ⟨hrest, hafter⟩ := ih hin' hout' hsame
      rw [List.filter_cons_of_pos hmine]
      refine ⟨?_, hafter⟩
      rw [trace, List.filter_cons, if_pos hmine, hrest, trace, hanswer]
    | false =>
      have hskip : ¬ mine call = true := by rw [hmine]; simp
      obtain ⟨hrest, hafter⟩ := ih hin' hout' (h.skip (hout _ hfirst hmine) (command call).1)
      rw [List.filter_cons_of_neg hskip]
      refine ⟨?_, hafter⟩
      rw [trace, List.filter_cons, if_neg hskip, hrest]

end FileTree
