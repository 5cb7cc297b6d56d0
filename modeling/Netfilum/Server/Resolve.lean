import Mathlib.Data.List.Forall2
import Netfilum.Posix.Effects
import Netfilum.Server.Dispatch

namespace Netfilum

open Posix Program Rust

/-!
# The two checks of the server

What `resolve_existing` and `resolve_for_new_path` establish, and which parts of the
dispatch only read.

* `Joins` — the path a request's string stands for.
* `resolveExisting_eq_ok` — the *object* the path leads to lies in the exported root.
* `resolveForNewPath_eq_ok` — the directory the path's *parent* leads to does.
-/

variable {srv : RpcServer} {os : Os} {t t' : Tree} {relative : String} {path : PathBuf}

/-- A call of the system succeeds with what the system returns. -/
theorem io_eq_ok {α : Type} {x : EStateM IoError Tree α} {a : α} :
    io x t = .ok a t' ↔ x t = .ok a t' := mapError_eq_ok

/-- What is refused under a condition goes on without it. -/
theorem refuseIf_eq_ok {c : Prop} [Decidable c] {error : RpcError} {u : Unit} :
    refuseIf c error t = .ok u t' ↔ ¬ c ∧ t' = t := by
  unfold refuseIf
  split
  · rename_i h; simp [h]
  · rename_i h; simp [h, eq_comm]

namespace RpcServer

/-- The path of the server that a request's string stands for. -/
def Joins (srv : RpcServer) (relative : String) (path : PathBuf) : Prop :=
  ∃ rel, normalizeRelativePath relative = .ok rel ∧ path = srv.root.join rel

/-- A text is joined to one path only. -/
theorem Joins.unique {path' : PathBuf} (h : srv.Joins relative path)
    (h' : srv.Joins relative path') : path = path' := by
  obtain ⟨rel, hrel, rfl⟩ := h
  obtain ⟨rel', hrel', rfl⟩ := h'
  rw [hrel] at hrel'
  cases hrel'
  rfl

/-- Joining succeeds with the path that is joined. -/
theorem joined_eq_ok :
    srv.joined relative t = .ok path t' ↔ srv.Joins relative path ∧ t' = t := by
  unfold joined Joins
  cases normalizeRelativePath relative with
  | error message => simp
  | ok rel => simp [eq_comm]

/-- `ensure_within_root` succeeds for what lies within the root. -/
theorem ensureWithinRoot_eq_ok {q : Loc} {u : Unit} :
    srv.ensureWithinRoot q t = .ok u t' ↔ srv.rootReal <+: q ∧ t' = t := by
  unfold ensureWithinRoot
  split
  · rename_i h
    simp [h, eq_comm]
  · rename_i h
    simp [h]

/-- The path was accepted for what it leads to. -/
structure Existing (srv : RpcServer) (t : Tree) (relative : String) (path : PathBuf)
    (q : Loc) : Prop where
  joins    : srv.Joins relative path
  nul      : path.hasNul = false
  resolves : resolve t path = .ok q
  within   : srv.rootReal <+: q

/-- A text leads to one existing path only. -/
theorem Existing.unique {path' : PathBuf} {q q' : Loc} (h : srv.Existing t relative path q)
    (h' : srv.Existing t relative path' q') : path = path' ∧ q = q' := by
  obtain rfl := h.joins.unique h'.joins
  exact ⟨rfl, Fs.Leads.unique ⟨h.nul, h.resolves⟩ ⟨h'.nul, h'.resolves⟩⟩

/-- An accepted path leads to one object. -/
theorem Existing.loc_eq {path' : PathBuf} {q q' : Loc} (h : srv.Existing t relative path q)
    (hjoins : srv.Joins relative path') (hl : Fs.Leads t path' q') : q = q' := by
  obtain rfl := h.joins.unique hjoins
  exact Fs.Leads.unique ⟨h.nul, h.resolves⟩ hl

/-- The path was accepted for the directory it lies in. -/
structure ForNew (srv : RpcServer) (t : Tree) (relative : String) (path : PathBuf)
    (q : Loc) : Prop where
  joins    : srv.Joins relative path
  nul      : (path.parent.getD srv.root).hasNul = false
  resolves : resolve t (path.parent.getD srv.root) = .ok q
  within   : srv.rootReal <+: q

/-- `resolve_existing` succeeds with the path that leads to something within the root. -/
theorem resolveExisting_eq_ok :
    srv.resolveExisting relative t = .ok path t' ↔
      (∃ q, srv.Existing t relative path q) ∧ t' = t := by
  simp only [resolveExisting, bind_eq_ok, joined_eq_ok, io_eq_ok, Fs.canonicalize_eq_ok,
    ensureWithinRoot_eq_ok]
  constructor
  · rintro ⟨path, _, ⟨hjoins, rfl⟩, q, _, ⟨hnul, hres, rfl⟩, _, _, ⟨hin, rfl⟩, h⟩
    cases h
    exact ⟨⟨q, hjoins, hnul, hres, hin⟩, rfl⟩
  · rintro ⟨⟨q, hjoins, hnul, hres, hin⟩, rfl⟩
    exact ⟨path, _, ⟨hjoins, rfl⟩, q, _, ⟨hnul, hres, rfl⟩, (), _, ⟨hin, rfl⟩, rfl⟩

/-- `resolve_for_new_path` succeeds with the path whose parent lies within the root. -/
theorem resolveForNewPath_eq_ok :
    srv.resolveForNewPath relative t = .ok path t' ↔
      (∃ q, srv.ForNew t relative path q) ∧ t' = t := by
  simp only [resolveForNewPath, bind_eq_ok, joined_eq_ok, io_eq_ok, Fs.canonicalize_eq_ok,
    ensureWithinRoot_eq_ok]
  constructor
  · rintro ⟨path, _, ⟨hjoins, rfl⟩, q, _, ⟨hnul, hres, rfl⟩, _, _, ⟨hin, rfl⟩, h⟩
    cases h
    exact ⟨⟨q, hjoins, hnul, hres, hin⟩, rfl⟩
  · rintro ⟨⟨q, hjoins, hnul, hres, hin⟩, rfl⟩
    exact ⟨path, _, ⟨hjoins, rfl⟩, q, _, ⟨hnul, hres, rfl⟩, (), _, ⟨hin, rfl⟩, rfl⟩

/-- The entry that an accepted new path names lies in the directory that was checked. -/
theorem ForNew.dir_eq {q d : Loc} {x : Name} (h : srv.ForNew t relative path q)
    (hnames : Names t path d x) : q = d := by
  have hparent : path.parent = some ⟨path.names.dropLast, false⟩ := if_neg hnames.names_ne
  have hres := h.resolves
  rw [hparent, Option.getD_some, hnames.resolve_parent] at hres
  cases hres
  rfl

/-- A new path can only be the root directory itself if everything is exported. -/
theorem ForNew.root_of_nil {q : Loc} (h : srv.ForNew t relative path q)
    (hnil : path.names = []) : srv.rootReal = [] := by
  obtain ⟨rel, -, hjoin⟩ := h.joins
  have hroot : srv.root.names = [] := by
    rw [hjoin] at hnil
    unfold PathBuf.join at hnil
    split at hnil
    · exact hnil
    · exact (List.append_eq_nil_iff.mp hnil).1
  have hparent : path.parent = none := if_pos hnil
  have hres := h.resolves
  rw [hparent, Option.getD_none, resolve_nil hroot] at hres
  cases hres
  exact List.prefix_nil.mp h.within

/-! ### What is read -/

/-- `attr_for_path` returns the attributes of the object to which the path leads. -/
theorem attrForPath_eq_ok {attr : FileAttr} :
    attrForPath path t = .ok attr t' ↔
      (∃ q e, Fs.Leads t path q ∧ t.look q = some e ∧ attrOf e = attr) ∧ t' = t := by
  simp only [attrForPath, bind_eq_ok, io_eq_ok, Fs.metadata_eq_ok]
  constructor
  · rintro ⟨e, _, ⟨hnul, ⟨q, hq, he⟩, rfl⟩, h⟩
    cases h
    exact ⟨⟨q, e, ⟨hnul, hq⟩, he, rfl⟩, rfl⟩
  · rintro ⟨⟨q, e, ⟨hnul, hq⟩, he, rfl⟩, rfl⟩
    exact ⟨e, _, ⟨hnul, ⟨q, hq, he⟩, rfl⟩, rfl⟩

/-- `RemoveFile` removes the entry that its path names, unless that is a directory. -/
theorem removeFile_eq_ok {u : Unit} :
    srv.removeFile os relative t = .ok u t' ↔
      ∃ path q d x e, srv.Existing t relative path q ∧ Names t path d x ∧
        t.look (d ++ [x]) = some e ∧ e.shape ≠ .dir ∧ path.trailing = false ∧
        (t.prune (d ++ [x])).touch os d = t' := by
  simp only [removeFile, bind_eq_ok, resolveExisting_eq_ok, io_eq_ok, Fs.removeFile_eq_ok]
  constructor
  · rintro ⟨path, _, ⟨⟨q, hex⟩, rfl⟩, -, d, x, hnames, e, h⟩
    exact ⟨path, q, d, x, e, hex, hnames, h⟩
  · rintro ⟨path, q, d, x, e, hex, hnames, h⟩
    exact ⟨path, t, ⟨⟨q, hex⟩, rfl⟩, hex.nul, d, x, hnames, e, h⟩

/-- `RemoveDir` removes the entry that its path names, if that is an empty directory. -/
theorem removeDir_eq_ok {u : Unit} :
    srv.removeDir os relative t = .ok u t' ↔
      ∃ path q d x e, srv.Existing t relative path q ∧ Names t path d x ∧
        t.look (d ++ [x]) = some e ∧ e.shape = .dir ∧ t.children (d ++ [x]) = [] ∧
        (t.prune (d ++ [x])).touch os d = t' := by
  simp only [removeDir, bind_eq_ok, resolveExisting_eq_ok, io_eq_ok, Fs.removeDir_eq_ok]
  constructor
  · rintro ⟨path, _, ⟨⟨q, hex⟩, rfl⟩, -, d, x, hnames, e, h⟩
    exact ⟨path, q, d, x, e, hex, hnames, h⟩
  · rintro ⟨path, q, d, x, e, hex, hnames, h⟩
    exact ⟨path, t, ⟨⟨q, hex⟩, rfl⟩, hex.nul, d, x, hnames, e, h⟩

/-- A `Stat` answers with the attributes of the object its path leads to. -/
theorem statPath_eq_ok {attr : FileAttr} :
    srv.statPath relative t = .ok attr t' ↔
      (∃ path q e, srv.Existing t relative path q ∧ t.look q = some e ∧ attrOf e = attr) ∧
        t' = t := by
  simp only [statPath, bind_eq_ok, resolveExisting_eq_ok, attrForPath_eq_ok]
  constructor
  · rintro ⟨path, _, ⟨⟨q, hex⟩, rfl⟩, ⟨q', e, hl, he, hattr⟩, rfl⟩
    obtain rfl := hl.unique ⟨hex.nul, hex.resolves⟩
    exact ⟨⟨path, q', e, hex, he, hattr⟩, rfl⟩
  · rintro ⟨⟨path, q, e, hex, he, hattr⟩, rfl⟩
    exact ⟨path, t', ⟨⟨q, hex⟩, rfl⟩, ⟨q, e, ⟨hex.nul, hex.resolves⟩, he, hattr⟩, rfl⟩

/-- The entry that a listing makes of the name `n`. -/
def Lists (t : Tree) (path : PathBuf) (n : Name) (entry : DirEntry) : Prop :=
  ∃ q e, Fs.Leads t (path.join [n]) q ∧ t.look q = some e ∧ entry = ⟨Utf8.lossy n, attrOf e⟩

/-- A listing succeeds when every name leads to an object. -/
theorem readEntries_eq_ok {names : List Name} {entries : List DirEntry} :
    readEntries path names t = .ok entries t' ↔
      List.Forall₂ (Lists t path) names entries ∧ t' = t := by
  induction names generalizing entries t t' with
  | nil =>
    rw [readEntries, List.forall₂_nil_left_iff]
    constructor
    · intro h
      cases h
      exact ⟨rfl, rfl⟩
    · rintro ⟨rfl, rfl⟩
      rfl
  | cons n names ih =>
    simp only [readEntries, bind_eq_ok, attrForPath_eq_ok, ih, List.forall₂_cons_left_iff]
    constructor
    · rintro ⟨attr, _, ⟨⟨q, e, hl, he, rfl⟩, rfl⟩, rest, _, ⟨hrest, rfl⟩, h⟩
      cases h
      exact ⟨⟨_, _, ⟨q, e, hl, he, rfl⟩, hrest, rfl⟩, rfl⟩
    · rintro ⟨⟨entry, rest, ⟨q, e, hl, he, rfl⟩, hrest, rfl⟩, rfl⟩
      exact ⟨_, _, ⟨⟨q, e, hl, he, rfl⟩, rfl⟩, rest, _, ⟨hrest, rfl⟩, rfl⟩

/-- The names that a directory lists. -/
def namesAt (t : Tree) (d : Loc) : List Name := (t.children d).filterMap (·.loc.getLast?)

/-- The names in a directory are those of its entries. -/
theorem mem_namesAt {d : Loc} {n : Name} : n ∈ namesAt t d ↔ t.look (d ++ [n]) ≠ none := by
  unfold namesAt
  rw [List.mem_filterMap]
  constructor
  · rintro ⟨e, he, hlast⟩
    obtain ⟨hmem, -, hd⟩ := Tree.mem_children.mp he
    obtain ⟨up, hup⟩ := List.getLast?_eq_some_iff.mp hlast
    rw [hup, List.dropLast_concat] at hd
    rw [← hd, ← hup, Tree.look_of_mem hmem]
    simp
  · intro h
    obtain ⟨e, he⟩ := Option.ne_none_iff_exists'.mp h
    obtain ⟨hchild, hloc⟩ := Tree.look_child.mp he
    exact ⟨e, hchild, by rw [hloc, List.getLast?_concat]⟩

/-- `read_dir` returns the sorted entries of the directory. -/
theorem readDir_eq_ok {entries : List DirEntry} :
    srv.readDir relative t = .ok entries t' ↔
      (∃ path d listed, srv.Existing t relative path d ∧ t.shape d = some .dir ∧
        List.Forall₂ (Lists t path) (namesAt t d) listed ∧ sortEntries listed = entries) ∧
        t' = t := by
  simp only [readDir, bind_eq_ok, resolveExisting_eq_ok, io_eq_ok, Fs.metadata_eq_ok,
    refuseIf_eq_ok, Fs.readDir_eq_ok, readEntries_eq_ok, ne_eq, not_not]
  constructor
  · rintro ⟨path, _, ⟨⟨d, hex⟩, rfl⟩, e, _, ⟨hnul, ⟨q, hq, he⟩, rfl⟩, u, _, ⟨hdir, rfl⟩, names, _,
      ⟨-, ⟨q', hq', hshape, rfl⟩, rfl⟩, listed, _, ⟨hlisted, rfl⟩, h⟩
    cases h
    rw [hex.resolves] at hq'
    cases hq'
    exact ⟨⟨path, d, listed, hex, hshape, hlisted, rfl⟩, rfl⟩
  · rintro ⟨⟨path, d, listed, hex, hshape, hlisted, rfl⟩, rfl⟩
    obtain ⟨e, he, hs⟩ := Tree.shape_eq_some_iff.mp hshape
    exact ⟨path, _, ⟨⟨d, hex⟩, rfl⟩, e, _, ⟨hex.nul, ⟨d, hex.resolves, he⟩, rfl⟩, (), _, ⟨hs, rfl⟩,
      _, _, ⟨hex.nul, ⟨d, hex.resolves, hshape, rfl⟩, rfl⟩, listed, _, ⟨hlisted, rfl⟩, rfl⟩

/-! ### What only reads -/

/-- A query of the system changes nothing. -/
theorem quiet_query {α : Type} (p : PathBuf) (f : Tree → Except Errno α) :
    Quiet (io (Fs.query p f)) := .mapError (.observe _)

/-- A question about what is found changes nothing. -/
theorem quiet_found (p : PathBuf) (ok : Entry → Bool) : Quiet (io (Fs.found p ok)) :=
  .mapError fun t => by rw [Fs.found_apply]; rfl

/-- A refusal changes nothing. -/
theorem quiet_refuseIf (c : Prop) [Decidable c] (error : RpcError) :
    Quiet (refuseIf c error) := by
  unfold refuseIf
  split
  · exact .throw _
  · exact .pure _

/-- Moving the position to a place changes nothing. -/
theorem quiet_seekStart (f : Fs.File) (offset : Nat) : Quiet (io (Fs.seekStart os f offset)) := by
  refine .mapError ?_
  unfold Fs.seekStart
  split
  · exact .pure _
  · exact .throw _

/-- Moving the position to the end changes nothing. -/
theorem quiet_seekEnd (f : Fs.File) : Quiet (io (Fs.seekEnd f)) := .mapError (.observe _)

/-- Moving the position for a write changes nothing. -/
theorem quiet_seekFor (f : Fs.File) (offset : UInt64) (toEof : Bool) :
    Quiet (seekFor os f offset toEof) := by
  unfold seekFor
  split
  · exact quiet_seekEnd f
  · exact quiet_seekStart f _

/-- Joining a path changes nothing. -/
theorem quiet_joined : Quiet (srv.joined relative) := by
  unfold joined
  cases normalizeRelativePath relative with
  | error message => exact .throw _
  | ok rel => exact .pure _

/-- `ensure_within_root` changes nothing. -/
theorem quiet_ensureWithinRoot (q : Loc) : Quiet (srv.ensureWithinRoot q) := by
  unfold ensureWithinRoot
  split
  · exact .pure ()
  · exact .throw _

/-- `resolve_existing` changes nothing. -/
theorem quiet_resolveExisting : Quiet (srv.resolveExisting relative) :=
  .bind quiet_joined fun _ => .bind (quiet_query _ _) fun q =>
    .bind (quiet_ensureWithinRoot q) fun _ => .pure _

/-- `resolve_for_new_path` changes nothing. -/
theorem quiet_resolveForNewPath : Quiet (srv.resolveForNewPath relative) :=
  .bind quiet_joined fun _ => .bind (quiet_query _ _) fun q =>
    .bind (quiet_ensureWithinRoot q) fun _ => .pure _

/-- A removal that fails has changed nothing. -/
theorem atomic_removeFile : Atomic (srv.removeFile os relative) :=
  .bind_of_quiet quiet_resolveExisting fun _ => .mapError (.attempt _)

/-- `remove_dir` changes the tree by its last call only. -/
theorem atomic_removeDir : Atomic (srv.removeDir os relative) :=
  .bind_of_quiet quiet_resolveExisting fun _ => .mapError (.attempt _)

/-- `attr_for_path` changes nothing. -/
theorem quiet_attrForPath (p : PathBuf) : Quiet (attrForPath p) :=
  .bind (quiet_query _ _) fun _ => .pure _

/-- `current_access_time` changes nothing. -/
theorem quiet_currentAccessTime (p : PathBuf) : Quiet (currentAccessTime os p) :=
  .bind (quiet_query _ _) fun _ => .pure _

/-- `current_modified_time` changes nothing. -/
theorem quiet_currentModifiedTime (p : PathBuf) : Quiet (currentModifiedTime os p) :=
  .bind (quiet_query _ _) fun _ => .pure _

/-- `stat_path` changes nothing. -/
theorem quiet_statPath : Quiet (srv.statPath relative) :=
  .bind quiet_resolveExisting fun p => quiet_attrForPath p

/-- Reading the attributes of the entries changes nothing. -/
theorem quiet_readEntries (p : PathBuf) (names : List Name) : Quiet (readEntries p names) := by
  induction names with
  | nil => exact .pure _
  | cons n names ih =>
    exact .bind (quiet_attrForPath _) fun _ => .bind ih fun _ => .pure _

/-- `read_dir` changes nothing. -/
theorem quiet_readDir : Quiet (srv.readDir relative) := by
  refine .bind quiet_resolveExisting fun p => .bind (quiet_query _ _) fun metadata => ?_
  exact .bind (quiet_refuseIf _ _) fun _ => .bind (quiet_query _ _) fun names =>
    .bind (quiet_readEntries p names) fun _ => .pure _

/-- `read_file` changes nothing. -/
theorem quiet_readFile (offset : UInt64) (length : UInt32) :
    Quiet (srv.readFile os relative offset length) :=
  .bind quiet_resolveExisting fun _ => .bind (quiet_query _ _) fun _ =>
    .bind (quiet_seekStart _ _) fun _ => .mapError (.observe _)

/-- `can_delete` changes nothing. -/
theorem quiet_canDelete (kind : EntryKind) : Quiet (srv.canDelete relative kind) := by
  refine .bind quiet_resolveExisting fun p => ?_
  cases kind with
  | file => exact .bind (quiet_query _ _) fun metadata => quiet_refuseIf _ _
  | directory =>
    exact .bind (quiet_query _ _) fun metadata => .bind (quiet_refuseIf _ _) fun _ =>
      .bind (quiet_query _ _) fun children => quiet_refuseIf _ _

/-- `flush` changes nothing. -/
theorem quiet_flush (relative : Option String) : Quiet (srv.flush relative) := by
  cases relative with
  | none => exact .pure _
  | some relative =>
    refine .bind quiet_resolveExisting fun p => .bind (quiet_found _ _) fun isDir => ?_
    split
    · exact .pure _
    · exact .bind (quiet_query _ _) fun _ => .mapError (.pure _)

/-- Asking for the capacity changes nothing. -/
theorem quiet_volumeInfo : Quiet (srv.volumeInfo os) := .mapError (.observe _)

/-! ### What moves nothing -/

/-- `set_readonly` keeps shapes and objects. -/
theorem still_setReadonly (p : PathBuf) (readonly : Bool) : Still (setReadonly os p readonly) :=
  .bind (Quiet.preserves _ (.observe _)) fun _ => Fs.still_setPermissions _

/-- The step for the read-only flag keeps shapes and objects. -/
theorem still_readonlyStep (p : PathBuf) (readonly : Option Bool) :
    Still (match readonly with
      | some readonly => io (setReadonly os p readonly)
      | none          => pure () : ServerM Unit) := by
  cases readonly with
  | none => exact Quiet.preserves _ (.pure ())
  | some readonly => exact .mapError (still_setReadonly p readonly)

/-- `truncate_file` keeps shapes and objects. -/
theorem still_truncateFile (p : PathBuf) (size : UInt64) : Still (truncateFile os p size) :=
  .bind ((quiet_query _ _).preserves _) fun _ => .mapError (Fs.still_setLen _ _)

/-- `write_file` keeps shapes and objects. -/
theorem still_writeFile (offset : UInt64) (data : List UInt8) (toEof : Bool) :
    Still (srv.writeFile os relative offset data toEof) :=
  .bind (quiet_resolveExisting.preserves _) fun p =>
    .bind ((quiet_query _ _).preserves _) fun _ =>
      .bind ((quiet_seekFor _ _ _).preserves _) fun _ =>
        .bind (.mapError (Fs.still_writeAll _ _)) fun _ =>
          Quiet.preserves _ (.bind (.mapError (.pure _)) fun _ =>
            .bind (quiet_attrForPath p) fun _ => .pure _)

/-- `set_len` keeps shapes and objects. -/
theorem still_setLen (size : UInt64) (allocation : Bool) :
    Still (srv.setLen os relative size allocation) := by
  refine .bind (quiet_resolveExisting.preserves _) fun p => .bind ?_ fun _ =>
    (quiet_attrForPath p).preserves _
  split
  · exact Quiet.preserves _ (.pure ())
  · exact still_truncateFile p size

/-- `set_basic_info` keeps shapes and objects. -/
theorem still_setBasicInfo (update : BasicInfoUpdate) :
    Still (srv.setBasicInfo os relative update) := by
  refine .bind (quiet_resolveExisting.preserves _) fun p =>
    .bind (still_readonlyStep p _) fun _ =>
      .bind ((quiet_currentAccessTime p).preserves _) fun _ =>
        .bind ((quiet_currentModifiedTime p).preserves _) fun _ => .bind ?_ fun _ =>
          (quiet_attrForPath p).preserves _
  split
  · exact .mapError (Fs.still_setFileTimes _ _)
  · exact Quiet.preserves _ (.pure ())

/-! ### A small server -/

/-- An entry that was last changed at the start of the epoch. -/
def oldEntry (loc : List String) (ino : Nat) (body : Body) : Entry where
  loc := loc.map Utf8.encode
  ino := ino
  attr := ⟨0o777, ⟨0, 0⟩, ⟨0, 0⟩, ⟨0, 0⟩, none, 0⟩
  body := body

/-- A server for `/r`. -/
def serverAtR : RpcServer where
  root := ⟨[Utf8.encode "r"], false⟩
  rootReal := [Utf8.encode "r"]
  volumeLabel := "r"

end RpcServer

open RpcServer in
/-- The exported `/r` holds a file `f` of three bytes. -/
def treeWithFile : Tree where
  entries := [
    oldEntry [] 0 (.dir 0), oldEntry ["r"] 1 (.dir 0), oldEntry ["r", "f"] 2 (.file [1, 2, 3])]
  next := 3
  locs_nodup := by decide
  inos_nodup := by decide
  inos_lt := by decide
  closed := by decide
  root := by decide

open RpcServer in
/-- In the exported `/r`, a directory `d` holds the files `b` and `a`, made in this order. -/
def treeWithDir : Tree where
  entries := [
    oldEntry [] 0 (.dir 0), oldEntry ["r"] 1 (.dir 0), oldEntry ["r", "d"] 2 (.dir 0),
    oldEntry ["r", "d", "b"] 3 (.file [2]), oldEntry ["r", "d", "a"] 4 (.file [1])]
  next := 5
  locs_nodup := by decide
  inos_nodup := by decide
  inos_lt := by decide
  closed := by decide
  root := by decide

end Netfilum
