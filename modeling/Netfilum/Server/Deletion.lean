import Netfilum.Posix.Moves
import Netfilum.Server.Resolve

namespace Netfilum

open Posix Program Rust

/-!
# What may be deleted, and what is

`can_delete` looks at the object that a path leads to; `remove_file` and `remove_dir` take
the entry that it names.  The two differ where the entry is a symbolic link.

* `canDelete_eq_ok` — what `can_delete` asks of the object.
* `CarriedOut` — a request removed one entry and left the rest of the tree as it was.
* `carriedOut_removeFile`, `carriedOut_removeDir_iff` — when the removals do this to an entry
  whose object may be deleted.
-/

variable {srv : RpcServer} {os : Os} {t t' : Tree} {relative : String} {path : PathBuf}
  {q d : Loc} {x : Name}

/-- The object may be deleted as one of its kind: a directory has to be empty. -/
def Deletable (t : Tree) (q : Loc) : EntryKind → Prop
  | .file      => t.shape q = some .file
  | .directory => t.shape q = some .dir ∧ t.children q = []

namespace RpcServer

/-- The request succeeded, and removed the entry at `v` and nothing else. -/
structure CarriedOut (srv : RpcServer) (os : Os) (request : Request) (v : Loc) (t t' : Tree) :
    Prop where
  succeeded : srv.dispatch os request t = .ok .empty t'
  removed   : Removed os v t t'

/-- A directory that lists nothing has no children. -/
theorem namesAt_eq_nil_iff : namesAt t q = [] ↔ t.children q = [] := by
  rw [List.eq_nil_iff_forall_not_mem, Tree.children_eq_nil_iff]
  exact forall_congr' fun x => by rw [mem_namesAt, not_not]

/-- A path other than the root's ends in a name, without a slash behind it. -/
theorem Joins.plain (h : srv.Joins relative path) (hne : normalizeRelativePath relative ≠ .ok []) :
    path.trailing = false ∧ path.names ≠ [] := by
  obtain ⟨rel, hrel, rfl⟩ := h
  have hrel' : rel ≠ [] := fun hnil => hne (hnil ▸ hrel)
  unfold PathBuf.join
  rw [if_neg hrel']
  exact ⟨rfl, fun hnil => hrel' (List.append_eq_nil_iff.mp hnil).2⟩

/-- `can_delete` succeeds where there is something that can be deleted. -/
theorem canDelete_eq_ok {kind : EntryKind} {u : Unit} :
    srv.canDelete relative kind t = .ok u t' ↔
      (∃ path q, srv.Existing t relative path q ∧ Deletable t q kind) ∧ t' = t := by
  constructor
  · intro h
    obtain ⟨path, t₁, hpath, hask⟩ := bind_eq_ok.mp h
    obtain ⟨⟨q, hex⟩, rfl⟩ := resolveExisting_eq_ok.mp hpath
    clear h
    cases kind with
    | file =>
      obtain ⟨e, t₂, hmeta, hrefuse⟩ := bind_eq_ok.mp hask
      obtain ⟨-, ⟨q', hq', he⟩, rfl⟩ := Fs.metadata_eq_ok.mp (io_eq_ok.mp hmeta)
      -- the object is no directory
      obtain ⟨hnot, rfl⟩ := refuseIf_eq_ok.mp hrefuse
      obtain rfl := Fs.Leads.unique ⟨hex.nul, hex.resolves⟩ ⟨hex.nul, hq'⟩
      refine ⟨⟨path, q, hex, (shape_of_resolve hex.resolves).resolve_right fun hdir => hnot ?_⟩,
        rfl⟩
      rw [Tree.shape_of_look he] at hdir
      exact Option.some.inj hdir
    | directory =>
      obtain ⟨e, t₂, hmeta, hlist⟩ := bind_eq_ok.mp hask
      obtain ⟨-, -, rfl⟩ := Fs.metadata_eq_ok.mp (io_eq_ok.mp hmeta)
      obtain ⟨u₁, t₃, hrefuse, hread⟩ := bind_eq_ok.mp hlist
      obtain ⟨-, rfl⟩ := refuseIf_eq_ok.mp hrefuse
      obtain ⟨names, t₄, hread, hempty⟩ := bind_eq_ok.mp hread
      obtain ⟨-, ⟨q', hq', hdir, hnames⟩, rfl⟩ := Fs.readDir_eq_ok.mp (io_eq_ok.mp hread)
      obtain ⟨hnot, rfl⟩ := refuseIf_eq_ok.mp hempty
      obtain rfl := Fs.Leads.unique ⟨hex.nul, hex.resolves⟩ ⟨hex.nul, hq'⟩
      -- the directory has no entries
      have hnil : names = [] := Decidable.not_not.mp hnot
      exact ⟨⟨path, q, hex, hdir, namesAt_eq_nil_iff.mp (hnames.trans hnil)⟩, rfl⟩
  · rintro ⟨⟨path, q, hex, hdel⟩, rfl⟩
    -- the other way, each step of the call succeeds
    refine bind_eq_ok.mpr ⟨path, t', resolveExisting_eq_ok.mpr ⟨⟨q, hex⟩, rfl⟩, ?_⟩
    obtain ⟨e, he, -⟩ := resolve_look hex.resolves
    have hshape := Tree.shape_of_look he
    have hmeta : io (Fs.metadata path) t' = .ok e t' :=
      io_eq_ok.mpr (Fs.metadata_eq_ok.mpr ⟨hex.nul, ⟨q, hex.resolves, he⟩, rfl⟩)
    cases kind with
    | file =>
      have hfile : t'.shape q = some .file := hdel
      refine bind_eq_ok.mpr ⟨e, t', hmeta, refuseIf_eq_ok.mpr ⟨fun hdir => ?_, rfl⟩⟩
      rw [hshape, hdir] at hfile
      cases hfile
    | directory =>
      obtain ⟨hdir, hnil⟩ := hdel
      have hread : io (Fs.readDir path) t' = .ok [] t' :=
        io_eq_ok.mpr (Fs.readDir_eq_ok.mpr
          ⟨hex.nul, ⟨q, hex.resolves, hdir, namesAt_eq_nil_iff.mpr hnil⟩, rfl⟩)
      rw [hshape] at hdir
      refine bind_eq_ok.mpr ⟨e, t', hmeta, bind_eq_ok.mpr ⟨(), t', refuseIf_eq_ok.mpr
        ⟨fun hnot => hnot (Option.some.inj hdir), rfl⟩, bind_eq_ok.mpr ⟨[], t', hread, ?_⟩⟩⟩
      exact refuseIf_eq_ok.mpr ⟨fun hnot => hnot rfl, rfl⟩

/-! ### What the removals do -/

/-- The entry of an object that may be deleted has nothing below it. -/
theorem below_of_deletable {kind : EntryKind} (hex : srv.Existing t relative path q)
    (hnames : Names t path d x) (hdel : Deletable t q kind)
    {p : Loc} (hp : d ++ [x] <+: p) (hne : p ≠ d ++ [x]) : t.look p = none := by
  refine look_below_of_childless (fun hdir => ?_) hp hne
  -- the entry is a directory, so it is the object
  obtain ⟨e', he', hself⟩ := hnames.entry_of_resolve hex.resolves
  rw [Tree.shape_of_look he'] at hdir
  obtain rfl := hself fun tgt hlink => by rw [Option.some.inj hdir] at hlink; cases hlink
  cases kind with
  | file =>
    have hfile : t.shape (d ++ [x]) = some .file := hdel
    rw [Tree.shape_of_look he', hdir] at hfile
    cases hfile
  | directory => exact hdel.2

/-- **A file** that may be deleted is removed, or the link that leads to it. -/
theorem carriedOut_removeFile (os : Os) (hex : srv.Existing t relative path q)
    (hnames : Names t path d x) (htrailing : path.trailing = false) (hdel : Deletable t q .file) :
    srv.CarriedOut os (.removeFile relative) (d ++ [x]) t
      (final (srv.dispatch os (.removeFile relative) t)) := by
  obtain ⟨e, he, hself⟩ := hnames.entry_of_resolve hex.resolves
  have hnotdir : e.shape ≠ .dir := by
    intro hdir
    obtain rfl := hself fun tgt hlink => by rw [hdir] at hlink; cases hlink
    have hfile : t.shape (d ++ [x]) = some .file := hdel
    rw [Tree.shape_of_look he, hdir] at hfile
    cases hfile
  have hremove : srv.removeFile os relative t = .ok () ((t.prune (d ++ [x])).touch os d) :=
    removeFile_eq_ok.mpr ⟨path, q, d, x, e, hex, hnames, he, hnotdir, htrailing, rfl⟩
  have hrun : srv.dispatch os (.removeFile relative) t
      = .ok .empty ((t.prune (d ++ [x])).touch os d) := bind_of_ok hremove
  rw [hrun]
  exact ⟨hrun, removed_prune fun p hp hne => below_of_deletable hex hnames hdel hp hne⟩

/-- **An empty directory** that may be deleted is removed, unless its entry is a link. -/
theorem carriedOut_removeDir_iff (os : Os) (hex : srv.Existing t relative path q)
    (hnames : Names t path d x) (hdel : Deletable t q .directory) :
    srv.CarriedOut os (.removeDir relative) (d ++ [x]) t
        (final (srv.dispatch os (.removeDir relative) t)) ↔
      ¬ ∃ target, t.shape (d ++ [x]) = some (.symlink target) := by
  obtain ⟨e, he, hself⟩ := hnames.entry_of_resolve hex.resolves
  have hshape := Tree.shape_of_look he
  constructor
  · rintro h ⟨target, hlink⟩
    obtain ⟨u, t₁, hremove, -⟩ := bind_eq_ok.mp h.succeeded
    obtain ⟨path', q', d', x', e', hex', hnames', he', hdir, -⟩ := removeDir_eq_ok.mp hremove
    obtain ⟨rfl, -⟩ := hex'.unique hex
    obtain ⟨rfl, rfl⟩ := hnames.unique hnames'
    rw [Tree.shape_of_look he', hdir] at hlink
    cases hlink
  · intro hnot
    obtain rfl := hself fun target hlink => hnot ⟨target, by rw [hshape, hlink]⟩
    obtain ⟨hdir, hnil⟩ := hdel
    rw [hshape] at hdir
    have hremove : srv.removeDir os relative t = .ok () ((t.prune (d ++ [x])).touch os d) :=
      removeDir_eq_ok.mpr ⟨path, d ++ [x], d, x, e, hex, hnames, he, Option.some.inj hdir, hnil,
        rfl⟩
    have hrun : srv.dispatch os (.removeDir relative) t
        = .ok .empty ((t.prune (d ++ [x])).touch os d) := bind_of_ok hremove
    rw [hrun]
    refine ⟨hrun, removed_prune fun p hp hne => ?_⟩
    exact look_below_of_childless (fun _ => hnil) hp hne

end RpcServer

end Netfilum
