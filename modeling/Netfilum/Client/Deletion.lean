import Netfilum.Client.Link
import Netfilum.Server.Deletion

namespace Netfilum

open Posix Program Rust

/-!
# Accepted deletions

`set_delete` asks whether the object of a handle may be deleted, and `cleanup` sends the
request that deletes it, by the kind that the handle was opened with.  What becomes of that
request is dropped.

* `setDelete_eq_ok` — what a `set_delete` that succeeds has found.
* `net_cleanup_of_pending` — a handle with a pending deletion sends it.
* `deletion_carried_out_iff` — an accepted deletion is carried out unless it would remove a
    link as a directory.
-/

variable {Buf : Type} {fs : RpcFsContext Tree Buf} {srv : RpcServer} {os : Os} {handle : Nat}
  {w w₁ w₂ : World Tree Buf}

/-- The server may delete the object of a handle for which `set_delete` succeeded, and the
    handle has its deletion pending. -/
theorem setDelete_eq_ok (h : (fs.connected srv os).setDelete handle true w = .ok () w₁) :
    (∃ path q, srv.Existing w.net (w.contexts handle).path path q ∧
      Deletable w.net q (w.contexts handle).kind) ∧
    (Message.request (.canDelete (w.contexts handle).path (w.contexts handle).kind)).Fits ∧
    w₁.net = w.net ∧
    w₁.contexts handle = { w.contexts handle with deletePending := true } := by
  rw [RpcFsContext.setDelete_apply] at h
  obtain ⟨response, w', hsend, hstore⟩ := bind_eq_ok.mp h
  obtain ⟨t', rfl, hfits, hd, -⟩ := sendDirect_eq_ok.mp hsend
  obtain ⟨u, t'', hcan, hpure⟩ := bind_eq_ok.mp hd
  obtain ⟨hdeletable, rfl⟩ := RpcServer.canDelete_eq_ok.mp hcan
  cases hpure
  cases hstore
  refine ⟨hdeletable, hfits, rfl, ?_⟩
  exact World.contexts_setContext_self _ _ _

/-- Where a `CanDelete` fits in a frame, the removal does. -/
theorem fits_removeRequest {context : RpcFileContext Buf}
    (h : (Message.request (.canDelete context.path context.kind)).Fits) :
    (Message.request (RpcFsContext.removeRequest context)).Fits := by
  refine Message.fits_of_fields h ?_
  unfold RpcFsContext.removeRequest
  -- both removals carry the path alone
  cases context.kind with
  | file => exact Postcard.Codec.length_put_fst_le _ EntryKind.codec context.path .file
  | directory => exact Postcard.Codec.length_put_fst_le _ EntryKind.codec context.path .directory

/-- The cleanup of a handle with a pending deletion has the effect of the removal. -/
theorem net_cleanup_of_pending (fs : RpcFsContext Tree Buf) (srv : RpcServer) (os : Os)
    (flags : UInt32) (hpending : (w.contexts handle).deletePending = true)
    (hfits : (Message.request (RpcFsContext.removeRequest (w.contexts handle))).Fits) :
    (final ((fs.connected srv os).cleanup handle flags w)).net
      = final (srv.dispatch os (RpcFsContext.removeRequest (w.contexts handle)) w.net) := by
  have hshould : RpcFsContext.shouldDelete (w.contexts handle) flags = true :=
    decide_eq_true (.inl hpending)
  unfold RpcFsContext.cleanup
  rw [if_pos hshould, final_ok, net_sendDirect, if_pos hfits]

/-- **Accepted deletions.**  When `set_delete` has succeeded and nothing was requested since,
    the cleanup removes the entry that the handle's path names, and nothing else, if and only
    if it does not take a symbolic link for a directory. -/
theorem deletion_carried_out_iff (fs : RpcFsContext Tree Buf) (srv : RpcServer) (os os' : Os)
    (handle : Nat) (flags : UInt32) (w w₁ w₂ : World Tree Buf)
    (hroot : normalizeRelativePath (w.contexts handle).path ≠ .ok [])
    (hok : (fs.connected srv os).setDelete handle true w = .ok () w₁) (hnet : w₂.net = w₁.net)
    (hctx : w₂.contexts handle = w₁.contexts handle) :
    ∃ path d x, srv.Joins (w.contexts handle).path path ∧ Names w.net path d x ∧
      (srv.CarriedOut os' (RpcFsContext.removeRequest (w.contexts handle)) (d ++ [x]) w.net
          (final ((fs.connected srv os').cleanup handle flags w₂)).net ↔
        ¬ ((w.contexts handle).kind = .directory ∧
          ∃ target, w.net.shape (d ++ [x]) = some (.symlink target))) := by
  obtain ⟨⟨path, q, hex, hdel⟩, hfits, hnet₁, hctx₁⟩ := setDelete_eq_ok hok
  obtain ⟨htrailing, hne⟩ := hex.joins.plain hroot
  obtain ⟨d, x, e, hnames, -, -⟩ := Names.of_resolve hex.resolves hne
  refine ⟨path, d, x, hex.joins, hnames, ?_⟩
  -- the cleanup comes to the tree that `set_delete` was asked about
  have hafter : (final ((fs.connected srv os').cleanup handle flags w₂)).net
      = final (srv.dispatch os' (RpcFsContext.removeRequest (w.contexts handle)) w.net) := by
    have hcontext : w₂.contexts handle = { w.contexts handle with deletePending := true } :=
      hctx.trans hctx₁
    have hrequest : RpcFsContext.removeRequest (w₂.contexts handle)
        = RpcFsContext.removeRequest (w.contexts handle) := by rw [hcontext]; rfl
    rw [net_cleanup_of_pending fs srv os' flags (by rw [hcontext])
      (hrequest ▸ fits_removeRequest hfits), hrequest, hnet, hnet₁]
  rw [hafter]
  unfold RpcFsContext.removeRequest
  cases hkind : (w.contexts handle).kind with
  | file =>
    rw [hkind] at hdel
    -- unlinking removes the entry, a link or not
    exact iff_of_true (RpcServer.carriedOut_removeFile os' hex hnames htrailing hdel)
      (by rintro ⟨⟨⟩, -⟩)
  | directory =>
    rw [hkind] at hdel
    -- `rmdir` does not follow a link, while `CanDelete` did
    have hiff := RpcServer.carriedOut_removeDir_iff os' hex hnames hdel
    exact hiff.trans (not_congr (by rw [eq_self, true_and]))

/-! ### A link to an empty directory -/

open RpcServer in
/-- In the exported `/r`, the link `l` leads to the empty directory `e`. -/
def treeWithLinkToEmpty : Tree where
  entries := [
    oldEntry [] 0 (.dir 0),
    oldEntry ["r"] 1 (.dir 0),
    oldEntry ["r", "e"] 2 (.dir 0),
    oldEntry ["r", "l"] 3 (.symlink ⟨false, [.name (Utf8.encode "e")]⟩)]
  next := 4
  locs_nodup := by decide
  inos_nodup := by decide
  inos_lt := by decide
  closed := by decide
  root := by decide

/-- A client of this server that has opened no file yet. -/
def besideLink : World Tree Unit where
  net := treeWithLinkToEmpty
  mountState := {}
  contexts _ := plainFs.newContext "" .directory

/-- The handle 0, opened on the file `\l`. -/
def openedOnLink : World Tree Unit :=
  besideLink.setContext 0 (plainFs.newContext "l" .directory)

/-- The link is opened as a directory and may be deleted as one, and it stays. -/
theorem link_to_empty_directory_stays :
    (∃ fileInfo, (plainFs.connected .serverAtR (.atTime ⟨1, 0⟩)).openFile [92, 108] besideLink
      = .ok (openedOnLink.contexts 0, fileInfo) besideLink) ∧
    outcome ((plainFs.connected .serverAtR (.atTime ⟨1, 0⟩)).setDelete 0 true openedOnLink)
      = .ok () ∧
    (final ((plainFs.connected .serverAtR (.atTime ⟨1, 0⟩)).cleanup 0 1
      (final ((plainFs.connected .serverAtR (.atTime ⟨1, 0⟩)).setDelete 0 true
        openedOnLink)))).net.look (["r", "l"].map Utf8.encode) ≠ none :=
  ⟨⟨_, rfl⟩, by decide, by decide⟩

/-- The file is gone when its handle is cleaned up. -/
theorem deletion_carried_out_f :
    ∃ path d x, RpcServer.serverAtR.Joins "f" path ∧ Names treeWithFile path d x ∧
      (RpcServer.serverAtR.CarriedOut (.atTime ⟨2, 0⟩) (.removeFile "f") (d ++ [x]) treeWithFile
          (final ((plainFs.connected .serverAtR (.atTime ⟨2, 0⟩)).cleanup 0 1
            (final ((plainFs.connected .serverAtR (.atTime ⟨1, 0⟩)).setDelete 0 true
              openOnFile)))).net ↔
        ¬ (EntryKind.file = .directory ∧
          ∃ target, treeWithFile.shape (d ++ [x]) = some (.symlink target))) :=
  deletion_carried_out_iff plainFs .serverAtR (.atTime ⟨1, 0⟩) (.atTime ⟨2, 0⟩) 0 1 openOnFile
    _ _ (by decide) (eq_ok_of_outcome (by decide)) rfl rfl

end Netfilum
