import Mathlib.Logic.Relation
import Netfilum.Client.Disposition
import Netfilum.Client.Link
import Netfilum.Server.Acting
import Netfilum.Server.Contents
import Netfilum.Server.Objects

namespace Netfilum

open Posix Program Rust

/-!
# Handles and their objects

A handle of the client is a path.  `rename` rewrites the path of the handle it came
through, and of no other.

* `Session` — the client with its open handles, and with the object each was opened on.
* `Session.Identity` — as long as the object of an open handle exists, the server resolves
  the handle's path to it.
* `Session.Harmless` — the call renames or deletes nothing that the path of another handle
  passes through, unless the object of that handle goes with it; and a handle that is
  renamed can be followed.
* `identity_of_reaches` — handles keep their objects along every run of such calls.
-/

/-- A call that opens, changes or closes a handle. -/
inductive HandleCall where
  | openFile (handle : Nat) (fileName : List UInt16)
  | create (handle : Nat) (fileName : List UInt16) (createOptions fileAttributes : UInt32)
      (allocationSize : UInt64)
  | rename (handle : Nat) (newFileName : List UInt16) (replaceIfExists : Bool)
  | setDelete (handle : Nat) (deleteFile : Bool)
  | cleanup (handle : Nat) (flags : UInt32)
  | close (handle : Nat)

/-- The client and the server, and for every open handle the object it was opened on. -/
structure Session (Buf : Type) where
  world   : World Tree Buf
  objects : Nat → Option Nat

variable {Buf : Type}

namespace Session

/-- The tree of the server. -/
def tree (s : Session Buf) : Tree := s.world.net

/-- The path of a handle. -/
def path (s : Session Buf) (handle : Nat) : String := (s.world.contexts handle).path

/-- The session with its handles as they are, after a callback. -/
def after (s : Session Buf) (w : World Tree Buf) : Session Buf := { s with world := w }

/-- Open a handle: its object is what the server resolves its path to. -/
def opened (srv : RpcServer) (s : Session Buf) (handle : Nat) :
    EStateM.Result Stop (World Tree Buf) (RpcFileContext Buf × FileInfo) → Session Buf
  | .error _ w => s.after w
  | .ok (context, _) w =>
    { world := w.setContext handle context,
      objects := fun h => if h = handle then srv.object w.net context.path else s.objects h }

/-- Make a call.  Only a free handle is opened, and only an open one used. -/
def call (fs : RpcFsContext Tree Buf) (srv : RpcServer) (os : Os) (s : Session Buf) :
    HandleCall → Session Buf
  | .openFile handle fileName =>
    if s.objects handle = none then
      s.opened srv handle ((fs.connected srv os).openFile fileName s.world)
    else s
  | .create handle fileName createOptions fileAttributes allocationSize =>
    if s.objects handle = none then
      s.opened srv handle ((fs.connected srv os).create fileName createOptions fileAttributes
        allocationSize s.world)
    else s
  | .rename handle newFileName replaceIfExists =>
    if s.objects handle = none then s
    else s.after
      (final ((fs.connected srv os).rename handle newFileName replaceIfExists s.world))
  | .setDelete handle deleteFile =>
    if s.objects handle = none then s
    else s.after (final ((fs.connected srv os).setDelete handle deleteFile s.world))
  | .cleanup handle flags =>
    if s.objects handle = none then s
    else s.after (final ((fs.connected srv os).cleanup handle flags s.world))
  | .close handle => { s with objects := fun h => if h = handle then none else s.objects h }

/-- **Handle identity.**  As long as the object of an open handle exists, the server
    resolves the handle's path to it. -/
def Identity (srv : RpcServer) (s : Session Buf) : Prop :=
  ∀ handle i, s.objects handle = some i → s.tree.Has i →
    srv.object s.tree (s.path handle) = some i

/-! ### Calls that are harmless -/

/-- What a rename through `handle` may do while another handle, or the same, is open on the
    object `e`. -/
def AllowsRename (srv : RpcServer) (os : Os) (s : Session Buf) (handle : Nat) (newPath : String)
    (replace : Bool) (other : Nat) (e : Entry) : Prop :=
  let request : Request := .rename (s.path handle) newPath replace
  srv.Drops s.tree request e.loc ∨
    if other = handle then
      (srv.Succeeds os s.tree (s.path handle) newPath replace →
        srv.Follows os s.tree (s.path handle) newPath replace e.loc) ∧
      (¬ srv.Succeeds os s.tree (s.path handle) newPath replace →
        srv.Spares os s.tree request (s.path handle))
    else srv.Spares os s.tree request (s.path other)

/-- The call leaves the path of every open handle in place, removes its object with it, or
    is a rename through the handle that can be followed. -/
def Harmless (srv : RpcServer) (os : Os) (s : Session Buf) : HandleCall → Prop
  | .rename handle newFileName replace =>
    s.objects handle ≠ none → ∀ other, ∀ e ∈ s.tree.entries, s.objects other = some e.ino →
      s.AllowsRename srv os handle (ntPathToRelative newFileName) replace other e
  | .cleanup handle flags =>
    s.objects handle ≠ none →
      RpcFsContext.shouldDelete (s.world.contexts handle) flags = true →
      ∀ other, ∀ e ∈ s.tree.entries, s.objects other = some e.ino →
        srv.Drops s.tree (RpcFsContext.removeRequest (s.world.contexts handle)) e.loc ∨
        srv.Spares os s.tree (RpcFsContext.removeRequest (s.world.contexts handle)) (s.path other)
  | _ => True

end Session

/-! ### What the callbacks do to the tree and the contexts -/

namespace RpcFsContext

variable {fs : RpcFsContext Tree Buf} {srv : RpcServer} {os : Os} {w : World Tree Buf}

/-- Opening a file at this path fails, or gives a context with it, for which there is an
    object; `w` is the world after. -/
def OpensAt (fs : RpcFsContext Tree Buf) (srv : RpcServer) (path : String) (w : World Tree Buf)
    (r : EStateM.Result Stop (World Tree Buf) (RpcFileContext Buf × FileInfo)) : Prop :=
  (∃ stop, r = .error stop w) ∨
    (∃ kind fileInfo, r = .ok (fs.newContext path kind, fileInfo) w) ∧
      ∃ i, srv.object w.net path = some i

/-- The last steps of `open` and `create`. -/
theorem opensAt_of_attr {path : String} {w : World Tree Buf} (attr : FileAttr)
    (hobject : ∃ i, srv.object w.net path = some i) :
    fs.OpensAt srv path w ((do
      let fileInfo ← checked (fillFileInfo attr)
      return (fs.newContext path attr.kind, fileInfo)) w) := by
  have happly : (checked (fillFileInfo attr) : ClientM Tree Buf FileInfo) w
      = given ((fillFileInfo attr).mapError .panic) w := rfl
  rw [bind_apply, happly]
  cases fillFileInfo attr with
  | error message => exact .inl ⟨.panic message, rfl⟩
  | ok fileInfo => exact .inr ⟨⟨attr.kind, fileInfo, rfl⟩, hobject⟩

/-- `open` sends a `Stat`, which changes nothing. -/
theorem openFile_connected (fs : RpcFsContext Tree Buf) (srv : RpcServer) (os : Os)
    (fileName : List UInt16) (w : World Tree Buf) :
    ∃ w', w'.contexts = w.contexts ∧ w'.net = w.net ∧
      fs.OpensAt srv (ntPathToRelative fileName) w'
        ((fs.connected srv os).openFile fileName w) := by
  have hquiet : final (srv.dispatch os (.stat (ntPathToRelative fileName)) w.net) = w.net := by
    show final ((Response.attr <$> srv.statPath (ntPathToRelative fileName)) w.net) = w.net
    exact Quiet.map RpcServer.quiet_statPath w.net
  have hrun : (fs.connected srv os).openFile fileName w
      = ((fs.connected srv os).fetchAttr (ntPathToRelative fileName) >>= fun attr => do
          let fileInfo ← checked (fillFileInfo attr)
          return (fs.newContext (ntPathToRelative fileName) attr.kind, fileInfo)) w := rfl
  have hfetch := (fs.connected srv os).fetchAttr_apply (ntPathToRelative fileName) w
  rw [show (fs.connected srv os).exchange = srv.exchange os from rfl] at hfetch
  rw [hrun]
  -- an answer that is no `Attr` fails the call, like an error
  rcases send_exchange srv os (.stat (ntPathToRelative fileName)) w.net with
    ⟨response, t', -, hd, hsend⟩ | ⟨e, t', ht', hsend⟩
  · rw [hd, final_ok] at hquiet
    rw [hsend] at hfetch
    cases response with
    | attr attr =>
      rw [bind_of_ok hfetch]
      obtain ⟨attr', hstat, hattr⟩ := map_eq_ok.mp hd
      cases hattr
      exact ⟨{ w with net := t' }, rfl, hquiet,
        opensAt_of_attr attr (RpcServer.object_of_statPath hstat)⟩
    | dirEntries _ | data _ | writeResult _ _ | volumeInfo _ | empty =>
      exact ⟨{ w with net := t' }, rfl, hquiet, .inl ⟨_, bind_of_error hfetch⟩⟩
  · rw [hquiet, or_self] at ht'
    rw [hsend] at hfetch
    exact ⟨{ w with net := t', mountState := mapRpcError e w.mountState }, rfl, ht',
      .inl ⟨_, bind_of_error hfetch⟩⟩

/-- `create` sends a `Create`. -/
theorem create_connected (fs : RpcFsContext Tree Buf) (srv : RpcServer) (os : Os)
    (fileName : List UInt16) (createOptions fileAttributes : UInt32)
    (allocationSize : UInt64) (w : World Tree Buf) :
    ∃ w' kind, w'.contexts = w.contexts ∧
      (w'.net = w.net ∨ w'.net = final (srv.dispatch os
        (.create (ntPathToRelative fileName) kind fileAttributes allocationSize) w.net)) ∧
      fs.OpensAt srv (ntPathToRelative fileName) w'
        ((fs.connected srv os).create fileName createOptions fileAttributes allocationSize w) := by
  unfold create
  generalize (if createOptions &&& fileDirectoryFileFlag ≠ 0 then EntryKind.directory
    else EntryKind.file) = kind
  rcases sendDirect_connected fs srv os
    (.create (ntPathToRelative fileName) kind fileAttributes allocationSize) w with
    ⟨response, t', -, hd, hsend⟩ | ⟨e, t', ht', hsend⟩
  · refine ⟨{ w with net := t' }, kind, rfl, .inr (by rw [hd]; rfl), ?_⟩
    rw [bind_of_ok hsend]
    cases response with
    | attr attr =>
      obtain ⟨attr', hcreate, hattr⟩ := map_eq_ok.mp hd
      cases hattr
      exact opensAt_of_attr attr (RpcServer.object_of_createEntry hcreate)
    | dirEntries _ | data _ | writeResult _ _ | volumeInfo _ | empty => exact .inl ⟨_, rfl⟩
  · exact ⟨{ w with net := t' }, kind, rfl, ht', .inl ⟨_, bind_of_error hsend⟩⟩

/-- The empty answer fits in a frame. -/
theorem fits_empty : (Message.result (.ok .empty)).Fits := by decide

/-- `rename` moves the entry and rewrites the path of its handle, or does neither. -/
theorem rename_connected (fs : RpcFsContext Tree Buf) (srv : RpcServer) (os : Os)
    (handle : Nat) (newFileName : List UInt16) (replace : Bool)
    (w : World Tree Buf) :
    let request : Request := .rename (w.contexts handle).path (ntPathToRelative newFileName) replace
    let w' := final ((fs.connected srv os).rename handle newFileName replace w)
    (srv.dispatch os request w.net = .ok .empty w'.net ∧
      (w'.contexts handle).path = ntPathToRelative newFileName ∧
      ∀ k, k ≠ handle → (w'.contexts k).path = (w.contexts k).path) ∨
    (w'.net = w.net ∨ ∃ e, srv.dispatch os request w.net = .error e w'.net) ∧
      w'.contexts = w.contexts := by
  intro request w'
  have hrun := (fs.connected srv os).rename_apply handle newFileName replace w
  -- a rename answers with `Empty`
  have hempty : ∀ response t', srv.dispatch os request w.net = .ok response t' →
      response = .empty := by
    intro response t' hd
    obtain ⟨_, _, _, hpure⟩ := bind_eq_ok.mp hd
    cases hpure
    rfl
  rcases sendDirect_connected fs srv os request w with
    ⟨response, t', -, hd, hsend⟩ | ⟨e, t', ht', hsend⟩
  · obtain rfl := hempty response t' hd
    -- the entry was moved, and the path of the handle rewritten
    have hfinal : w' = ({ w with net := t' } : World Tree Buf).setContext handle
        { w.contexts handle with path := ntPathToRelative newFileName } := by
      show final ((fs.connected srv os).rename handle newFileName replace w) = _
      rw [hrun, bind_of_ok hsend]
      rfl
    rw [hfinal]
    refine .inl ⟨hd, ?_, fun k hk => ?_⟩
    · rw [World.contexts_setContext_self]
    · rw [World.contexts_setContext_of_ne hk]
  · -- no answer came back, and the handle keeps its path
    have hfinal : w' = { w with net := t' } := by
      show final ((fs.connected srv os).rename handle newFileName replace w) = _
      rw [hrun, bind_of_error hsend]
      rfl
    rw [hfinal]
    refine .inr ⟨?_, rfl⟩
    rcases ht' with rfl | rfl
    · exact .inl rfl
    · cases hd : srv.dispatch os request w.net with
      | error error t'' => exact .inr ⟨error, rfl⟩
      | ok response t'' =>
        -- the answer fits in a frame, so the request did not
        obtain rfl := hempty response t'' hd
        by_cases hreq : (Message.request request).Fits
        · rw [sendDirect_of_fits hreq hd fits_empty] at hsend
          cases hsend
        · obtain ⟨stop, hstop⟩ := sendDirect_of_not_fits fs srv os w hreq
          rw [hstop] at hsend
          injection hsend with _ hw
          have hnet := (congrArg World.net hw).symm
          rw [hd] at hnet
          exact .inl hnet

end RpcFsContext

namespace RpcFsContext

variable {fs : RpcFsContext Tree Buf} {srv : RpcServer} {os : Os}

/-- `set_delete` sends at most a `CanDelete`, which changes nothing. -/
theorem setDelete_connected (fs : RpcFsContext Tree Buf) (srv : RpcServer) (os : Os)
    (handle : Nat) (deleteFile : Bool) (w : World Tree Buf) :
    (final ((fs.connected srv os).setDelete handle deleteFile w)).net = w.net ∧
      ∀ k, ((final ((fs.connected srv os).setDelete handle deleteFile w)).contexts k).path
        = (w.contexts k).path := by
  constructor
  · cases deleteFile with
    | false => rfl
    | true =>
      have hrun := (fs.connected srv os).setDelete_apply handle w
      generalize hrequest : Request.canDelete (w.contexts handle).path (w.contexts handle).kind
        = request at hrun
      have hquiet : final (srv.dispatch os request w.net) = w.net := by
        rw [← hrequest]
        exact (final_then _ _ _).trans (RpcServer.quiet_canDelete _ _)
      have hnet := net_sendDirect fs srv os request w
      rw [hquiet, ite_self] at hnet
      -- storing the flag is no matter of the tree
      rw [hrun, bind_apply]
      cases hsend : (fs.connected srv os).sendDirect request w with
      | ok response w₁ =>
        rw [hsend] at hnet
        exact hnet
      | error stop w₁ =>
        rw [hsend] at hnet
        exact hnet
  · intro k
    rw [setDelete_contexts]
    split
    · by_cases hk : k = handle
      · rw [hk, World.contexts_setContext_self]
      · rw [World.contexts_setContext_of_ne hk]
    · rfl

/-- `cleanup` sends the deletion if there is one to make. -/
theorem cleanup_connected (fs : RpcFsContext Tree Buf) (srv : RpcServer) (os : Os)
    (handle : Nat) (flags : UInt32) (w : World Tree Buf) :
    (final ((fs.connected srv os).cleanup handle flags w)).contexts = w.contexts ∧
      ((final ((fs.connected srv os).cleanup handle flags w)).net = w.net ∨
        shouldDelete (w.contexts handle) flags = true ∧
          (final ((fs.connected srv os).cleanup handle flags w)).net
            = final (srv.dispatch os (removeRequest (w.contexts handle)) w.net)) := by
  refine ⟨(fs.connected srv os).cleanup_contexts handle flags w, ?_⟩
  unfold cleanup
  split
  · rename_i hshould
    -- the deletion is dispatched, whatever its outcome
    have hnet := net_sendDirect fs srv os (removeRequest (w.contexts handle)) w
    by_cases hfits : (Message.request (removeRequest (w.contexts handle))).Fits
    · rw [if_pos hfits] at hnet
      exact .inr ⟨hshould, hnet⟩
    · -- a request that does not fit in a frame is not sent
      rw [if_neg hfits] at hnet
      exact .inl hnet
  · exact .inl rfl

/-- The removal of a cleanup brings back no object. -/
theorem descends_removeRequest (context : RpcFileContext Buf) (t : Tree) :
    Descends t (final (srv.dispatch os (removeRequest context) t)) := by
  unfold removeRequest
  cases context.kind with
  | file =>
    show Descends t (final ((do srv.removeFile os context.path; return Response.empty) t))
    rw [final_then]
    exact RpcServer.descends_removeFile
  | directory =>
    show Descends t (final ((do srv.removeDir os context.path; return Response.empty) t))
    rw [final_then]
    exact RpcServer.descends_removeDir

end RpcFsContext

/-! ### What holds along a run -/

namespace Session

variable {fs : RpcFsContext Tree Buf} {srv : RpcServer} {os : Os} {s s' : Session Buf}

/-- Every open handle has an object that was there once, and leads to it while it exists. -/
structure Intact (srv : RpcServer) (s : Session Buf) : Prop where
  known    : ∀ handle i, s.objects handle = some i → i < s.tree.next
  identity : s.Identity srv

/-- A step that opens no handle, and after which the handles whose objects are left lead to
    them. -/
theorem Intact.step (h : s.Intact srv) (hdesc : Descends s.tree s'.tree)
    (hopen : ∀ k i, s'.objects k = some i → s.objects k = some i)
    (hkeep : ∀ k, ∀ e ∈ s.tree.entries, s'.objects k = some e.ino → s'.tree.Has e.ino →
      srv.object s.tree (s.path k) = some e.ino → srv.object s'.tree (s'.path k) = some e.ino) :
    s'.Intact srv where
  known k i hk := Nat.lt_of_lt_of_le (h.known k i (hopen k i hk)) hdesc.next_le
  identity k i hk hhas := by
    have hk' := hopen k i hk
    obtain ⟨e, he, rfl⟩ := hdesc.has i (h.known k i hk') hhas
    exact hkeep k e he hk hhas (h.identity k e.ino hk' (Tree.has_of_mem he))

/-- Opening a free handle. -/
theorem Intact.opened {handle : Nat} {path : String} {w : World Tree Buf}
    {r : EStateM.Result Stop (World Tree Buf) (RpcFileContext Buf × FileInfo)}
    (hafter : (s.after w).Intact srv) (hopens : fs.OpensAt srv path w r) :
    (s.opened srv handle r).Intact srv := by
  rcases hopens with ⟨stop, rfl⟩ | ⟨⟨kind, fileInfo, rfl⟩, -⟩
  · exact hafter
  · have hobjects : ∀ k, (s.opened srv handle (.ok (fs.newContext path kind, fileInfo) w)).objects k
        = if k = handle then srv.object w.net path else s.objects k := fun _ => rfl
    -- the handle that was opened gets the object at its path; the others keep theirs
    refine ⟨fun k i hk => ?_, fun k i hk hhas => ?_⟩
    · rw [hobjects] at hk
      split at hk
      · obtain ⟨p, q, e, -, he, rfl⟩ := RpcServer.object_eq_some_iff.mp hk
        exact w.net.inos_lt e (Tree.mem_of_look he)
      · exact hafter.known k i hk
    · rw [hobjects] at hk
      have hpath : (s.opened srv handle (.ok (fs.newContext path kind, fileInfo) w)).path k
          = if k = handle then path else (s.after w).path k := by
        show ((w.setContext handle (fs.newContext path kind)).contexts k).path = _
        split
        · rename_i heq
          rw [heq, World.contexts_setContext_self]
          rfl
        · rename_i hne
          rw [World.contexts_setContext_of_ne hne]
          rfl
      rw [hpath]
      split at hk
      · rename_i heq
        rw [if_pos heq]
        exact hk
      · rename_i hne
        rw [if_neg hne]
        exact hafter.identity k i hk hhas

/-- A request that takes nothing from any handle's path. -/
theorem kept_of_spares {request : Request} {t t' : Tree} {relative : String} {i : Nat}
    (ht : t' = t ∨ t' = final (srv.dispatch os request t))
    (hspares : srv.Spares os t request relative) (h : srv.object t relative = some i) :
    srv.object t' relative = some i := by
  rcases ht with rfl | rfl
  · exact h
  · exact RpcServer.object_of_untouched h hspares

/-- A request that removes the object of a handle or takes nothing from its path. -/
theorem kept_of_drops_or_spares {request : Request} {t t' : Tree} {relative : String} {e : Entry}
    (ht : t' = t ∨ t' = final (srv.dispatch os request t)) (he : e ∈ t.entries)
    (hallow : srv.Drops t request e.loc ∨ srv.Spares os t request relative) (hhas : t'.Has e.ino)
    (h : srv.object t relative = some e.ino) : srv.object t' relative = some e.ino := by
  rcases hallow with ⟨v, hv, hpre⟩ | hspares
  · rcases ht with rfl | rfl
    · exact h
    · exact absurd hhas (RpcServer.not_has_of_removes hv he hpre)
  · exact kept_of_spares ht hspares h

/-- `open` keeps the handles on their objects. -/
theorem intact_openFile (h : s.Intact srv) (handle : Nat) (fileName : List UInt16) :
    (s.call fs srv os (.openFile handle fileName)).Intact srv := by
  unfold call
  dsimp only
  split
  · obtain ⟨w, hctx, hnet, hopens⟩ := RpcFsContext.openFile_connected fs srv os fileName s.world
    refine Intact.opened ?_ hopens
    have htree : (s.after w).tree = s.tree := hnet
    have hpath : ∀ k, (s.after w).path k = s.path k := fun k =>
      congrArg RpcFileContext.path (congrFun hctx k)
    refine h.step (by rw [htree]; exact .refl _) (fun k i hk => hk) fun k e _ _ _ hobj => ?_
    rw [htree, hpath]
    exact hobj
  · exact h

/-- `create` keeps the handles on their objects. -/
theorem intact_create (h : s.Intact srv) (handle : Nat) (fileName : List UInt16)
    (createOptions fileAttributes : UInt32) (allocationSize : UInt64) :
    (s.call fs srv os (.create handle fileName createOptions fileAttributes
      allocationSize)).Intact srv := by
  unfold call
  dsimp only
  split
  · obtain ⟨w, kind, hctx, hnet, hopens⟩ := RpcFsContext.create_connected fs srv os
      fileName createOptions fileAttributes allocationSize s.world
    refine Intact.opened ?_ hopens
    have hpath : ∀ k, (s.after w).path k = s.path k := fun k =>
      congrArg RpcFileContext.path (congrFun hctx k)
    have hdesc : Descends s.tree (s.after w).tree := by
      rcases hnet with hnet | hnet
      · rw [show (s.after w).tree = s.tree from hnet]
        exact .refl _
      · rw [show (s.after w).tree = _ from hnet]
        exact Respects.map (RpcServer.descends_createEntry kind)
    refine h.step hdesc (fun k i hk => hk) fun k e _ _ _ hobj => ?_
    rw [hpath]
    exact kept_of_spares hnet (fun v _ htakes => htakes.elim id id) hobj
  · exact h

/-- `set_delete` keeps the handles on their objects. -/
theorem intact_setDelete (h : s.Intact srv) (handle : Nat) (deleteFile : Bool) :
    (s.call fs srv os (.setDelete handle deleteFile)).Intact srv := by
  unfold call
  dsimp only
  split
  · exact h
  · obtain ⟨hnet, hpath⟩ := RpcFsContext.setDelete_connected fs srv os
      handle deleteFile s.world
    generalize final ((fs.connected srv os).setDelete handle deleteFile s.world) = w at hnet hpath
    have htree : (s.after w).tree = s.tree := hnet
    refine h.step (by rw [htree]; exact .refl _) (fun k i hk => hk) fun k e _ _ _ hobj => ?_
    rw [htree, show (s.after w).path k = s.path k from hpath k]
    exact hobj

/-- A harmless `cleanup` keeps the handles on their objects. -/
theorem intact_cleanup (h : s.Intact srv) {handle : Nat} {flags : UInt32}
    (hharmless : s.Harmless srv os (.cleanup handle flags)) :
    (s.call fs srv os (.cleanup handle flags)).Intact srv := by
  unfold call
  dsimp only
  split
  · exact h
  · rename_i hopen
    obtain ⟨hctx, hnet⟩ := RpcFsContext.cleanup_connected fs srv os
      handle flags s.world
    generalize final ((fs.connected srv os).cleanup handle flags s.world) = w at hctx hnet
    have hpath : ∀ k, (s.after w).path k = s.path k := fun k =>
      congrArg RpcFileContext.path (congrFun hctx k)
    generalize hrequest : RpcFsContext.removeRequest (s.world.contexts handle) = request at hnet
    have hdesc : Descends s.tree (s.after w).tree := by
      rcases hnet with hnet | ⟨-, hnet⟩
      · rw [show (s.after w).tree = s.tree from hnet]
        exact .refl _
      · rw [show (s.after w).tree = _ from hnet, ← hrequest]
        exact RpcFsContext.descends_removeRequest _ _
    refine h.step hdesc (fun k i hk => hk) fun k e he hk hhas hobj => ?_
    rw [hpath]
    rcases hnet with hnet | ⟨hshould, hnet⟩
    · rw [show (s.after w).tree = s.tree from hnet]
      exact hobj
    · -- the deletion was dispatched: it drops the object or spares the path
      have hallow := hharmless hopen hshould k e he hk
      rw [hrequest] at hallow
      exact kept_of_drops_or_spares (.inr hnet) he hallow hhas hobj

/-- `close` keeps the handles on their objects. -/
theorem intact_close (h : s.Intact srv) (handle : Nat) :
    (s.call fs srv os (.close handle)).Intact srv := by
  have hopen : ∀ k i, (s.call fs srv os (.close handle)).objects k = some i →
      s.objects k = some i := by
    intro k i hk
    change (if k = handle then none else s.objects k) = some i at hk
    split at hk
    · cases hk
    · exact hk
  exact h.step (.refl _) hopen fun k e _ _ _ hobj => hobj

/-- A dispatched rename that succeeds went as planned. -/
theorem succeeds_of_dispatch {from_ to_ : String} {replace : Bool} {t t' : Tree}
    (hd : srv.dispatch os (.rename from_ to_ replace) t = .ok .empty t') :
    srv.Succeeds os t from_ to_ replace ∧
      t' = final (srv.rename os from_ to_ replace t) := by
  obtain ⟨u, t₁, hrename, hpure⟩ := bind_eq_ok.mp hd
  cases hpure
  refine ⟨?_, by rw [hrename]; rfl⟩
  cases srv.renames os t from_ to_ replace with
  | refused h =>
    rw [hrename] at h
    cases h
  | cleared _ _ _ _ h =>
    rw [hrename] at h
    cases h
  | emptied _ _ _ _ h =>
    rw [hrename] at h
    cases h
  | planned hplans => exact ⟨_, _, _, _, _, hplans⟩

/-- After a rename that succeeded. -/
theorem Intact.renamed (h : s.Intact srv) {handle : Nat} {newPath : String} {replace : Bool}
    {w : World Tree Buf}
    (hallow : ∀ other, ∀ e ∈ s.tree.entries, s.objects other = some e.ino →
      s.AllowsRename srv os handle newPath replace other e)
    (hd : srv.dispatch os (.rename (s.path handle) newPath replace) s.tree = .ok .empty w.net)
    (hself : (w.contexts handle).path = newPath)
    (hother : ∀ k, k ≠ handle → (w.contexts k).path = s.path k) : (s.after w).Intact srv := by
  obtain ⟨hsucceeds, hnet⟩ := succeeds_of_dispatch hd
  have hdispatch : w.net = final (srv.dispatch os (.rename (s.path handle) newPath replace)
      s.tree) := by rw [hd]; rfl
  have hdesc : Descends s.tree (s.after w).tree := by
    show Descends s.tree w.net
    rw [hnet]
    exact RpcServer.descends_rename
  refine h.step hdesc (fun k i hk => hk) fun k e he hk hhas hobj => ?_
  show srv.object w.net (w.contexts k).path = some e.ino
  rcases hallow k e he hk with ⟨v, hv, hpre⟩ | hallow'
  · -- the object was removed
    refine absurd hhas ?_
    show ¬ w.net.Has e.ino
    rw [hdispatch]
    exact RpcServer.not_has_of_removes hv he hpre
  · split at hallow'
    · rename_i heq
      subst heq
      -- the handle that is renamed follows its object
      obtain ⟨path, q, e', hex, he', hino⟩ := RpcServer.object_eq_some_iff.mp hobj
      obtain rfl := s.tree.eq_of_ino_eq (Tree.mem_of_look he') he hino
      have hfollows := hallow'.1 hsucceeds
      rw [Tree.look_loc he'] at hfollows
      rw [hself, hnet]
      exact RpcServer.object_of_follows hex he' hfollows
    · rename_i hne
      -- the other handles are not touched by the rename
      rw [hother k hne, hdispatch]
      exact RpcServer.object_of_untouched hobj hallow'

/-- After a rename that failed. -/
theorem Intact.not_renamed (h : s.Intact srv) {handle : Nat} {newPath : String} {replace : Bool}
    {w : World Tree Buf}
    (hallow : ∀ other, ∀ e ∈ s.tree.entries, s.objects other = some e.ino →
      s.AllowsRename srv os handle newPath replace other e)
    (hnet : w.net = s.tree ∨ ∃ e,
      srv.dispatch os (.rename (s.path handle) newPath replace) s.tree = .error e w.net)
    (hctx : w.contexts = s.world.contexts) : (s.after w).Intact srv := by
  have hpath : ∀ k, (s.after w).path k = s.path k := fun k =>
    congrArg RpcFileContext.path (congrFun hctx k)
  rcases hnet with hnet | ⟨error, hd⟩
  · -- the request did not reach the server
    have htree : (s.after w).tree = s.tree := hnet
    refine h.step (by rw [htree]; exact .refl _) (fun k i hk => hk) fun k e _ _ _ hobj => ?_
    rw [htree, hpath]
    exact hobj
  · have hdispatch : w.net = final (srv.dispatch os (.rename (s.path handle) newPath replace)
        s.tree) := by rw [hd]; rfl
    have hdesc : Descends s.tree (s.after w).tree := by
      show Descends s.tree w.net
      rw [hdispatch]
      show Descends s.tree (final ((do
        srv.rename os (s.path handle) newPath replace; return Response.empty) s.tree))
      rw [final_then]
      exact RpcServer.descends_rename
    -- it was dispatched and failed, so the target at most was cleared
    have hfails : ¬ srv.Succeeds os s.tree (s.path handle) newPath replace := by
      rintro ⟨fp, tp, t₁, src, dst, hplans⟩
      have hok := bind_of_ok (f := fun _ => (return Response.empty : ServerM Response)) hplans.run
      rw [show srv.dispatch os (.rename (s.path handle) newPath replace) s.tree = _ from hok] at hd
      cases hd
    refine h.step hdesc (fun k i hk => hk) fun k e he hk hhas hobj => ?_
    rw [hpath]
    refine kept_of_drops_or_spares (.inr hdispatch) he ?_ hhas hobj
    refine (hallow k e he hk).imp id fun hallow' => ?_
    split at hallow'
    · rename_i heq
      subst heq
      exact hallow'.2 hfails
    · exact hallow'

/-- A harmless `rename` keeps the handles on their objects. -/
theorem intact_rename (h : s.Intact srv) {handle : Nat} {newFileName : List UInt16} {replace : Bool}
    (hharmless : s.Harmless srv os (.rename handle newFileName replace)) :
    (s.call fs srv os (.rename handle newFileName replace)).Intact srv := by
  unfold call
  dsimp only
  split
  · exact h
  · rename_i hopen
    have hallow := hharmless hopen
    have hrename := RpcFsContext.rename_connected fs srv os handle
      newFileName replace s.world
    generalize final ((fs.connected srv os).rename handle newFileName replace s.world) = w
      at hrename
    rcases hrename with ⟨hd, hself, hother⟩ | ⟨hnet, hctx⟩
    · exact h.renamed hallow hd hself hother
    · exact h.not_renamed hallow hnet hctx

/-- One call that is harmless where it is made. -/
def HarmlessStep (fs : RpcFsContext Tree Buf) (srv : RpcServer) (s s' : Session Buf) : Prop :=
  ∃ os call, s.Harmless srv os call ∧ s.call fs srv os call = s'

/-- Every harmless call keeps the handles on their objects. -/
theorem intact_call (h : s.Intact srv) {call : HandleCall} (hharmless : s.Harmless srv os call) :
    (s.call fs srv os call).Intact srv := by
  cases call with
  | openFile handle fileName => exact intact_openFile h handle fileName
  | create handle fileName createOptions fileAttributes allocationSize =>
    exact intact_create h handle fileName createOptions fileAttributes allocationSize
  | rename handle newFileName replace => exact intact_rename h hharmless
  | setDelete handle deleteFile => exact intact_setDelete h handle deleteFile
  | cleanup handle flags => exact intact_cleanup h hharmless
  | close handle => exact intact_close h handle

/-- What is done through a handle is done to its object: nothing else is changed or read, and
    a deletion removes the object or a link that leads to it. -/
def ActsOnOwn (srv : RpcServer) (s : Session Buf) : Prop :=
  ∀ handle, ∀ e ∈ s.tree.entries, s.objects handle = some e.ino →
    (∀ os request, RpcServer.actsOn request = some (s.path handle) →
      SameBut e.loc s.tree (final (srv.dispatch os request s.tree))) ∧
    (∀ os offset length bytes t',
      srv.dispatch os (.read (s.path handle) offset length) s.tree = .ok (.data bytes) t' →
      ∃ content, e.body = .file content ∧
        bytes = (content.drop offset.toNat).take length.toNat) ∧
    ∀ v, srv.Removes s.tree v (RpcFsContext.removeRequest (s.world.contexts handle)) →
      v = e.loc ∨ ∃ tgt, s.tree.shape v = some (.symlink tgt)

/-- A handle that leads to its object acts on it. -/
theorem Identity.actsOnOwn (h : s.Identity srv) : s.ActsOnOwn srv := by
  intro handle e he hopen
  obtain ⟨path, q, e', hex, he', hino⟩ :=
    RpcServer.object_eq_some_iff.mp (h handle e.ino hopen (Tree.has_of_mem he))
  obtain rfl := s.tree.eq_of_ino_eq (Tree.mem_of_look he') he hino
  obtain rfl := Tree.look_loc he'
  refine ⟨fun os request hrequest => ?_, fun os offset length bytes t' hread => ?_, fun v hv => ?_⟩
  · -- a change
    refine RpcServer.sameBut_dispatch (fun path' q' hex' => ?_) hrequest
    exact (hex'.unique hex).2
  · -- a read
    obtain ⟨bytes', hrun, hbytes⟩ := map_eq_ok.mp hread
    cases hbytes
    obtain ⟨path', q', content, hex', hdata, hbytes, -⟩ := RpcServer.readFile_eq_ok hrun
    obtain ⟨-, rfl⟩ := hex'.unique hex
    obtain ⟨e₂, he₂, hbody⟩ := dataAt_eq_some_iff.mp hdata
    rw [he'] at he₂
    cases he₂
    exact ⟨content, hbody, hbytes⟩
  · -- the deletion
    refine RpcServer.object_or_link_of_removes hex ?_ hv
    unfold RpcFsContext.removeRequest
    cases (s.world.contexts handle).kind with
    | file => exact .inl rfl
    | directory => exact .inr rfl

/-- **Handles keep their objects** in every run of harmless calls that begins without open
    handles. -/
theorem identity_of_reaches (fs : RpcFsContext Tree Buf) (srv : RpcServer) (s s' : Session Buf)
    (hstart : ∀ handle, s.objects handle = none)
    (hrun : Relation.ReflTransGen (HarmlessStep fs srv) s s') :
    s'.Identity srv ∧ s'.ActsOnOwn srv := by
  suffices hintact : s'.Intact srv from ⟨hintact.identity, hintact.identity.actsOnOwn⟩
  induction hrun with
  | refl =>
    refine ⟨fun k i hk => ?_, fun k i hk => ?_⟩
    · rw [hstart k] at hk
      cases hk
    · rw [hstart k] at hk
      cases hk
  | tail _ hstep ih =>
    obtain ⟨os, call, hharmless, rfl⟩ := hstep
    exact intact_call ih hharmless

/-- Make calls one after another. -/
def calls (fs : RpcFsContext Tree Buf) (srv : RpcServer) (s : Session Buf) :
    List (Os × HandleCall) → Session Buf
  | []                => s
  | (os, call) :: rest => calls fs srv (s.call fs srv os call) rest

/-! ### One file, two handles -/

/-- No handle is open yet. -/
def start : Session Unit where
  world := ⟨treeWithFile, {}, fun _ => plainFs.newContext "" .file⟩
  objects _ := none

/-- Open `f` through handle 0. -/
def openF (handle : Nat) : Os × HandleCall := (.atTime ⟨1, 0⟩, .openFile handle [92, 102])

/-- Rename what handle 0 is open on to `g`. -/
def renameToG : Os × HandleCall := (.atTime ⟨2, 0⟩, .rename 0 [92, 103] false)

/-- `f` is renamed to `g` in the exported `/r`. -/
theorem plans_f_g (os : Os) : RpcServer.serverAtR.Plans os treeWithFile "f" "g" false
    ⟨["r", "f"].map Utf8.encode, false⟩ ⟨["r", "g"].map Utf8.encode, false⟩ treeWithFile
    (["r", "f"].map Utf8.encode) (["r", "g"].map Utf8.encode) where
  existing := ⟨["r", "f"].map Utf8.encode, ⟨["f"].map Utf8.encode, by decide, rfl⟩, by decide,
    by decide, by decide⟩
  forNew := ⟨["r"].map Utf8.encode, ⟨["g"].map Utf8.encode, by decide, rfl⟩, by decide,
    by decide, by decide⟩
  nul := by decide
  cleared := .kept (by
    rintro ⟨q, hl⟩
    have hgone : resolve treeWithFile ⟨["r", "g"].map Utf8.encode, false⟩ = .error .ENOENT := by
      decide
    have hres := hl.2
    rw [hgone] at hres
    cases hres)
  plan := by decide

/-- The handle can be followed from `f` to `g`. -/
theorem follows_f_g (os : Os) : RpcServer.serverAtR.Follows os treeWithFile "f" "g" false
    (["r", "f"].map Utf8.encode) := by
  have hnames : Names treeWithFile ⟨["r", "g"].map Utf8.encode, false⟩ [Utf8.encode "r"]
      (Utf8.encode "g") :=
    ⟨by decide, ⟨40, by decide⟩, by decide⟩
  refine ⟨_, _, _, _, [Utf8.encode "r"], Utf8.encode "g", .file, _, _, plans_f_g os, by decide,
    .entry hnames (.inr ⟨rfl, rfl⟩), by decide, ?_⟩
  rintro ⟨tgt, htgt⟩
  cases htgt

/-- The only handle may rename its file. -/
theorem harmless_renameToG (os : Os) :
    (start.calls plainFs .serverAtR [openF 0]).Harmless .serverAtR os
    (.rename 0 [92, 103] false) := by
  intro _ other e he hobj
  have hother : other = 0 := by
    by_contra hne
    change (if other = 0 then _ else none) = some e.ino at hobj
    rw [if_neg hne] at hobj
    cases hobj
  subst hother
  have hino : e.ino = 2 := by
    change some 2 = some e.ino at hobj
    exact (Option.some.inj hobj).symm
  have hall : ∀ e ∈ treeWithFile.entries, e.ino = 2 → e.loc = ["r", "f"].map Utf8.encode := by
    decide
  have hloc := hall e he hino
  refine .inr ?_
  rw [if_pos rfl, hloc]
  exact ⟨fun _ => follows_f_g _, fun hno => absurd ⟨_, _, _, _, _, plans_f_g _⟩ hno⟩

/-- The handle keeps its object when it is renamed. -/
theorem identity_of_reaches_rename :
    (start.calls plainFs .serverAtR [openF 0, renameToG]).Identity .serverAtR := by
  have hopen : HarmlessStep plainFs .serverAtR start (start.calls plainFs .serverAtR [openF 0]) :=
    ⟨_, .openFile 0 [92, 102], trivial, rfl⟩
  have hrename : HarmlessStep plainFs .serverAtR (start.calls plainFs .serverAtR [openF 0])
      (start.calls plainFs .serverAtR [openF 0, renameToG]) :=
    ⟨_, .rename 0 [92, 103] false, harmless_renameToG _, rfl⟩
  exact (identity_of_reaches plainFs .serverAtR start _ (fun _ => rfl)
    (.tail (.single hopen) hrename)).1

/-- Two handles are open on `f`; it is renamed to `g` through the first, and a new `f` is
    created.  The second handle now leads to the new file. -/
theorem renamed_apart :
    (∀ handle, start.objects handle = none) ∧
      ¬ (start.calls plainFs .serverAtR [openF 0, openF 1, renameToG,
        (.atTime ⟨3, 0⟩, .create 2 [92, 102] 0 0 0)]).Identity .serverAtR := by
  refine ⟨fun _ => rfl, fun h => ?_⟩
  have hlost := h 1 2 (by decide) (by decide)
  revert hlost
  decide

end Session

end Netfilum
