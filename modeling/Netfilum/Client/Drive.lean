import Netfilum.Client.Link
import Netfilum.Lib.Drive
import Netfilum.Server.Refines

namespace Netfilum

open FileTree Posix Program Rust

/-!
# The mounted drive

The client and the server together, where the exported directory holds only files and
directories: what the programs on Windows see is a drive of files and directories, used through
handles.

* `Desk` — the client, the tree of the server, and which handles are open.
* `DriveCall` — the callbacks;  `DriveCall.op` — the operation on a drive that each stands for.
* `Told` — what a callback returns tells how its operation is answered.
* `Presents` — the drive that the tree and the handles stand for.
-/

variable {Buf : Type}

/-! ### The callbacks -/

/-- The client with the tree of the server, and its handles, which are numbered in the order in
    which they are opened. -/
structure Desk (Buf : Type) where
  world  : World Tree Buf
  isOpen : Nat → Bool
  next   : Nat

/-- A callback of WinFsp, or the end of a handle.  The volume has no reparse points that WinFsp
    could resolve. -/
inductive DriveCall where
  | getSecurityByName (fileName : List UInt16) (securityDescriptor : Option (List UInt8))
  | openFile (fileName : List UInt16)
  | create (fileName : List UInt16) (createOptions fileAttributes : UInt32)
      (allocationSize : UInt64)
  | cleanup (handle : Nat) (flags : UInt32)
  | close (handle : Nat)
  | flush (handle : Nat)
  | flushVolume
  | getFileInfo (handle : Nat)
  | readDirectory (handle : Nat) (marker : Option (List UInt16)) (buffer : List UInt8)
  | rename (handle : Nat) (newFileName : List UInt16) (replaceIfExists : Bool)
  | setBasicInfo (handle : Nat) (fileAttributes : UInt32)
      (creationTime lastAccessTime lastWriteTime changeTime : UInt64)
  | setDelete (handle : Nat) (deleteFile : Bool)
  | setFileSize (handle : Nat) (newSize : UInt64) (setAllocationSize : Bool)
  | read (handle : Nat) (buffer : List UInt8) (offset : UInt64)
  | write (handle : Nat) (buffer : List UInt8) (offset : UInt64) (writeToEof constrainedIo : Bool)
  | getVolumeInfo

/-- What a callback returns. -/
inductive Value where
  | security (security : FileSecurity) (descriptor : Option (List UInt8))
  | info (info : FileInfo)
  | listing (buffer : List UInt8) (count : UInt32)
  | bytes (buffer : List UInt8) (count : UInt32)
  | written (count : UInt32) (info : Option FileInfo)
  | volume (info : VolumeInfo)
  | done

/-- A callback that opens no handle. -/
def inside {α : Type} (x : ClientM Tree Buf α) : EStateM Stop (Desk Buf) α := fun desk =>
  match x desk.world with
  | .ok a w        => .ok a { desk with world := w }
  | .error stop w  => .error stop { desk with world := w }

/-- A context is given to WinFsp, as a new handle. -/
def install (context : RpcFileContext Buf) : EStateM Stop (Desk Buf) Unit := fun desk =>
  .ok () {
    world  := desk.world.setContext desk.next context
    isOpen := Function.update desk.isOpen desk.next true
    next   := desk.next + 1 }

/-- A handle is closed. -/
def closeHandle (handle : Nat) : EStateM Stop (Desk Buf) Unit := fun desk =>
  .ok () { desk with isOpen := Function.update desk.isOpen handle false }

namespace RpcFsContext

/-- What `read_directory` does with the attributes and the entries. -/
def presentEntries (fs : RpcFsContext Tree Buf) (handle : Nat) (marker : Option (List UInt16))
    (buffer : List UInt8) (attr : FileAttr) (entries : List DirEntry) :
    ClientM Tree Buf (List UInt8 × UInt32) := do
  fs.fillDirBuffer handle marker.isNone attr entries
  fun w => .ok (fs.dirBuffers.read (w.contexts handle).dirBuffer marker buffer) w

/-- It changes nothing but the buffer of the handle. -/
theorem final_presentEntries (fs : RpcFsContext Tree Buf) (handle : Nat)
    (marker : Option (List UInt16)) (buffer : List UInt8) (attr : FileAttr)
    (entries : List DirEntry) (w : World Tree Buf) :
    final (fs.presentEntries handle marker buffer attr entries w) = w ∨
      ∃ dirBuffer, final (fs.presentEntries handle marker buffer attr entries w)
        = w.setContext handle { w.contexts handle with dirBuffer } := by
  have hfinal : final (fs.presentEntries handle marker buffer attr entries w)
      = final (fs.fillDirBuffer handle marker.isNone attr entries w) := by
    cases hfill : fs.fillDirBuffer handle marker.isNone attr entries w with
    | ok u w' => rw [show fs.presentEntries handle marker buffer attr entries w = _ from
        bind_of_ok hfill]; rfl
    | error stop w' => rw [show fs.presentEntries handle marker buffer attr entries w = _ from
        bind_of_error hfill]; rfl
  rw [hfinal]
  unfold fillDirBuffer
  dsimp only
  split
  · exact .inl rfl
  · split
    · exact .inr ⟨_, rfl⟩
    · exact .inr ⟨_, rfl⟩

/-- The buffer of a directory is filled without the transport. -/
theorem writeDirEntries_connected (fs : RpcFsContext Tree Buf) (srv : RpcServer) (os : Os)
    (entries : List DirEntry) :
    (fs.connected srv os).writeDirEntries entries = fs.writeDirEntries entries := by
  induction entries with
  | nil => rfl
  | cons entry rest ih =>
    unfold writeDirEntries
    rw [ih]
    rfl

/-- The buffers are the same over any transport. -/
theorem presentEntries_connected (fs : RpcFsContext Tree Buf) (srv : RpcServer) (os : Os)
    (handle : Nat) (marker : Option (List UInt16)) (buffer : List UInt8) (attr : FileAttr)
    (entries : List DirEntry) :
    (fs.connected srv os).presentEntries handle marker buffer attr entries
      = fs.presentEntries handle marker buffer attr entries := by
  unfold presentEntries fillDirBuffer
  rw [writeDirEntries_connected]
  rfl

variable (fs : RpcFsContext Tree Buf) {request : Request} {w : World Tree Buf}

/-- An answer is passed on. -/
theorem sendRequest_of_ok {response : Response} {net : Tree}
    (h : send fs.exchange request w.net = .ok response net) :
    fs.sendRequest request w = .ok response { w with net } := by
  unfold sendRequest
  rw [h]

/-- An error of the transport is passed on, after it was looked at. -/
theorem sendRequest_of_error {e : IoError} {net : Tree}
    (h : send fs.exchange request w.net = .error e net) :
    fs.sendRequest request w
      = .error (.err (.io e)) { w with net, mountState := mapRpcError e w.mountState } := by
  unfold sendRequest
  rw [h]

end RpcFsContext

namespace DriveCall

/-- Make the call. -/
def run (fs : RpcFsContext Tree Buf) : DriveCall → EStateM Stop (Desk Buf) Value
  | .getSecurityByName fileName securityDescriptor => do
    let result ← inside (fs.getSecurityByName fileName securityDescriptor none)
    return .security result.1 result.2
  | .openFile fileName => do
    let opened ← inside (fs.openFile fileName)
    install opened.1
    return .info opened.2
  | .create fileName createOptions fileAttributes allocationSize => do
    let opened ← inside (fs.create fileName createOptions fileAttributes allocationSize)
    install opened.1
    return .info opened.2
  | .cleanup handle flags => do
    inside (fs.cleanup handle flags)
    return .done
  | .close handle => do
    closeHandle handle
    return .done
  | .flush handle => do
    let info ← inside (fs.flush (some handle))
    return (info.map .info).getD .done
  | .flushVolume => do
    let _ ← inside (fs.flush none)
    return .done
  | .getFileInfo handle => return .info (← inside (fs.getFileInfo handle))
  | .readDirectory handle marker buffer => do
    let listing ← inside (fs.readDirectory handle marker buffer)
    return .listing listing.1 listing.2
  | .rename handle newFileName replaceIfExists => do
    inside (fs.rename handle newFileName replaceIfExists)
    return .done
  | .setBasicInfo handle fileAttributes creationTime lastAccessTime lastWriteTime changeTime =>
    return .info (← inside (fs.setBasicInfo handle fileAttributes creationTime lastAccessTime
      lastWriteTime changeTime))
  | .setDelete handle deleteFile => do
    inside (fs.setDelete handle deleteFile)
    return .done
  | .setFileSize handle newSize setAllocationSize =>
    return .info (← inside (fs.setFileSize handle newSize setAllocationSize))
  | .read handle buffer offset => do
    let bytes ← inside (fs.read handle buffer offset)
    return .bytes bytes.1 bytes.2
  | .write handle buffer offset writeToEof constrainedIo => do
    let written ← inside (fs.write handle buffer offset writeToEof constrainedIo)
    return .written written.1 written.2
  | .getVolumeInfo => return .volume (← inside fs.getVolumeInfo)

/-- The handle that the call is made on. -/
def handle : DriveCall → Option Nat
  | .getSecurityByName .. | .openFile _ | .create .. | .flushVolume | .getVolumeInfo => none
  | .cleanup handle _ | .close handle | .flush handle | .getFileInfo handle => some handle
  | .readDirectory handle _ _ | .rename handle _ _ | .setBasicInfo handle .. => some handle
  | .setDelete handle _ | .setFileSize handle _ _ | .read handle _ _ => some handle
  | .write handle .. => some handle

/-- The operation on the names of a path. -/
def opOn (path : String) (f : List Name → Op Name UInt8) : Op Name UInt8 :=
  ((namesOf path).map f).getD (.ask .invalid)

/-- The operation on a path with these names. -/
theorem opOn_of_some {path : String} {p : List Name} {f : List Name → Op Name UInt8}
    (h : namesOf path = some p) : opOn path f = f p := by
  unfold opOn
  rw [h]
  rfl

/-- A path without names makes an invalid command. -/
theorem opOn_of_none {path : String} {f : List Name → Op Name UInt8} (h : namesOf path = none) :
    opOn path f = .ask .invalid := by
  unfold opOn
  rw [h]
  rfl

/-- The operation on a drive that the call stands for. -/
def op : DriveCall → Op Name UInt8
  | .getSecurityByName fileName _ => opOn (ntPathToRelative fileName) fun p => .ask (.look p)
  | .openFile fileName => opOn (ntPathToRelative fileName) .open
  | .create fileName createOptions _ _ => opOn (ntPathToRelative fileName) fun p =>
    .create p (if createOptions &&& fileDirectoryFileFlag ≠ 0 then .dir else .file)
  | .cleanup handle flags => .through handle (.cleanup (RpcFsContext.cleanupDelete flags))
  | .close handle => .through handle .close
  | .flush handle | .getFileInfo handle => .through handle .look
  -- the root is always there
  | .flushVolume => .ask (.check [])
  | .readDirectory handle _ _ => .through handle .list
  | .rename handle newFileName replaceIfExists => opOn (ntPathToRelative newFileName) fun dst =>
    .through handle (.rename dst replaceIfExists)
  | .setBasicInfo handle .. => .through handle .adjust
  | .setDelete handle deleteFile => .through handle (.setPending deleteFile)
  | .setFileSize handle newSize setAllocationSize =>
    .through handle (if setAllocationSize then .look else .resize newSize.toNat)
  | .read handle buffer offset => .through handle (.read offset.toNat buffer.length)
  | .write handle buffer offset writeToEof constrainedIo => .through handle
    (if constrainedIo then .overwrite offset.toNat writeToEof buffer
      else .write (offsetOf offset writeToEof) buffer)
  | .getVolumeInfo => .ask .report

/-- The requests that the call may send, to the server with this tree. -/
def Sends (srv : RpcServer) (w : World Tree Buf) (request : Request) : DriveCall → Prop
  | .getSecurityByName fileName _ | .openFile fileName =>
    request = .stat (ntPathToRelative fileName)
  | .create fileName createOptions fileAttributes allocationSize =>
    request = .create (ntPathToRelative fileName)
      (if createOptions &&& fileDirectoryFileFlag ≠ 0 then .directory else .file) fileAttributes
      allocationSize
  -- only where the file is to be deleted
  | .cleanup handle flags => RpcFsContext.shouldDelete (w.contexts handle) flags = true ∧
    request = RpcFsContext.removeRequest (w.contexts handle)
  | .close _ => False
  | .flush handle =>
    request = .flush (some (w.contexts handle).path) ∨ request = .stat (w.contexts handle).path
  | .flushVolume => request = .flush none
  | .getFileInfo handle => request = .stat (w.contexts handle).path
  | .readDirectory handle _ _ =>
    request = .stat (w.contexts handle).path ∨ request = .readDir (w.contexts handle).path
  | .rename handle newFileName replaceIfExists =>
    request = .rename (w.contexts handle).path (ntPathToRelative newFileName) replaceIfExists
  | .setBasicInfo handle fileAttributes creationTime lastAccessTime lastWriteTime changeTime =>
    request = .setBasicInfo (w.contexts handle).path {
      readonly       := readonlyUpdateFromAttributes fileAttributes
      creationTime   := wireTimeFromWindows creationTime
      lastAccessTime := wireTimeFromWindows lastAccessTime
      lastWriteTime  := wireTimeFromWindows lastWriteTime
      changeTime     := wireTimeFromWindows changeTime }
  | .setDelete handle _ =>
    request = .canDelete (w.contexts handle).path (w.contexts handle).kind
  | .setFileSize handle newSize setAllocationSize =>
    request = .setLen (w.contexts handle).path newSize setAllocationSize
  | .read handle buffer offset =>
    request = .read (w.contexts handle).path offset (UInt32.ofNat buffer.length)
  | .write handle buffer offset writeToEof false =>
    request = .write (w.contexts handle).path offset buffer writeToEof
  | .write handle buffer offset writeToEof true =>
    request = .stat (w.contexts handle).path ∨
      -- as much of the buffer as the file is long
      ∃ attr, srv.statPath (w.contexts handle).path w.net = .ok attr w.net ∧
        request = .write (w.contexts handle).path offset
          (buffer.take (attr.size - offset).toNat) writeToEof
  | .getVolumeInfo => request = .getVolumeInfo

/-- Lengths have the bits that Windows and Linux have for them: a buffer to read into 32, and a
    file that is not to grow 64. -/
def Short (t : Tree) : DriveCall → Prop
  | .read _ buffer _     => buffer.length < 2 ^ 32
  | .write _ _ _ _ true  =>
    ∀ q data, bodyAt t q = some (.file data) → data.length < 2 ^ 64
  | _                    => True

end DriveCall

/-! ### What a callback tells -/

/-- The attributes of Windows tell the kind of a node. -/
def DisplaysKind (fileAttributes : UInt32) : Node UInt8 → Prop
  | .file _ => fileAttributes &&& fileAttributeDirectory = 0
  | .dir    => fileAttributes &&& fileAttributeDirectory ≠ 0

/-- The file information is that of such a node. -/
def Displays (info : FileInfo) (n : Node UInt8) : Prop :=
  DisplaysKind info.fileAttributes n ∧
    ∀ data, n = .file data → info.fileSize = UInt64.ofNat data.length

/-- What the call returns is the answer to its operation. -/
inductive Gives : DriveCall → Value → Answer Name UInt8 → Prop where
  | security {fileName target security descriptor n} (h : DisplaysKind security.attributes n) :
      Gives (.getSecurityByName fileName target) (.security security descriptor) (.node n)
  | info {call info n} (h : Displays info n) : Gives call (.info info) (.node n)
  | bytes {handle buffer offset} (data) (h : data.length ≤ buffer.length) :
      Gives (.read handle buffer offset)
        (.bytes (data ++ buffer.drop data.length) (UInt32.ofNat data.length)) (.bytes data)
  | written {call info n} (count : Nat) (h : Displays info n) :
      Gives call (.written (UInt32.ofNat count) (some info)) (.written count n)
  /-- All of the buffer lies behind the end of the file. -/
  | behind {handle buffer offset toEof n} :
      Gives (.write handle buffer offset toEof true) (.written 0 none) (.node n)
  | volume (info) : Gives .getVolumeInfo (.volume info) .done
  | done {call} : Gives call .done .done

/-- What the call returns tells how its operation is answered; `w` is the client before the
    call. -/
inductive Told (fs : RpcFsContext Tree Buf) (w : World Tree Buf) :
    DriveCall → Except Stop Value → Option (Answer Name UInt8) → Prop where
  | given {call value answer} (h : Gives call value answer) :
      Told fs w call (.ok value) (some answer)
  | refused {call e} : Told fs w call (.error (.err e)) none
  | failed {call e answer} (h : call.op.Fallible) : Told fs w call (.error (.err e)) answer
  /-- The entries go to the buffers of WinFsp, which may not take them. -/
  | listed {handle marker buffer attr entries nodes} (hattr : Depicts attr .dir)
      (h : Enumerates entries nodes) :
      Told fs w (.readDirectory handle marker buffer)
        ((outcome (fs.presentEntries handle marker buffer attr entries w)).map fun listing =>
          .listing listing.1 listing.2)
        (some (.children nodes))
  /-- Nothing is written into a directory. -/
  | idle {handle buffer offset toEof} :
      Told fs w (.write handle buffer offset toEof true) (.ok (.written 0 none)) none

/-- The context of a handle of the drive. -/
structure Matches (context : RpcFileContext Buf) (x : Handle Name) : Prop where
  path    : namesOf context.path = some x.path
  kind    : context.kind.kind = x.kind
  pending : context.deletePending = x.pending

/-- The drive that the tree of the server and the handles of the client stand for. -/
structure Presents (srv : RpcServer) (desk : Desk Buf) (d : Drive Name UInt8) : Prop where
  plain   : ∃ h : srv.Plain desk.world.net, h.view = d.tree
  next    : desk.next = d.next
  isOpen  : ∀ i, desk.isOpen i = (d.handle i).isSome
  handles : ∀ i x, d.handle i = some x → Matches (desk.world.contexts i) x

/-- The request and its result fit in frames. -/
def Answered (srv : RpcServer) (os : Os) (request : Request) (t : Tree) : Prop :=
  (Message.request request).Fits ∧ (Message.result (outcome (srv.dispatch os request t))).Fits

instance (srv : RpcServer) (os : Os) (request : Request) (t : Tree) :
    Decidable (Answered srv os request t) := inferInstanceAs (Decidable (_ ∧ _))

/-- What the call takes for granted: its handle is open; its requests are answered, and are
    such that the server carries them out; lengths have the bits that Windows and Linux have for
    them; and no time makes the client panic. -/
structure Supported (fs : RpcFsContext Tree Buf) (srv : RpcServer) (os : Os) (desk : Desk Buf)
    (call : DriveCall) : Prop where
  isOpen   : ∀ i, call.handle = some i → desk.isOpen i = true
  sent     : ∀ request, call.Sends srv desk.world request →
    srv.Covered os desk.world.net request ∧ Answered srv os request desk.world.net
  short    : call.Short desk.world.net
  returned : ∀ message, outcome (call.run (fs.connected srv os) desk) ≠ .error (.panic message)

/-- The call returns and leaves what its operation on the drive says. -/
structure Serves (fs : RpcFsContext Tree Buf) (srv : RpcServer) (limit : Nat) (desk : Desk Buf)
    (d : Drive Name UInt8) (call : DriveCall)
    (result : EStateM.Result Stop (Desk Buf) Value) : Prop where
  told    : Told fs desk.world call (outcome result) (d.act limit call.op).1
  presents : Presents srv (final result) (d.act limit call.op).2

variable {fs : RpcFsContext Tree Buf} {srv : RpcServer} {os : Os} {w : World Tree Buf}
  {desk : Desk Buf} {d : Drive Name UInt8} {request : Request}

/-- The attributes of Windows tell what the attributes depict. -/
theorem displaysKind_attributes {attr : FileAttr} {n : Node UInt8} (hd : Depicts attr n) :
    DisplaysKind (fileAttributesFromAttr attr) n := by
  cases n with
  | file data =>
    show fileAttributesFromAttr attr &&& fileAttributeDirectory = 0
    unfold fileAttributesFromAttr
    rw [hd.1]
    cases attr.readonly <;> decide
  | dir =>
    have hkind : attr.kind = .directory := hd
    show fileAttributesFromAttr attr &&& fileAttributeDirectory ≠ 0
    unfold fileAttributesFromAttr
    rw [hkind]
    cases attr.readonly <;> decide

/-! ### One request -/

/-- What becomes of a request that is answered. -/
theorem send_answered (h : srv.Plain w.net) (hc : srv.Covered os w.net request)
    (ha : Answered srv os request w.net) :
    ∃ h' : srv.Plain (final (srv.dispatch os request w.net)),
      h'.view = (h.view.run os.maxBytes request.command).2 ∧
      ((∃ response, send (srv.exchange os) request w.net
          = .ok response (final (srv.dispatch os request w.net)) ∧
          srv.dispatch os request w.net
            = .ok response (final (srv.dispatch os request w.net)) ∧
          Conveys (.ok response) (h.view.run os.maxBytes request.command).1) ∨
        ∃ e, send (srv.exchange os) request w.net
          = .error e (final (srv.dispatch os request w.net)) ∧
          ((h.view.run os.maxBytes request.command).1 = none ∨ request.command.Fallible)) := by
  have hdoes := RpcServer.does_dispatch h hc
  obtain ⟨h', hview⟩ := hdoes.tree
  refine ⟨h', hview, ?_⟩
  have hexchange : srv.exchange os request w.net
      = .ok (outcome (srv.dispatch os request w.net)) (final (srv.dispatch os request w.net)) := by
    unfold RpcServer.exchange
    rw [if_pos ha.1]
    exact if_pos ha.2
  have htells := hdoes.tells
  cases hd : srv.dispatch os request w.net with
  | ok response t' =>
    rw [hd] at hexchange htells
    refine .inl ⟨response, ?_, rfl, ?_⟩
    · unfold send
      rw [bind_of_ok hexchange]
      rfl
    · exact htells.resolve_right fun ⟨_, _, he⟩ => by cases he
  | error e t' =>
    rw [hd] at hexchange htells
    refine .inr ⟨e.toIoError, ?_, ?_⟩
    · unfold send
      rw [bind_of_ok hexchange]
      rfl
    · rcases htells with hconveys | ⟨hfallible, -⟩
      · rw [outcome_error] at hconveys
        generalize (h.view.run os.maxBytes request.command).1 = answer at hconveys ⊢
        cases hconveys
        exact .inl rfl
      · exact .inr hfallible

/-- The attributes that are fetched depict what stands there. -/
theorem fetchAttr_answered (fs : RpcFsContext Tree Buf) {path : String} (h : srv.Plain w.net)
    (hc : srv.Covered os w.net (.stat path)) (ha : Answered srv os (.stat path) w.net) :
    (∃ attr n, (h.view.run os.maxBytes (onPath path .look)).1 = some (.node n) ∧
      Depicts attr n ∧ (fs.connected srv os).fetchAttr path w = .ok attr w ∧
      srv.statPath path w.net = .ok attr w.net) ∨
    (h.view.run os.maxBytes (onPath path .look)).1 = none ∧
      ∃ e w', (fs.connected srv os).fetchAttr path w = .error (.err (.io e)) w' ∧
        w'.net = w.net ∧ w'.contexts = w.contexts := by
  have hquiet : final (srv.dispatch os (.stat path) w.net) = w.net := by
    show final ((Response.attr <$> srv.statPath path) w.net) = w.net
    rw [final_map]
    exact RpcServer.quiet_statPath w.net
  obtain ⟨h', -, ⟨response, hsend, hd, hconveys⟩ | ⟨e, hsend, hrefused⟩⟩ := send_answered h hc ha
  · rw [hquiet] at hsend hd
    obtain ⟨attr, hstat, rfl⟩ := map_eq_ok.mp hd
    change Conveys _ (h.view.run os.maxBytes (onPath path .look)).1 at hconveys
    generalize (h.view.run os.maxBytes (onPath path .look)).1 = answer at hconveys ⊢
    cases hconveys with
    | node hdepicts =>
      refine .inl ⟨attr, _, rfl, hdepicts, ?_, hstat⟩
      rw [RpcFsContext.fetchAttr_apply,
        show (fs.connected srv os).exchange = srv.exchange os from rfl, hsend]
  · rw [hquiet] at hsend
    have hfallible : ¬ (onPath path .look).Fallible := by
      unfold onPath
      cases namesOf path <;> exact id
    refine .inr ⟨hrefused.resolve_right hfallible, e,
      { w with mountState := mapRpcError e w.mountState }, ?_, rfl, rfl⟩
    rw [RpcFsContext.fetchAttr_apply,
      show (fs.connected srv os).exchange = srv.exchange os from rfl, hsend]

/-! ### Finishing a call -/

section

variable {α : Type} {x : ClientM Tree Buf α} {k : α → EStateM Stop (Desk Buf) Value} {a : α}
  {w' : World Tree Buf} {stop : Stop}

/-- What succeeds inside goes on with its result. -/
theorem inside_of_ok (h : x desk.world = .ok a w') :
    (inside x >>= k) desk = k a { desk with world := w' } := by
  refine bind_of_ok ?_
  unfold inside
  rw [h]

/-- What fails inside ends the callback. -/
theorem inside_of_error (h : x desk.world = .error stop w') :
    (inside x >>= k) desk = .error stop { desk with world := w' } := by
  refine bind_of_error ?_
  unfold inside
  rw [h]

/-- What is left of a callback that opens no handle. -/
theorem outcome_inside (x : ClientM Tree Buf α) (f : α → Value) (desk : Desk Buf) :
    outcome ((do let a ← inside x; return f a) desk) = (outcome (x desk.world)).map f := by
  cases h : x desk.world with
  | ok a w =>
    rw [inside_of_ok h]
    rfl
  | error stop w =>
    rw [inside_of_error h]
    rfl

/-- A callback leaves the world that its body leaves. -/
theorem final_inside (x : ClientM Tree Buf α) (f : α → Value) (desk : Desk Buf) :
    final ((do let a ← inside x; return f a) desk)
      = { desk with world := final (x desk.world) } := by
  cases h : x desk.world with
  | ok a w =>
    rw [inside_of_ok h]
    rfl
  | error stop w =>
    rw [inside_of_error h]
    rfl

end

/-- The tree has become another one, and the handles are what they were. -/
theorem Presents.goes (m : Presents srv desk d) {w' : World Tree Buf} {T : FileTree Name UInt8}
    (hplain : ∃ h : srv.Plain w'.net, h.view = T)
    (hcontexts : ∀ i x, Matches (desk.world.contexts i) x → Matches (w'.contexts i) x) :
    Presents srv { desk with world := w' } { d with tree := T } where
  plain := hplain
  next := m.next
  isOpen := m.isOpen
  handles i x hx := hcontexts i x (m.handles i x hx)

section

variable {call : DriveCall} {limit : Nat} {w' : World Tree Buf} {T : FileTree Name UInt8}
  {result : EStateM.Result Stop (Desk Buf) Value}

/-- A call that is answered, and keeps the handles. -/
theorem Serves.of_ok (m : Presents srv desk d) {value : Value} {answer : Answer Name UInt8}
    (hrun : result = .ok value { desk with world := w' })
    (hact : d.act limit call.op = (some answer, { d with tree := T }))
    (hgives : Gives call value answer) (hplain : ∃ h : srv.Plain w'.net, h.view = T)
    (hcontexts : w'.contexts = desk.world.contexts) :
    Serves fs srv limit desk d call result := by
  subst hrun
  refine ⟨?_, ?_⟩
  · rw [hact]
    exact .given hgives
  · rw [hact]
    exact m.goes hplain fun i x hx => by rwa [hcontexts]

/-- A call that is refused, and keeps the handles. -/
theorem Serves.of_error (m : Presents srv desk d) {e : FspError}
    {answer : Option (Answer Name UInt8)}
    (hrun : result = .error (.err e) { desk with world := w' })
    (hact : d.act limit call.op = (answer, { d with tree := T }))
    (hrefused : answer = none ∨ call.op.Fallible) (hplain : ∃ h : srv.Plain w'.net, h.view = T)
    (hcontexts : w'.contexts = desk.world.contexts) :
    Serves fs srv limit desk d call result := by
  subst hrun
  refine ⟨?_, ?_⟩
  · rw [hact]
    rcases hrefused with rfl | hfallible
    · exact .refused
    · exact .failed hfallible
  · rw [hact]
    exact m.goes hplain fun i x hx => by rwa [hcontexts]

end

/-- The file information of a node. -/
theorem displays_of_fill {attr : FileAttr} {n : Node UInt8} {info : FileInfo} (hd : Depicts attr n)
    (hfill : fillFileInfo attr = .ok info) : Displays info n := by
  obtain ⟨-, -, hattributes, hsize, -⟩ := fillFileInfo_eq_ok hfill
  refine ⟨?_, fun data hn => ?_⟩
  · rw [hattributes]
    exact displaysKind_attributes hd
  · subst hn
    rw [hsize]
    exact hd.2

section

variable {call : DriveCall} {w' : World Tree Buf} {T : FileTree Name UInt8} {attr : FileAttr}
  {n : Node UInt8} {answer : Answer Name UInt8} {α : Type} {x : ClientM Tree Buf α}
  {f : FileInfo → α} {k : α → Value}

/-- A call that ends with file information.  The times of the node make no panic. -/
theorem Serves.of_filled (m : Presents srv desk d) (hs : Supported fs srv os desk call)
    (hcall : call.run (fs.connected srv os) desk = (do let a ← inside x; return k a) desk)
    (hx : x desk.world = (f <$> checked (fillFileInfo attr)) w') (hdepicts : Depicts attr n)
    (hact : d.act os.maxBytes call.op = (some answer, { d with tree := T }))
    (hgives : ∀ info, Displays info n → Gives call (k (f info)) answer)
    (hplain : ∃ h : srv.Plain w'.net, h.view = T)
    (hcontexts : w'.contexts = desk.world.contexts) :
    Serves fs srv os.maxBytes desk d call (call.run (fs.connected srv os) desk) := by
  cases hfill : fillFileInfo attr with
  | error message =>
    have hpanic : x desk.world = .error (.panic message) w' := by
      rw [hx, hfill]
      rfl
    have hrun := hcall.trans (inside_of_error hpanic)
    exact absurd (congrArg outcome hrun) (hs.returned message)
  | ok info =>
    have hok : x desk.world = .ok (f info) w' := by
      rw [hx, hfill]
      rfl
    exact .of_ok m (hcall.trans (inside_of_ok hok)) hact
      (hgives info (displays_of_fill hdepicts hfill)) hplain hcontexts

end

namespace Presents

variable {x : Handle Name} {i : Nat}

/-- A request to the tree of the drive. -/
theorem sends (m : Presents srv desk d) (fs : RpcFsContext Tree Buf)
    (hsent : srv.Covered os desk.world.net request ∧ Answered srv os request desk.world.net) :
    ∃ t', (∃ h' : srv.Plain t', h'.view = (d.tree.run os.maxBytes request.command).2) ∧
      t' = final (srv.dispatch os request desk.world.net) ∧
      ((∃ response, (fs.connected srv os).sendDirect request desk.world
          = .ok response { desk.world with net := t' } ∧
          Conveys (.ok response) (d.tree.run os.maxBytes request.command).1) ∨
        ∃ e, (fs.connected srv os).sendDirect request desk.world
            = .error (.err (.io e)) { desk.world with net := t' } ∧
          ((d.tree.run os.maxBytes request.command).1 = none ∨ request.command.Fallible)) := by
  obtain ⟨h, hview⟩ := m.plain
  obtain ⟨h', hview', hresult⟩ := send_answered h hsent.1 hsent.2
  rw [hview] at hview' hresult
  refine ⟨_, ⟨h', hview'⟩, rfl, hresult.imp ?_ ?_⟩
  · rintro ⟨response, hsend, -, hconveys⟩
    exact ⟨response, RpcFsContext.sendDirect_of_ok (fs.connected srv os) hsend, hconveys⟩
  · rintro ⟨e, hsend, hrefused⟩
    exact ⟨e, RpcFsContext.sendDirect_of_error (fs.connected srv os) hsend, hrefused⟩

/-- A request that changes nothing leaves the client as it is. -/
theorem sends_quiet (m : Presents srv desk d) (fs : RpcFsContext Tree Buf)
    (hquiet : Quiet (srv.dispatch os request))
    (hsent : srv.Covered os desk.world.net request ∧ Answered srv os request desk.world.net) :
    (∃ response, (fs.connected srv os).sendDirect request desk.world
        = .ok response desk.world ∧
        Conveys (.ok response) (d.tree.run os.maxBytes request.command).1) ∨
      ∃ e, (fs.connected srv os).sendDirect request desk.world
          = .error (.err (.io e)) desk.world ∧
        ((d.tree.run os.maxBytes request.command).1 = none ∨ request.command.Fallible) := by
  obtain ⟨t', -, ht', hresult⟩ := m.sends fs hsent
  rw [hquiet desk.world.net] at ht'
  subst ht'
  exact hresult

/-- The attributes of what stands at a path. -/
theorem fetches (m : Presents srv desk d) (fs : RpcFsContext Tree Buf) {path : String}
    (hsent : srv.Covered os desk.world.net (.stat path) ∧
      Answered srv os (.stat path) desk.world.net) :
    (∃ p attr n, namesOf path = some p ∧ d.tree.node p = some n ∧ Depicts attr n ∧
      (fs.connected srv os).fetchAttr path desk.world = .ok attr desk.world ∧
      srv.statPath path desk.world.net = .ok attr desk.world.net) ∨
    (∀ p, namesOf path = some p → d.tree.node p = none) ∧
      ∃ e w', (fs.connected srv os).fetchAttr path desk.world = .error (.err (.io e)) w' ∧
        w'.net = desk.world.net ∧ w'.contexts = desk.world.contexts := by
  obtain ⟨h, hview⟩ := m.plain
  have hfetch := fetchAttr_answered fs h hsent.1 hsent.2
  rw [hview] at hfetch
  rcases hfetch with ⟨attr, n, hrun, hrest⟩ | ⟨hrun, hrest⟩
  · cases hp : namesOf path with
    | none =>
      rw [RpcServer.onPath_of_none hp] at hrun
      cases hrun
    | some p =>
      rw [RpcServer.onPath_of_some hp] at hrun
      obtain ⟨_, hn, ⟨⟩⟩ := Option.map_eq_some_iff.mp hrun
      exact .inl ⟨p, attr, n, rfl, hn, hrest⟩
  · refine .inr ⟨fun p hp => ?_, hrest⟩
    rw [RpcServer.onPath_of_some hp] at hrun
    exact Option.map_eq_none_iff.mp hrun

/-- The entries of a directory. -/
theorem lists (m : Presents srv desk d) (fs : RpcFsContext Tree Buf) {path : String}
    {p : List Name} (hp : namesOf path = some p)
    (hsent : srv.Covered os desk.world.net (.readDir path) ∧
      Answered srv os (.readDir path) desk.world.net) :
    (∃ entries, d.tree.node p = some .dir ∧ Enumerates entries (fun x => d.tree.node (p ++ [x])) ∧
      (fs.connected srv os).fetchDirEntries path desk.world = .ok entries desk.world) ∨
    d.tree.node p ≠ some .dir ∧
      ∃ e w', (fs.connected srv os).fetchDirEntries path desk.world = .error (.err (.io e)) w' ∧
        w'.net = desk.world.net ∧ w'.contexts = desk.world.contexts := by
  obtain ⟨h, hview⟩ := m.plain
  have hquiet : Quiet (srv.dispatch os (.readDir path)) := .map RpcServer.quiet_readDir
  obtain ⟨h', -, hresult⟩ := send_answered h hsent.1 hsent.2
  rw [hview, hquiet desk.world.net, show (Request.readDir path).command = .list p from
    RpcServer.onPath_of_some hp] at hresult
  by_cases hdir : d.tree.node p = some .dir
  · have hrun : (d.tree.run os.maxBytes (.list p)).1
        = some (.children fun x => d.tree.node (p ++ [x])) := if_pos hdir
    rw [hrun] at hresult
    rcases hresult with ⟨response, hsend, -, hconveys⟩ | ⟨e, -, hrefused⟩
    · cases hconveys with
      | children hentries =>
        refine .inl ⟨_, hdir, hentries, ?_⟩
        unfold RpcFsContext.fetchDirEntries
        rw [bind_of_ok (RpcFsContext.sendRequest_of_ok (fs.connected srv os) hsend)]
        rfl
    · cases hrefused.resolve_right id
  · have hrun : (d.tree.run os.maxBytes (.list p)).1 = none := if_neg hdir
    rw [hrun] at hresult
    rcases hresult with ⟨response, -, -, hconveys⟩ | ⟨e, hsend, -⟩
    · cases hconveys
    · refine .inr ⟨hdir, e, { desk.world with mountState := mapRpcError e desk.world.mountState },
        ?_, rfl, rfl⟩
      unfold RpcFsContext.fetchDirEntries
      exact bind_of_error (RpcFsContext.sendRequest_of_error (fs.connected srv os) hsend)

/-- A handle has become another one. -/
theorem changes (m : Presents srv desk d) (hx : d.handle i = some x) {w' : World Tree Buf}
    {T : FileTree Name UInt8} (hplain : ∃ h : srv.Plain w'.net, h.view = T)
    (hcontexts : w'.contexts = desk.world.contexts) {context : RpcFileContext Buf}
    {x' : Handle Name} (hholds : Matches context x') :
    Presents srv { desk with world := w'.setContext i context }
      { d with tree := T, handle := Function.update d.handle i (some x') } where
  plain := hplain
  next := m.next
  isOpen j := by
    show desk.isOpen j = (Function.update d.handle i (some x') j).isSome
    rcases eq_or_ne j i with rfl | hj
    · rw [Function.update_self, m.isOpen, hx]
      rfl
    · rw [Function.update_of_ne hj, m.isOpen]
  handles j y hy := by
    change Function.update d.handle i (some x') j = some y at hy
    rcases eq_or_ne j i with rfl | hj
    · rw [Function.update_self] at hy
      cases hy
      rwa [World.contexts_setContext_self]
    · rw [Function.update_of_ne hj] at hy
      rw [World.contexts_setContext_of_ne hj, hcontexts]
      exact m.handles j y hy

/-- A handle is opened. -/
theorem installs (m : Presents srv desk d) {w' : World Tree Buf} {T : FileTree Name UInt8}
    (hplain : ∃ h : srv.Plain w'.net, h.view = T)
    (hcontexts : w'.contexts = desk.world.contexts) {context : RpcFileContext Buf}
    (hholds : Matches context x) :
    Presents srv {
      world  := w'.setContext desk.next context
      isOpen := Function.update desk.isOpen desk.next true
      next   := desk.next + 1 } (d.opened T x) where
  plain := hplain
  next := by rw [m.next]; rfl
  isOpen j := by
    show Function.update desk.isOpen desk.next true j
      = (Function.update d.handle d.next (some x) j).isSome
    rw [m.next]
    rcases eq_or_ne j d.next with rfl | hj
    · rw [Function.update_self, Function.update_self]
      rfl
    · rw [Function.update_of_ne hj, Function.update_of_ne hj, m.isOpen]
  handles j y hy := by
    change Function.update d.handle d.next (some x) j = some y at hy
    rw [m.next]
    rcases eq_or_ne j d.next with rfl | hj
    · rw [Function.update_self] at hy
      cases hy
      rwa [World.contexts_setContext_self]
    · rw [Function.update_of_ne hj] at hy
      rw [World.contexts_setContext_of_ne hj, hcontexts]
      exact m.handles j y hy

end Presents

end Netfilum
