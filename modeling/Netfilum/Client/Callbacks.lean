import Netfilum.Client.Convert
import Netfilum.Lib.Program

namespace Netfilum

open Program Rust

/-!
# The file system callbacks

`RpcFsContext` of `crates/netfilum-client/src/mount.rs`: the callbacks WinFsp makes, each
with the requests it sends and what it does with the answers.

* A callback runs in `ClientM`, over the state of the transport, the mount state and the
  contexts of all handles.  It returns, fails with an `FspError`, or panics.
* `exchange` is the transport: one request out, one answer or transport error back.  It
  is a parameter, as are the directory buffers of WinFsp.
* Handles are numbered; the context of a handle is changed by callbacks on it alone.
-/

/-- `FspError`: made from an `io::Error`, or a status of WinFsp or Windows. -/
inductive FspError where
  | io (error : IoError)
  | status (code : UInt32)
  deriving DecidableEq

/-- `ERROR_ACCESS_DENIED`. -/
def errorAccessDenied : FspError := .status 5

/-- How a callback ends when it does not return `Ok`. -/
inductive Stop where
  | err (error : FspError)
  | panic (message : String)
  deriving DecidableEq

/-- `MountState`. -/
structure MountState where
  stop              : Bool := false
  disconnectMessage : Option String := none
  deriving DecidableEq

/-- `MountState::report_disconnect`. -/
def MountState.reportDisconnect (state : MountState) (message : String) : MountState where
  stop := true
  disconnectMessage := match state.disconnectMessage with
    | none     => some message
    -- the first message stays
    | some old => some old

/-- `is_disconnect_error`. -/
def isDisconnectError (error : IoError) : Bool :=
  match error.kind with
  | .connectionAborted | .connectionRefused | .connectionReset | .brokenPipe | .notConnected
  | .unexpectedEof => true
  | _ => false

/-- The effect of `map_rpc_error` on the mount state. -/
def mapRpcError (error : IoError) (state : MountState) : MountState :=
  if isDisconnectError error then
    state.reportDisconnect ("lost connection to server: " ++ error.message)
  else state

/-- The directory buffers of WinFsp.  Acquiring a buffer may fail; writing an entry may
    refuse its name, or find no room. -/
structure DirBuffers (Buf : Type) where
  new     : Buf
  acquire : Buf → Bool → UInt32 → Option Buf
  setName : String → Except FspError Unit
  write   : Buf → String → FileInfo → Except FspError Buf
  read    : Buf → Option (List UInt16) → List UInt8 → List UInt8 × UInt32

/-- `RpcFileContext`. -/
structure RpcFileContext (Buf : Type) where
  path          : String
  kind          : EntryKind
  dirBuffer     : Buf
  deletePending : Bool

/-- What the callbacks act on: the transport, the mount state, and the contexts of the
    handles. -/
structure World (σ Buf : Type) where
  net        : σ
  mountState : MountState
  contexts   : Nat → RpcFileContext Buf

/-- A callback, or a part of one. -/
abbrev ClientM (σ Buf : Type) := EStateM Stop (World σ Buf)

/-- One request over the transport: the server's answer, or a transport error. -/
abbrev Exchange (σ : Type) := Request → EStateM IoError σ (RpcResult Response)

/-- `RpcFsContext`, with the transport of its client. -/
structure RpcFsContext (σ Buf : Type) where
  exchange           : Exchange σ
  dirBuffers         : DirBuffers Buf
  securityDescriptor : List UInt8
  volumeLabel        : String

/-- `FileSecurity`. -/
structure FileSecurity where
  reparse              : Bool
  szSecurityDescriptor : UInt64
  attributes           : UInt32
  deriving DecidableEq

/-- `VolumeInfo`. -/
structure VolumeInfo where
  totalSize   : UInt64
  freeSize    : UInt64
  volumeLabel : String
  deriving DecidableEq

/-- `RpcClient::send`: an error the server answers becomes an `io::Error`. -/
def send {σ : Type} (exchange : Exchange σ) (request : Request) : EStateM IoError σ Response := do
  match ← exchange request with
  | .ok response => return response
  | .error error => throw error.toIoError

variable {σ Buf : Type}

/-- Put a new context in the place of a handle's. -/
def World.setContext (w : World σ Buf) (handle : Nat) (context : RpcFileContext Buf) :
    World σ Buf :=
  { w with contexts := fun h => if h = handle then context else w.contexts h }

/-- A handle has the context that it was given. -/
theorem World.contexts_setContext_self (w : World σ Buf) (handle : Nat)
    (context : RpcFileContext Buf) : (w.setContext handle context).contexts handle = context :=
  if_pos rfl

/-- The other handles keep their contexts. -/
theorem World.contexts_setContext_of_ne {handle h : Nat} (hne : h ≠ handle) (w : World σ Buf)
    (context : RpcFileContext Buf) :
    (w.setContext handle context).contexts h = w.contexts h :=
  if_neg hne

/-- `RpcFileContext::path`. -/
def pathOf (handle : Nat) : ClientM σ Buf String := fun w => .ok (w.contexts handle).path w

/-- The path of a handle is read from its context. -/
theorem pathOf_apply (handle : Nat) (w : World σ Buf) :
    pathOf handle w = .ok (w.contexts handle).path w := rfl

/-- `RpcFileContext::set_path`. -/
def setPath (handle : Nat) (path : String) : ClientM σ Buf Unit := fun w =>
  .ok () (w.setContext handle { w.contexts handle with path })

/-- A checked conversion: a panic when it overflows. -/
def checked {α : Type} (x : Checked α) : ClientM σ Buf α := given (x.mapError .panic)

/-- What is checked succeeds without a change. -/
theorem checked_eq_ok {α : Type} {x : Checked α} {a : α} {w w' : World σ Buf} :
    checked x w = .ok a w' ↔ x = .ok a ∧ w' = w := by
  unfold checked given
  rw [observe_eq_ok]
  cases x with
  | ok b =>
    refine and_congr_left' ?_
    constructor <;> rintro ⟨⟩ <;> rfl
  | error message => exact iff_of_false (by rintro ⟨⟨⟩, -⟩) (by rintro ⟨⟨⟩, -⟩)

/-- Fail with an error made from an `io::Error`. -/
def throwIo {α : Type} (error : IoError) : ClientM σ Buf α := throw (.err (.io error))

namespace RpcFsContext

variable (fs : RpcFsContext σ Buf)

/-- `RpcFileContext::new`. -/
def newContext (path : String) (kind : EntryKind) : RpcFileContext Buf where
  path
  kind
  dirBuffer := fs.dirBuffers.new
  deletePending := false

/-! ### Sending -/

/-- `self.client.send(..).map_err(FspError::from)`. -/
def sendDirect (request : Request) : ClientM σ Buf Response := fun w =>
  match send fs.exchange request w.net with
  | .ok response net => .ok response { w with net }
  | .error error net => .error (.err (.io error)) { w with net }

/-- An answer is passed on. -/
theorem sendDirect_of_ok {request : Request} {w : World σ Buf} {response : Response} {net : σ}
    (h : send fs.exchange request w.net = .ok response net) :
    fs.sendDirect request w = .ok response { w with net } := by
  unfold sendDirect
  rw [h]

/-- An error of the transport is passed on. -/
theorem sendDirect_of_error {request : Request} {w : World σ Buf} {e : IoError} {net : σ}
    (h : send fs.exchange request w.net = .error e net) :
    fs.sendDirect request w = .error (.err (.io e)) { w with net } := by
  unfold sendDirect
  rw [h]

/-- A request changes no context. -/
theorem sendDirect_contexts (request : Request) (w : World σ Buf) :
    (final (fs.sendDirect request w)).contexts = w.contexts := by
  unfold sendDirect
  cases send fs.exchange request w.net <;> rfl

/-- `send_request`: an error goes through `map_rpc_error`. -/
def sendRequest (request : Request) : ClientM σ Buf Response := fun w =>
  match send fs.exchange request w.net with
  | .ok response net => .ok response { w with net }
  | .error error net =>
    -- the mount may be told to stop
    .error (.err (.io error)) { w with net, mountState := mapRpcError error w.mountState }

/-- `fetch_attr`. -/
def fetchAttr (path : String) : ClientM σ Buf FileAttr := do
  match ← fs.sendRequest (.stat path) with
  | .attr attr => return attr
  | _          => throwIo (.other "unexpected attr response")

/-- The attributes are those of the answer to a `Stat`. -/
theorem fetchAttr_apply (path : String) (w : World σ Buf) :
    fs.fetchAttr path w = match send fs.exchange (.stat path) w.net with
      | .ok (.attr attr) net => .ok attr { w with net }
      | .ok _ net            =>
        .error (.err (.io (.other "unexpected attr response"))) { w with net }
      | .error e net         =>
        .error (.err (.io e)) { w with net, mountState := mapRpcError e w.mountState } := by
  unfold fetchAttr
  rw [bind_apply]
  unfold sendRequest
  cases send fs.exchange (.stat path) w.net with
  | ok v net => cases v <;> rfl
  | error e net => rfl

/-- `fetch_dir_entries`. -/
def fetchDirEntries (path : String) : ClientM σ Buf (List DirEntry) := do
  match ← fs.sendRequest (.readDir path) with
  | .dirEntries entries => return entries
  | _                   => throwIo (.other "unexpected directory response")

/-! ### Opening and closing -/

/-- `get_security_by_name`; `reparse` is what resolving reparse points gave. -/
def getSecurityByName (fileName : List UInt16) (securityDescriptor : Option (List UInt8))
    (reparse : Option FileSecurity) :
    ClientM σ Buf (FileSecurity × Option (List UInt8)) :=
  match reparse with
  | some reparse => return (reparse, securityDescriptor)
  | none         => do
    let path := ntPathToRelative fileName
    let attr ← fs.fetchAttr path
    return ({
      reparse := false
      szSecurityDescriptor := UInt64.ofNat fs.securityDescriptor.length
      attributes := fileAttributesFromAttr attr },
      copySecurityDescriptor fs.securityDescriptor securityDescriptor)

/-- `open`. -/
def openFile (fileName : List UInt16) : ClientM σ Buf (RpcFileContext Buf × FileInfo) := do
  let path := ntPathToRelative fileName
  let attr ← fs.fetchAttr path
  let fileInfo ← checked (fillFileInfo attr)
  return (fs.newContext path attr.kind, fileInfo)

/-- `create`. -/
def create (fileName : List UInt16) (createOptions fileAttributes : UInt32)
    (allocationSize : UInt64) : ClientM σ Buf (RpcFileContext Buf × FileInfo) := do
  let path := ntPathToRelative fileName
  let kind := if createOptions &&& fileDirectoryFileFlag ≠ 0 then .directory else .file
  match ← fs.sendDirect (.create path kind fileAttributes allocationSize) with
  | .attr attr => do
    let fileInfo ← checked (fillFileInfo attr)
    -- the kind is what the server made, not what was asked for
    return (fs.newContext path attr.kind, fileInfo)
  | _ => throwIo (.other "unexpected create response")

/-- `FspCleanupDelete.is_flagged`. -/
def cleanupDelete (flags : UInt32) : Bool := flags &&& 1 ≠ 0

/-- Whether `cleanup` deletes the file. -/
def shouldDelete (context : RpcFileContext Buf) (flags : UInt32) : Bool :=
  context.deletePending ∨ cleanupDelete flags

/-- The request that deletes the file of a handle. -/
def removeRequest (context : RpcFileContext Buf) : Request :=
  match context.kind with
  | .file      => .removeFile context.path
  | .directory => .removeDir context.path

/-- `cleanup`: the outcome of the deletion is dropped. -/
def cleanup (handle : Nat) (flags : UInt32) : ClientM σ Buf Unit := fun w =>
  if shouldDelete (w.contexts handle) flags then
    .ok () (final (fs.sendDirect (removeRequest (w.contexts handle)) w))
  else .ok () w

/-- `flush`. -/
def flush (handle : Option Nat) : ClientM σ Buf (Option FileInfo) :=
  match handle with
  | some handle => do
    let path ← pathOf handle
    let _ ← fs.sendDirect (.flush (some path))
    -- the path is read again after the request
    let path ← pathOf handle
    let attr ← fs.fetchAttr path
    let fileInfo ← checked (fillFileInfo attr)
    return some fileInfo
  | none => do
    let _ ← fs.sendDirect (.flush none)
    return none

/-! ### Information -/

/-- `get_file_info`. -/
def getFileInfo (handle : Nat) : ClientM σ Buf FileInfo := do
  let path ← pathOf handle
  let attr ← fs.fetchAttr path
  checked (fillFileInfo attr)

/-- `get_security`. -/
def getSecurity (securityDescriptor : Option (List UInt8)) :
    ClientM σ Buf (UInt64 × Option (List UInt8)) :=
  return (UInt64.ofNat fs.securityDescriptor.length,
    copySecurityDescriptor fs.securityDescriptor securityDescriptor)

/-- `set_security`. -/
def setSecurity : ClientM σ Buf Unit := throw (.err errorAccessDenied)

/-- `write_dir_entry`; the state is the acquired directory buffer. -/
def writeDirEntry (entry : DirEntry) : EStateM Stop Buf Unit := do
  given ((fs.dirBuffers.setName entry.name).mapError .err)
  let fileInfo ← given ((fillFileInfo entry.attr).mapError .panic)
  attempt fun buffer =>
    ((fs.dirBuffers.write buffer entry.name fileInfo).map fun buffer => ((), buffer)).mapError .err

/-- `write_special_dir_entry`. -/
def writeSpecialDirEntry (name : String) (attr : FileAttr) : EStateM Stop Buf Unit :=
  fs.writeDirEntry ⟨name, attr⟩

/-- The loop over the entries. -/
def writeDirEntries : List DirEntry → EStateM Stop Buf Unit
  | []            => return ()
  | entry :: rest => do
    fs.writeDirEntry entry
    writeDirEntries rest

/-- The part of `read_directory` that fills the buffer of the handle. -/
def fillDirBuffer (handle : Nat) (restart : Bool) (attr : FileAttr) (entries : List DirEntry) :
    ClientM σ Buf Unit := fun w =>
  let context := w.contexts handle
  match fs.dirBuffers.acquire context.dirBuffer restart (UInt32.ofNat (entries.length + 2)) with
  | none        => .ok () w
  | some buffer =>
    let filling : EStateM Stop Buf Unit := do
      fs.writeSpecialDirEntry "." attr
      fs.writeSpecialDirEntry ".." attr
      fs.writeDirEntries entries
    match (if restart then filling else pure ()) buffer with
    | .ok () buffer      => .ok () (w.setContext handle { context with dirBuffer := buffer })
    | .error stop buffer => .error stop (w.setContext handle { context with dirBuffer := buffer })

/-- `read_directory`. -/
def readDirectory (handle : Nat) (marker : Option (List UInt16)) (buffer : List UInt8) :
    ClientM σ Buf (List UInt8 × UInt32) := do
  let path ← pathOf handle
  let attr ← fs.fetchAttr path
  let entries ← fs.fetchDirEntries path
  fs.fillDirBuffer handle marker.isNone attr entries
  fun w => .ok (fs.dirBuffers.read (w.contexts handle).dirBuffer marker buffer) w

/-- `get_volume_info`. -/
def getVolumeInfo : ClientM σ Buf VolumeInfo := do
  match ← fs.sendDirect .getVolumeInfo with
  | .volumeInfo info => return ⟨info.totalSize, info.freeSize, fs.volumeLabel⟩
  | _                => throwIo (.other "unexpected volume response")

/-! ### Changes -/

/-- `rename`. -/
def rename (handle : Nat) (newFileName : List UInt16) (replaceIfExists : Bool) :
    ClientM σ Buf Unit := do
  let oldPath ← pathOf handle
  let newPath := ntPathToRelative newFileName
  let _ ← fs.sendDirect (.rename oldPath newPath replaceIfExists)
  setPath handle newPath

/-- `rename` sends its request, and the handle has the new path if it succeeds. -/
theorem rename_apply (handle : Nat) (newFileName : List UInt16) (replaceIfExists : Bool)
    (w : World σ Buf) :
    fs.rename handle newFileName replaceIfExists w
      = (fs.sendDirect (.rename (w.contexts handle).path (ntPathToRelative newFileName)
          replaceIfExists) >>= fun _ => setPath handle (ntPathToRelative newFileName)) w := by
  unfold rename
  rw [bind_of_ok (pathOf_apply handle w)]

/-- `set_basic_info`. -/
def setBasicInfo (handle : Nat) (fileAttributes : UInt32)
    (creationTime lastAccessTime lastWriteTime changeTime : UInt64) :
    ClientM σ Buf FileInfo := do
  let path ← pathOf handle
  let update : BasicInfoUpdate := {
    readonly       := readonlyUpdateFromAttributes fileAttributes
    creationTime   := wireTimeFromWindows creationTime
    lastAccessTime := wireTimeFromWindows lastAccessTime
    lastWriteTime  := wireTimeFromWindows lastWriteTime
    changeTime     := wireTimeFromWindows changeTime }
  match ← fs.sendDirect (.setBasicInfo path update) with
  | .attr attr => checked (fillFileInfo attr)
  | _          => throwIo (.other "unexpected set_basic_info response")

/-- `context.delete_pending.store`. -/
def storePending (handle : Nat) (pending : Bool) : ClientM σ Buf Unit := fun w =>
  .ok () (w.setContext handle { w.contexts handle with deletePending := pending })

/-- `set_delete`. -/
def setDelete (handle : Nat) (deleteFile : Bool) : ClientM σ Buf Unit := do
  if deleteFile then
    let kind ← fun w => .ok (w.contexts handle).kind w
    let path ← pathOf handle
    let _ ← fs.sendDirect (.canDelete path kind)
  storePending handle deleteFile

/-- Before a deletion is recorded, the server is asked. -/
theorem setDelete_apply (handle : Nat) (w : World σ Buf) :
    fs.setDelete handle true w
      = (fs.sendDirect (.canDelete (w.contexts handle).path (w.contexts handle).kind) >>=
          fun _ => storePending handle true) w := rfl

/-- `set_file_size`. -/
def setFileSize (handle : Nat) (newSize : UInt64) (setAllocationSize : Bool) :
    ClientM σ Buf FileInfo := do
  let path ← pathOf handle
  match ← fs.sendDirect (.setLen path newSize setAllocationSize) with
  | .attr attr => checked (fillFileInfo attr)
  | _          => throwIo (.other "unexpected set_file_size response")

/-! ### Contents -/

/-- The message of a slice that ends past its buffer. -/
def sliceMessage (range length : Nat) : String :=
  "range end index " ++ toString range ++ " out of range for slice of length " ++ toString length

/-- `read`: the buffer after the call, and the number of bytes read. -/
def read (handle : Nat) (buffer : List UInt8) (offset : UInt64) :
    ClientM σ Buf (List UInt8 × UInt32) := do
  let path ← pathOf handle
  match ← fs.sendDirect (.read path offset (UInt32.ofNat buffer.length)) with
  | .data data =>
    if buffer.length < data.length then
      throw (.panic (sliceMessage data.length buffer.length))
    else return (data ++ buffer.drop data.length, UInt32.ofNat data.length)
  | _ => throwIo (.other "unexpected read response")

/-- The `Write` request of `write`, and what it does with the answer. -/
def writePayload (handle : Nat) (payload : List UInt8) (offset : UInt64) (writeToEof : Bool) :
    ClientM σ Buf (UInt32 × Option FileInfo) := do
  let path ← pathOf handle
  match ← fs.sendDirect (.write path offset payload writeToEof) with
  | .writeResult written attr => do
    let fileInfo ← checked (fillFileInfo attr)
    return (written, some fileInfo)
  | _ => throwIo (.other "unexpected write response")

/-- A `Write` that was answered: what is left is to fill in the file information. -/
theorem writePayload_of_ok {handle : Nat} {payload : List UInt8} {offset : UInt64}
    {writeToEof : Bool} {w : World σ Buf} {written : UInt32} {attr : FileAttr} {net : σ}
    (h : send fs.exchange (.write (w.contexts handle).path offset payload writeToEof) w.net
      = .ok (.writeResult written attr) net) :
    fs.writePayload handle payload offset writeToEof w
      = ((fun fileInfo => (written, some fileInfo)) <$> checked (fillFileInfo attr))
          { w with net } := by
  unfold writePayload
  rw [bind_of_ok (pathOf_apply handle w), bind_of_ok (fs.sendDirect_of_ok h)]
  rfl

/-- An error of the transport ends the write. -/
theorem writePayload_of_error {handle : Nat} {payload : List UInt8} {offset : UInt64}
    {writeToEof : Bool} {w : World σ Buf} {e : IoError} {net : σ}
    (h : send fs.exchange (.write (w.contexts handle).path offset payload writeToEof) w.net
      = .error e net) :
    fs.writePayload handle payload offset writeToEof w
      = .error (.err (.io e)) { w with net } := by
  unfold writePayload
  rw [bind_of_ok (pathOf_apply handle w), bind_of_error (fs.sendDirect_of_error h)]

/-- `write`: the number of bytes written, and the file information if it was filled in. -/
def write (handle : Nat) (buffer : List UInt8) (offset : UInt64)
    (writeToEof constrainedIo : Bool) : ClientM σ Buf (UInt32 × Option FileInfo) :=
  if constrainedIo then do
    let path ← pathOf handle
    let attr ← fs.fetchAttr path
    if attr.size ≤ offset then return (0, none)
    else fs.writePayload handle (buffer.take (attr.size - offset).toNat) offset writeToEof
  else fs.writePayload handle buffer offset writeToEof

end RpcFsContext

end Netfilum
