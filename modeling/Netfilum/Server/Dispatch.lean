import Netfilum.Lib.Integers
import Netfilum.Posix.Calls
import Netfilum.Protocol
import Netfilum.Server.Path

namespace Netfilum

open Posix Program Rust

/-!
# The server's dispatch

`RpcServer::dispatch` of `crates/netfilum-server/src/server.rs`, with every function it
reaches.  A request runs in `ServerM`: it threads the tree through and keeps what was
done before an error.
-/

/-- `RpcServer`: the exported root as configured and its canonical location. -/
structure RpcServer where
  root        : PathBuf
  rootReal    : Loc
  volumeLabel : String

/-- A server function: an effect on the tree, and a result or an error for the wire. -/
abbrev ServerM := EStateM RpcError Tree

/-- `map_err(RpcError::from)`. -/
def io {α : Type} (x : EStateM IoError Tree α) : ServerM α := mapError RpcError.fromIoError x

/-- Return an error if the condition holds. -/
def refuseIf (c : Prop) [Decidable c] (error : RpcError) : ServerM Unit :=
  if c then throw error else pure ()

/-! ### Times and attributes -/

/-- `system_time_to_wire`. -/
def systemTimeToWire (value : Option Time) : Option FileTimeValue :=
  match value with
  | none      => none
  | some time =>
    -- `duration_since(UNIX_EPOCH)` fails before the epoch
    if time.secs < 0 then none
    else some ⟨Int64.ofInt time.secs, UInt32.ofNat time.nanos⟩

/-- `file_time_to_filetime`. -/
def fileTimeToFiletime (value : FileTimeValue) : Option Time :=
  if value.secs < 0 then none else some ⟨value.secs.toInt, value.nanos.toNat⟩

/-- The mode as `stat` reports it: the type of the entry and its permission bits. -/
def modeOf (e : Entry) : UInt32 :=
  (if e.shape = .dir then 0o040000 else 0o100000) ||| e.attr.perm

/-- `Metadata::len`. -/
def lenOf (e : Entry) : UInt64 :=
  match e.body with
  | .file data => UInt64.ofNat data.length
  | .dir size  => size
  -- never asked: `metadata` follows links
  | .symlink _ => 0

/-- The `FileAttr` built from a `Metadata`. -/
def attrOf (metadata : Entry) : FileAttr where
  kind          := if metadata.shape = .dir then .directory else .file
  size          := lenOf metadata
  allocatedSize := metadata.attr.blocks * 512
  created       := systemTimeToWire metadata.attr.btime
  accessed      := systemTimeToWire (some metadata.attr.atime)
  modified      := systemTimeToWire (some metadata.attr.mtime)
  -- the status change is taken from `ctime`, of either sign
  changed       := some ⟨Int64.ofInt metadata.attr.ctime.secs,
                         UInt32.ofNat metadata.attr.ctime.nanos⟩
  -- `permissions().readonly()`: nobody may write
  readonly      := modeOf metadata &&& 0o222 = 0
  mode          := some (modeOf metadata)

/-- `attr_for_path`. -/
def attrForPath (path : PathBuf) : ServerM FileAttr := do
  let metadata ← io (Fs.metadata path)
  return attrOf metadata

/-- `current_access_time`. -/
def currentAccessTime (os : Os) (path : PathBuf) : ServerM Time := do
  let metadata ← io (Fs.metadata path)
  return ((systemTimeToWire (some metadata.attr.atime)).bind fileTimeToFiletime).getD os.now

/-- `current_modified_time`. -/
def currentModifiedTime (os : Os) (path : PathBuf) : ServerM Time := do
  let metadata ← io (Fs.metadata path)
  return ((systemTimeToWire (some metadata.attr.mtime)).bind fileTimeToFiletime).getD os.now

/-- `set_readonly`. -/
def setReadonly (os : Os) (path : PathBuf) (readonly : Bool) : EStateM IoError Tree Unit := do
  let metadata ← Fs.metadata path
  let mode := modeOf metadata
  -- read-only takes write access from all, writable gives it to the owner
  let mode := if readonly then mode &&& ~~~ 0o222 else mode ||| 0o200
  Fs.setPermissions os path mode

/-- `filesystem_capacity`. -/
def filesystemCapacity (os : Os) (path : Loc) : Except IoError (UInt64 × UInt64) :=
  if path.any (·.contains 0) then .error ⟨.invalidInput, "path contains NUL"⟩
  else match os.statvfs with
    | .error e  => .error e.toIoError
    | .ok stats =>
      -- `f_frsize` may be zero
      let blockSize := if 0 < stats.frsize then stats.frsize else stats.bsize
      .ok (saturatingMul blockSize stats.blocks, saturatingMul blockSize stats.bavail)

namespace RpcServer

variable (srv : RpcServer) (os : Os)

/-! ### Resolving request paths -/

/-- `self.root.join(normalize_relative_path(relative)?)`. -/
def joined (relative : String) : ServerM PathBuf :=
  match normalizeRelativePath relative with
  | .ok rel        => return srv.root.join rel
  | .error message => throw ⟨.invalidInput, message⟩

/-- `ensure_within_root`. -/
def ensureWithinRoot (path : Loc) : ServerM Unit :=
  if srv.rootReal <+: path then pure ()
  else throw ⟨.permissionDenied, "path escapes the exported root"⟩

/-- `resolve_existing`. -/
def resolveExisting (relative : String) : ServerM PathBuf := do
  let joined ← srv.joined relative
  -- the object is checked, and the path as joined is used
  let resolved ← io (Fs.canonicalize joined)
  srv.ensureWithinRoot resolved
  return joined

/-- `resolve_for_new_path`. -/
def resolveForNewPath (relative : String) : ServerM PathBuf := do
  let joined ← srv.joined relative
  let parent := joined.parent.getD srv.root
  -- only the directory is checked, not what stands in it
  let resolvedParent ← io (Fs.canonicalize parent)
  srv.ensureWithinRoot resolvedParent
  return joined

/-! ### The requests -/

/-- `stat_path`. -/
def statPath (relative : String) : ServerM FileAttr := do
  let path ← srv.resolveExisting relative
  attrForPath path

/-- `create_entry`. -/
def createEntry (relative : String) (kind : EntryKind) : ServerM FileAttr := do
  let path ← srv.resolveForNewPath relative
  -- neither call follows a link at the end of the path
  match kind with
  | .file      => io (Fs.createNew os path)
  | .directory => io (Fs.createDir os path)
  attrForPath path

/-- The loop of `read_dir`: one entry for every listed name. -/
def readEntries (path : PathBuf) : List Name → ServerM (List DirEntry)
  | []        => return []
  | n :: rest => do
    -- an entry whose attributes cannot be read fails the whole listing
    let attr ← attrForPath (path.join [n])
    let entries ← readEntries path rest
    return ⟨Utf8.lossy n, attr⟩ :: entries

/-- `entries.sort_by(|left, right| left.name.cmp(&right.name))`. -/
def sortEntries (entries : List DirEntry) : List DirEntry :=
  entries.mergeSort fun left right => decide (left.name ≤ right.name)

/-- `read_dir`. -/
def readDir (relative : String) : ServerM (List DirEntry) := do
  let path ← srv.resolveExisting relative
  let metadata ← io (Fs.metadata path)
  refuseIf (metadata.shape ≠ .dir) ⟨.notDirectory, "path is not a directory"⟩
  let names ← io (Fs.readDir path)
  let entries ← readEntries path names
  return sortEntries entries

/-- `read_file`. -/
def readFile (relative : String) (offset : UInt64) (length : UInt32) :
    ServerM (List UInt8) := do
  let path ← srv.resolveExisting relative
  let file ← io (Fs.openRead path)
  let file ← io (Fs.seekStart os file offset.toNat)
  -- one `read`: fewer bytes than asked for at the end of the file
  io (Fs.read file length.toNat)

/-- Where `write_file` seeks to. -/
def seekFor (file : Fs.File) (offset : UInt64) (writeToEof : Bool) : ServerM Fs.File :=
  if writeToEof then io (Fs.seekEnd file) else io (Fs.seekStart os file offset.toNat)

/-- `write_file`. -/
def writeFile (relative : String) (offset : UInt64) (data : List UInt8) (writeToEof : Bool) :
    ServerM Response := do
  let path ← srv.resolveExisting relative
  let file ← io (Fs.openWrite path)
  let file ← seekFor os file offset writeToEof
  io (Fs.writeAll os file data)
  io (Fs.sync file)
  -- the bytes are written by now, whatever comes of the attributes
  let attr ← attrForPath path
  return .writeResult (UInt32.ofNat data.length) attr

/-- `can_delete`. -/
def canDelete (relative : String) (kind : EntryKind) : ServerM Unit := do
  let path ← srv.resolveExisting relative
  match kind with
  | .file => do
    let metadata ← io (Fs.metadata path)
    refuseIf (metadata.shape = .dir) ⟨.isDirectory, "expected a file"⟩
  | .directory => do
    let metadata ← io (Fs.metadata path)
    refuseIf (metadata.shape ≠ .dir) ⟨.notDirectory, "expected a directory"⟩
    -- `read_dir(..)?.next().is_some()`
    let children ← io (Fs.readDir path)
    refuseIf (children ≠ []) ⟨.directoryNotEmpty, "directory is not empty"⟩

/-- `remove_file`. -/
def removeFile (relative : String) : ServerM Unit := do
  let path ← srv.resolveExisting relative
  io (Fs.removeFile os path)

/-- `remove_dir`. -/
def removeDir (relative : String) : ServerM Unit := do
  let path ← srv.resolveExisting relative
  io (Fs.removeDir os path)

/-- The step of `rename` that makes way for the target. -/
def clearTarget (toPath : PathBuf) (replaceIfExists : Bool) : ServerM Unit := do
  let isDir ← io (Fs.isDir toPath)
  let isFile ← io (Fs.isFile toPath)
  -- a directory goes with all its contents, a link to one as a link
  if replaceIfExists ∧ isDir then io (Fs.removeDirAll os toPath)
  else if replaceIfExists ∧ isFile then io (Fs.removeFile os toPath)
  else pure ()

/-- `rename`. -/
def rename (from_ to_ : String) (replaceIfExists : Bool) : ServerM Unit := do
  let fromPath ← srv.resolveExisting from_
  let toPath ← srv.resolveForNewPath to_
  let taken ← io (Fs.pathExists toPath)
  refuseIf (¬ replaceIfExists ∧ taken) ⟨.alreadyExists, "target already exists"⟩
  -- from here on the target may be gone
  clearTarget os toPath replaceIfExists
  io (Fs.rename os fromPath toPath)

/-- The part of `set_len` that changes the file. -/
def truncateFile (path : PathBuf) (size : UInt64) : ServerM Unit := do
  let file ← io (Fs.openWrite path)
  io (Fs.setLen os file size.toNat)

/-- `set_len`. -/
def setLen (relative : String) (size : UInt64) (setAllocationSize : Bool) :
    ServerM FileAttr := do
  let path ← srv.resolveExisting relative
  -- an allocation size is taken note of and not applied
  (if setAllocationSize then pure () else truncateFile os path size)
  attrForPath path

/-- `flush`. -/
def flush (relative : Option String) : ServerM Unit := do
  match relative with
  | none          => return
  | some relative => do
    let path ← srv.resolveExisting relative
    let isDir ← io (Fs.isDir path)
    -- directories are not synced
    if isDir then return
    else
      let file ← io (Fs.openWrite path)
      io (Fs.sync file)

/-- `set_basic_info`. -/
def setBasicInfo (relative : String) (update : BasicInfoUpdate) : ServerM FileAttr := do
  let path ← srv.resolveExisting relative
  (match update.readonly with
    | some readonly => io (setReadonly os path readonly)
    | none          => pure ())
  -- the permissions have changed by now; what follows may still fail
  let currentAtime ← currentAccessTime os path
  let currentMtime ← currentModifiedTime os path
  -- a time that is not given, or lies before the epoch, is the current one
  let nextAtime := (update.lastAccessTime.bind fileTimeToFiletime).getD currentAtime
  let nextMtime := (update.lastWriteTime.bind fileTimeToFiletime).getD currentMtime
  (if update.lastAccessTime.isSome ∨ update.lastWriteTime.isSome then
    io (Fs.setFileTimes os path nextAtime nextMtime) else pure ())
  attrForPath path

/-- The answer to `GetVolumeInfo`. -/
def volumeInfo : ServerM VolumeInfoData :=
  io (observe fun _ => (filesystemCapacity os srv.rootReal).map fun size =>
    ⟨size.1, size.2, srv.volumeLabel⟩)

/-- `dispatch`. -/
def dispatch (request : Request) : ServerM Response :=
  match request with
  | .stat path | .open path => .attr <$> srv.statPath path
  -- attributes and allocation size of a new entry are ignored
  | .create path kind _ _ => .attr <$> srv.createEntry os path kind
  | .readDir path => .dirEntries <$> srv.readDir path
  | .read path offset length => .data <$> srv.readFile os path offset length
  | .write path offset data writeToEof => srv.writeFile os path offset data writeToEof
  | .canDelete path kind => do srv.canDelete path kind; return .empty
  | .removeFile path => do srv.removeFile os path; return .empty
  | .removeDir path => do srv.removeDir os path; return .empty
  | .rename path newPath replaceIfExists => do
    srv.rename os path newPath replaceIfExists; return .empty
  | .setLen path size setAllocationSize => .attr <$> srv.setLen os path size setAllocationSize
  | .flush path => do srv.flush path; return .empty
  | .setBasicInfo path update => .attr <$> srv.setBasicInfo os path update
  | .getVolumeInfo => .volumeInfo <$> srv.volumeInfo os

end RpcServer

end Netfilum
