import Netfilum.Lib.IoError

namespace Netfilum

open Rust

/-!
# The protocol

The messages of `src/protocol.rs`: what a request asks, what a response carries, and the
error codes that stand for `std::io` errors on the wire.

* `RpcError.fromIoError` and `RpcError.toIoError` are the two conversions of errors.
-/

/-- `EntryKind`. -/
inductive EntryKind where
  | file
  | directory
  deriving DecidableEq, Repr

/-- `FileTimeValue`: `secs : i64`, `nanos : u32`. -/
structure FileTimeValue where
  secs  : Int64
  nanos : UInt32
  deriving DecidableEq

/-- `FileAttr`. -/
structure FileAttr where
  kind          : EntryKind
  size          : UInt64
  allocatedSize : UInt64
  created       : Option FileTimeValue
  accessed      : Option FileTimeValue
  modified      : Option FileTimeValue
  changed       : Option FileTimeValue
  readonly      : Bool
  mode          : Option UInt32
  deriving DecidableEq

/-- `DirEntry`. -/
structure DirEntry where
  name : String
  attr : FileAttr
  deriving DecidableEq

/-- `BasicInfoUpdate`. -/
structure BasicInfoUpdate where
  readonly       : Option Bool
  creationTime   : Option FileTimeValue
  lastAccessTime : Option FileTimeValue
  lastWriteTime  : Option FileTimeValue
  changeTime     : Option FileTimeValue
  deriving DecidableEq

/-- `VolumeInfoData`. -/
structure VolumeInfoData where
  totalSize : UInt64
  freeSize  : UInt64
  label     : String
  deriving DecidableEq

/-- `Request`. -/
inductive Request where
  | stat (path : String)
  | open (path : String)
  | create (path : String) (kind : EntryKind) (fileAttributes : UInt32) (allocationSize : UInt64)
  | readDir (path : String)
  | read (path : String) (offset : UInt64) (length : UInt32)
  | write (path : String) (offset : UInt64) (data : List UInt8) (writeToEof : Bool)
  | canDelete (path : String) (kind : EntryKind)
  | removeFile (path : String)
  | removeDir (path : String)
  | rename (path newPath : String) (replaceIfExists : Bool)
  | setLen (path : String) (size : UInt64) (setAllocationSize : Bool)
  | flush (path : Option String)
  | setBasicInfo (path : String) (update : BasicInfoUpdate)
  | getVolumeInfo
  deriving DecidableEq

/-- `Response`. -/
inductive Response where
  | attr (attr : FileAttr)
  | dirEntries (entries : List DirEntry)
  | data (data : List UInt8)
  | writeResult (written : UInt32) (attr : FileAttr)
  | volumeInfo (info : VolumeInfoData)
  | empty
  deriving DecidableEq

/-- `ErrorCode`. -/
inductive ErrorCode where
  | notFound | alreadyExists | permissionDenied | invalidInput | notDirectory | isDirectory
  | directoryNotEmpty | unsupported | unexpected
  deriving DecidableEq, Repr

/-- `RpcError`. -/
structure RpcError where
  code    : ErrorCode
  message : String
  deriving DecidableEq, Repr

/-- `RpcResult`. -/
abbrev RpcResult (α : Type) := Except RpcError α

instance {α : Type} [DecidableEq α] : DecidableEq (RpcResult α)
  | .ok a, .ok b => decidable_of_iff (a = b) (by simp)
  | .error a, .error b => decidable_of_iff (a = b) (by simp)
  | .ok _, .error _ => isFalse (by simp)
  | .error _, .ok _ => isFalse (by simp)

/-! ### Errors on the wire -/

/-- The kind of error a code stands for on the client. -/
def ErrorCode.toKind : ErrorCode → ErrorKind
  | .notFound          => .notFound
  | .alreadyExists     => .alreadyExists
  | .permissionDenied  => .permissionDenied
  | .invalidInput      => .invalidInput
  | .notDirectory      => .notADirectory
  | .isDirectory       => .isADirectory
  | .directoryNotEmpty => .directoryNotEmpty
  | .unsupported       => .unsupported
  | .unexpected        => .other

/-- The code the server sends for a kind of error. -/
def ErrorCode.fromKind : ErrorKind → ErrorCode
  | .notFound          => .notFound
  | .alreadyExists     => .alreadyExists
  | .permissionDenied  => .permissionDenied
  | .invalidInput      => .invalidInput
  | .notADirectory     => .notDirectory
  | .isADirectory      => .isDirectory
  | .directoryNotEmpty => .directoryNotEmpty
  | .unsupported       => .unsupported
  | _                  => .unexpected

/-- `RpcError::to_io_error`. -/
def RpcError.toIoError (e : RpcError) : IoError := ⟨e.code.toKind, e.message⟩

/-- `From<io::Error> for RpcError`. -/
def RpcError.fromIoError (e : IoError) : RpcError := ⟨.fromKind e.kind, e.message⟩

/-- A code survives the way to a kind and back. -/
theorem ErrorCode.fromKind_toKind (c : ErrorCode) : fromKind c.toKind = c := by
  cases c <;> rfl

end Netfilum
