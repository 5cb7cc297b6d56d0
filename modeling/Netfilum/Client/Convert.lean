import Mathlib.Algebra.Group.Int.Defs
import Netfilum.Lib.Integers
import Netfilum.Lib.Program
import Netfilum.Lib.Utf16
import Netfilum.Protocol

namespace Netfilum

open Program Rust

/-!
# Conversions between the wire and Windows

The helper functions of `crates/netfilum-client/src/mount.rs` that turn attributes, times
and names from the wire into what Windows expects and back.  Arithmetic is checked: where
it overflows, the conversion is an error that carries the message of the panic.
-/

/-- `WINDOWS_EPOCH_OFFSET_SECS`. -/
def windowsEpochOffsetSecs : Int64 := 11644473600

/-- `WINDOWS_TICKS_PER_SECOND`. -/
def windowsTicksPerSecond : UInt64 := 10000000

/-- `FILE_DIRECTORY_FILE_FLAG`. -/
def fileDirectoryFileFlag : UInt32 := 0x00000001

/-- The `FILE_ATTRIBUTE_*` values that are used. -/
def fileAttributeReadonly : UInt32 := 0x1

@[inherit_doc fileAttributeReadonly]
def fileAttributeDirectory : UInt32 := 0x10

@[inherit_doc fileAttributeReadonly]
def fileAttributeArchive : UInt32 := 0x20

@[inherit_doc fileAttributeReadonly]
def fileAttributeNormal : UInt32 := 0x80

/-- `INVALID_FILE_ATTRIBUTES`. -/
def invalidFileAttributes : UInt32 := 0xFFFFFFFF

/-- `FileInfo`. -/
structure FileInfo where
  fileAttributes : UInt32
  reparseTag     : UInt32
  allocationSize : UInt64
  fileSize       : UInt64
  creationTime   : UInt64
  lastAccessTime : UInt64
  lastWriteTime  : UInt64
  changeTime     : UInt64
  indexNumber    : UInt64
  hardLinks      : UInt32
  eaSize         : UInt32
  deriving DecidableEq

/-- A panic: its message. -/
abbrev Checked (α : Type) := Except String α

/-- `i64` addition with overflow checks. -/
def addChecked (a b : Int64) : Checked Int64 :=
  if -2 ^ 63 ≤ a.toInt + b.toInt ∧ a.toInt + b.toInt < 2 ^ 63 then .ok (a + b)
  else .error "attempt to add with overflow"

/-- `windows_time_from_wire`. -/
def windowsTimeFromWire (value : Option FileTimeValue) : Checked UInt64 :=
  match value with
  | none       => .ok 0
  | some value =>
    -- before 1601 there is no Windows time
    if value.secs < -windowsEpochOffsetSecs then .ok 0
    else do
      -- a plain `+`: it panics from 2⁶³ on
      let unixSeconds := (← addChecked value.secs windowsEpochOffsetSecs).toUInt64
      return saturatingAdd (saturatingMul unixSeconds windowsTicksPerSecond)
        (value.nanos.toUInt64 / 100)

/-- `wire_time_from_windows`. -/
def wireTimeFromWindows (value : UInt64) : Option FileTimeValue :=
  -- zero and `u64::MAX` mean "leave it"
  if value = 0 ∨ value = UInt64.ofNat (2 ^ 64 - 1) then none
  else
    let seconds := (value / windowsTicksPerSecond).toInt64 - windowsEpochOffsetSecs
    let nanos := ((value % windowsTicksPerSecond) * 100).toUInt32
    some ⟨seconds, nanos⟩

/-- `file_attributes_from_attr`. -/
def fileAttributesFromAttr (attr : FileAttr) : UInt32 :=
  let attributes := match attr.kind with
    | .directory => fileAttributeDirectory
    | .file      => fileAttributeArchive
  let attributes := if attr.readonly then attributes ||| fileAttributeReadonly else attributes
  -- cannot happen: the archive bit is always set on a file
  if attr.kind = .file ∧ attributes = 0 then fileAttributeNormal else attributes

/-- The flag of a read-only file is set where its attributes say so. -/
theorem readonly_fileAttributes (attr : FileAttr) :
    fileAttributesFromAttr attr &&& fileAttributeReadonly ≠ 0 ↔ attr.readonly = true := by
  unfold fileAttributesFromAttr
  cases attr.kind <;> cases attr.readonly <;> decide

/-- `fill_file_info`. -/
def fillFileInfo (attr : FileAttr) : Checked FileInfo := do
  let creationTime ← windowsTimeFromWire attr.created
  let lastAccessTime ← windowsTimeFromWire attr.accessed
  let lastWriteTime ← windowsTimeFromWire attr.modified
  let changeTime ← windowsTimeFromWire (attr.changed.or attr.modified)
  return {
    fileAttributes := fileAttributesFromAttr attr
    reparseTag     := 0
    allocationSize := max attr.allocatedSize attr.size
    fileSize       := attr.size
    creationTime, lastAccessTime, lastWriteTime, changeTime
    indexNumber    := 0
    hardLinks      := 0
    eaSize         := 0 }

/-- What is filled in, when no time overflows. -/
theorem fillFileInfo_eq_ok {attr : FileAttr} {info : FileInfo}
    (h : fillFileInfo attr = .ok info) :
    windowsTimeFromWire attr.accessed = .ok info.lastAccessTime ∧
      windowsTimeFromWire attr.modified = .ok info.lastWriteTime ∧
      info.fileAttributes = fileAttributesFromAttr attr ∧ info.fileSize = attr.size ∧
      info.allocationSize = max attr.allocatedSize attr.size := by
  unfold fillFileInfo at h
  obtain ⟨creation, -, h1⟩ := except_bind_eq_ok.mp h
  obtain ⟨access, haccess, h2⟩ := except_bind_eq_ok.mp h1
  obtain ⟨write, hwrite, h3⟩ := except_bind_eq_ok.mp h2
  obtain ⟨change, -, h4⟩ := except_bind_eq_ok.mp h3
  cases h4
  exact ⟨haccess, hwrite, rfl, rfl, rfl⟩

/-- `readonly_update_from_attributes`. -/
def readonlyUpdateFromAttributes (fileAttributes : UInt32) : Option Bool :=
  if fileAttributes = invalidFileAttributes then none
  else some (fileAttributes &&& fileAttributeReadonly ≠ 0)

/-- `copy_security_descriptor`: the target after the copy. -/
def copySecurityDescriptor (source : List UInt8) (target : Option (List UInt8)) :
    Option (List UInt8) :=
  target.map fun target =>
    let len := min source.length target.length
    source.take len ++ target.drop len

/-- `nt_path_to_relative`. -/
def ntPathToRelative (fileName : List UInt16) : String :=
  String.ofList
    -- unpaired surrogates are replaced, then slashes are cut from the front
    (((Utf16.lossy fileName).map fun c => if c = '\\' then '/' else c).dropWhile (· = '/'))

end Netfilum
