import Netfilum.Lib.Postcard
import Netfilum.Protocol

namespace Netfilum

open Postcard

/-!
# The messages as bytes

The format that the derived `Serialize` and `Deserialize` of `src/protocol.rs` give each
type: fields in the order of declaration, variants by their index.  A codec holds its own
round trip, so what is left to check here is that the declarations were followed.

* `Request.codec` — the fourteen requests.
* `Response.codec`, `RpcResult.codec` — the six responses, and errors.
-/

/-- `EntryKind` on the wire. -/
def EntryKind.codec : Codec EntryKind :=
  .enum
    (fun | .file => 0 | .directory => 1)
    (fun _ => [])
    (fun i =>
      if i = 0 then return .file
      else if i = 1 then return .directory
      else throw .custom)
    (fun k _ _ => by cases k <;> rfl)

/-- `FileTimeValue` on the wire. -/
def FileTimeValue.codec : Codec FileTimeValue :=
  (Codec.i64.prod .u32).map
    (fun (secs, nanos) => { secs, nanos })
    (fun t => (t.secs, t.nanos))
    (fun _ => rfl)

/-- `FileAttr` on the wire. -/
def FileAttr.codec : Codec FileAttr :=
  let time := FileTimeValue.codec.option
  (EntryKind.codec.prod <| Codec.u64.prod <| Codec.u64.prod <| time.prod <| time.prod <|
    time.prod <| time.prod <| Codec.bool.prod <| Codec.u32.option).map
    (fun (kind, size, allocatedSize, created, accessed, modified, changed, readonly, mode) =>
      { kind, size, allocatedSize, created, accessed, modified, changed, readonly, mode })
    (fun a => (a.kind, a.size, a.allocatedSize, a.created, a.accessed, a.modified, a.changed,
      a.readonly, a.mode))
    (fun _ => rfl)

/-- Attributes take at most 96 bytes. -/
theorem FileAttr.within_codec : FileAttr.codec.Within 96 := by
  have hkind : EntryKind.codec.Within 5 := fun kind => Codec.length_put_enum_le kind
  have htime := ((Codec.within_i64.prod Codec.within_u32).map fun _ => rfl :
    FileTimeValue.codec.Within 15).option
  exact (hkind.prod <| Codec.within_u64.prod <| Codec.within_u64.prod <| htime.prod <|
    htime.prod <| htime.prod <| htime.prod <| Codec.within_bool.prod
      Codec.within_u32.option).map fun _ => rfl

/-- `DirEntry` on the wire. -/
def DirEntry.codec : Codec DirEntry :=
  (Codec.string.prod FileAttr.codec).map
    (fun (name, attr) => { name, attr })
    (fun e => (e.name, e.attr))
    (fun _ => rfl)

/-- `BasicInfoUpdate` on the wire. -/
def BasicInfoUpdate.codec : Codec BasicInfoUpdate :=
  let time := FileTimeValue.codec.option
  (Codec.bool.option.prod <| time.prod <| time.prod <| time.prod time).map
    (fun (readonly, creationTime, lastAccessTime, lastWriteTime, changeTime) =>
      { readonly, creationTime, lastAccessTime, lastWriteTime, changeTime })
    (fun u => (u.readonly, u.creationTime, u.lastAccessTime, u.lastWriteTime, u.changeTime))
    (fun _ => rfl)

/-- `VolumeInfoData` on the wire. -/
def VolumeInfoData.codec : Codec VolumeInfoData :=
  (Codec.u64.prod <| Codec.u64.prod .string).map
    (fun (totalSize, freeSize, label) => { totalSize, freeSize, label })
    (fun v => (v.totalSize, v.freeSize, v.label))
    (fun _ => rfl)

/-! ### Requests -/

namespace Request

/-- The position of a variant in the declaration. -/
def index : Request → UInt32
  | .stat ..         => 0
  | .open ..         => 1
  | .create ..       => 2
  | .readDir ..      => 3
  | .read ..         => 4
  | .write ..        => 5
  | .canDelete ..    => 6
  | .removeFile ..   => 7
  | .removeDir ..    => 8
  | .rename ..       => 9
  | .setLen ..       => 10
  | .flush ..        => 11
  | .setBasicInfo .. => 12
  | .getVolumeInfo   => 13

/-- The formats of the fields, one for every combination of types that occurs. -/
def createFields : Codec (String × EntryKind × UInt32 × UInt64) :=
  Codec.string.prod <| EntryKind.codec.prod <| Codec.u32.prod .u64

@[inherit_doc createFields]
def readFields : Codec (String × UInt64 × UInt32) := Codec.string.prod <| Codec.u64.prod .u32

@[inherit_doc createFields]
def writeFields : Codec (String × UInt64 × List UInt8 × Bool) :=
  Codec.string.prod <| Codec.u64.prod <| Codec.byte.seq.prod .bool

@[inherit_doc createFields]
def canDeleteFields : Codec (String × EntryKind) := Codec.string.prod EntryKind.codec

@[inherit_doc createFields]
def renameFields : Codec (String × String × Bool) :=
  Codec.string.prod <| Codec.string.prod .bool

@[inherit_doc createFields]
def setLenFields : Codec (String × UInt64 × Bool) := Codec.string.prod <| Codec.u64.prod .bool

@[inherit_doc createFields]
def setBasicInfoFields : Codec (String × BasicInfoUpdate) :=
  Codec.string.prod BasicInfoUpdate.codec

/-- The fields of a variant. -/
def fields : Request → List UInt8
  | .stat path | .open path | .readDir path | .removeFile path | .removeDir path =>
    Codec.string.put path
  | .create path kind fileAttributes allocationSize =>
    createFields.put (path, kind, fileAttributes, allocationSize)
  | .read path offset length => readFields.put (path, offset, length)
  | .write path offset data writeToEof => writeFields.put (path, offset, data, writeToEof)
  | .canDelete path kind => canDeleteFields.put (path, kind)
  | .rename path newPath replaceIfExists => renameFields.put (path, newPath, replaceIfExists)
  | .setLen path size setAllocationSize => setLenFields.put (path, size, setAllocationSize)
  | .flush path => Codec.string.option.put path
  | .setBasicInfo path update => setBasicInfoFields.put (path, update)
  | .getVolumeInfo => []

/-- Read the variant with a given index. -/
def variant (i : UInt32) : Decoder Request :=
  if i = 0 then .stat <$> Codec.string.take
  else if i = 1 then .open <$> Codec.string.take
  else if i = 2 then
    (fun (path, kind, attributes, size) => .create path kind attributes size) <$>
      createFields.take
  else if i = 3 then .readDir <$> Codec.string.take
  else if i = 4 then (fun (path, offset, length) => .read path offset length) <$> readFields.take
  else if i = 5 then
    (fun (path, offset, data, toEof) => .write path offset data toEof) <$> writeFields.take
  else if i = 6 then (fun (path, kind) => .canDelete path kind) <$> canDeleteFields.take
  else if i = 7 then .removeFile <$> Codec.string.take
  else if i = 8 then .removeDir <$> Codec.string.take
  else if i = 9 then (fun (path, new, replace) => .rename path new replace) <$> renameFields.take
  else if i = 10 then
    (fun (path, size, allocation) => .setLen path size allocation) <$> setLenFields.take
  else if i = 11 then .flush <$> Codec.string.option.take
  else if i = 12 then
    (fun (path, update) => .setBasicInfo path update) <$> setBasicInfoFields.take
  else if i = 13 then return .getVolumeInfo
  else throw .custom

/-- `Request` on the wire. -/
def codec : Codec Request :=
  .enum index fields variant fun r rest h => by
    cases r with
    | getVolumeInfo => rfl
    | flush path => exact run_map (Codec.take_put _ path rest h)
    | create path kind attributes size => exact run_map (createFields.take_put _ rest h)
    | read path offset length => exact run_map (readFields.take_put _ rest h)
    | write path offset data toEof => exact run_map (writeFields.take_put _ rest h)
    | canDelete path kind => exact run_map (canDeleteFields.take_put _ rest h)
    | rename path new replace => exact run_map (renameFields.take_put _ rest h)
    | setLen path size allocation => exact run_map (setLenFields.take_put _ rest h)
    | setBasicInfo path update => exact run_map (setBasicInfoFields.take_put _ rest h)
    | stat path | «open» path | readDir path | removeFile path | removeDir path =>
      exact run_map (Codec.take_put _ path rest h)

/-- The index of a request takes one byte. -/
theorem length_put (r : Request) : (codec.put r).length = 1 + r.fields.length := by
  have hindex : (Codec.u32.put r.index).length = 1 := by cases r <;> rfl
  show (Codec.u32.put r.index ++ r.fields).length = _
  rw [List.length_append, hindex]

end Request

/-! ### Responses -/

namespace Response

@[inherit_doc Request.index]
def index : Response → UInt32
  | .attr ..        => 0
  | .dirEntries ..  => 1
  | .data ..        => 2
  | .writeResult .. => 3
  | .volumeInfo ..  => 4
  | .empty          => 5

/-- The format of a write result. -/
def writeResultFields : Codec (UInt32 × FileAttr) := Codec.u32.prod FileAttr.codec

@[inherit_doc Request.fields]
def fields : Response → List UInt8
  | .attr a                => FileAttr.codec.put a
  | .dirEntries entries    => DirEntry.codec.seq.put entries
  | .data bytes            => Codec.byte.seq.put bytes
  | .writeResult written a => writeResultFields.put (written, a)
  | .volumeInfo info       => VolumeInfoData.codec.put info
  | .empty                 => []

@[inherit_doc Request.variant]
def variant (i : UInt32) : Decoder Response :=
  if i = 0 then .attr <$> FileAttr.codec.take
  else if i = 1 then .dirEntries <$> DirEntry.codec.seq.take
  else if i = 2 then .data <$> Codec.byte.seq.take
  else if i = 3 then (fun (written, a) => .writeResult written a) <$> writeResultFields.take
  else if i = 4 then .volumeInfo <$> VolumeInfoData.codec.take
  else if i = 5 then return .empty
  else throw .custom

/-- `Response` on the wire. -/
def codec : Codec Response :=
  .enum index fields variant fun r rest h => by
    cases r with
    | attr a => exact run_map (Codec.take_put _ a rest h)
    | dirEntries entries => exact run_map (Codec.take_put _ entries rest h)
    | data bytes => exact run_map (Codec.take_put _ bytes rest h)
    | writeResult written a => exact run_map (writeResultFields.take_put _ rest h)
    | volumeInfo info => exact run_map (Codec.take_put _ info rest h)
    | empty => rfl

end Response

/-- `ErrorCode` on the wire. -/
def ErrorCode.codec : Codec ErrorCode :=
  .enum
    (fun
      | .notFound          => 0
      | .alreadyExists     => 1
      | .permissionDenied  => 2
      | .invalidInput      => 3
      | .notDirectory      => 4
      | .isDirectory       => 5
      | .directoryNotEmpty => 6
      | .unsupported       => 7
      | .unexpected        => 8)
    (fun _ => [])
    (fun i =>
      if i = 0 then return .notFound
      else if i = 1 then return .alreadyExists
      else if i = 2 then return .permissionDenied
      else if i = 3 then return .invalidInput
      else if i = 4 then return .notDirectory
      else if i = 5 then return .isDirectory
      else if i = 6 then return .directoryNotEmpty
      else if i = 7 then return .unsupported
      else if i = 8 then return .unexpected
      else throw .custom)
    (fun c _ _ => by cases c <;> rfl)

/-- `RpcError` on the wire. -/
def RpcError.codec : Codec RpcError :=
  (ErrorCode.codec.prod .string).map
    (fun (code, message) => { code, message })
    (fun e => (e.code, e.message))
    (fun _ => rfl)

/-- `RpcResult<Response>` on the wire. -/
def RpcResult.codec : Codec (RpcResult Response) := Response.codec.result RpcError.codec

end Netfilum
