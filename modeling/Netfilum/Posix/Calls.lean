import Mathlib.Algebra.Group.Nat.Defs
import Netfilum.Lib.IoError
import Netfilum.Lib.Program
import Netfilum.Posix.Edits
import Netfilum.Posix.Walk

namespace Posix

open Program Rust

/-!
# System calls

The file system calls of `std::fs` as Linux answers them on one tree, for a process that
is allowed everything (mode bits are data here, never a reason to refuse).

* Every call first rejects a path with a NUL byte, then resolves it by `walk`, following
  at most `maxLinks` symbolic links.
* `resolve` follows links in every component (`canonicalize`, `metadata`, `open`,
  `chmod`, `utimensat`); `parentOf` follows them in every component but the last
  (`unlink`, `rmdir`, `mkdir`, `O_EXCL`, `rename`).
* A call that fails leaves the tree as it was; the two exceptions are a write that runs
  into the size limit and `remove_dir_all`, which empties a directory before it removes it.
* A call that changes a directory stamps its modification and status-change times, a
  call that changes a file stamps the file's, and a rename the status-change time of what
  it moves; reading changes no access time.

Lengths of names and paths are not limited here.  `…_eq_ok` lemmas invert each call.
-/

/-! ### Error numbers as `io::Error` -/

namespace Errno

def code : Errno → Nat
  | ENOENT => 2 | EEXIST => 17 | ENOTDIR => 20 | EISDIR => 21 | ENOTEMPTY => 39
  | EINVAL => 22 | ELOOP => 40 | EBUSY => 16 | EFBIG => 27

def kind : Errno → ErrorKind
  | ENOENT => .notFound | EEXIST => .alreadyExists | ENOTDIR => .notADirectory
  | EISDIR => .isADirectory | ENOTEMPTY => .directoryNotEmpty | EINVAL => .invalidInput
  | ELOOP => .filesystemLoop | EBUSY => .resourceBusy | EFBIG => .fileTooLarge

def strerror : Errno → String
  | ENOENT => "No such file or directory" | EEXIST => "File exists"
  | ENOTDIR => "Not a directory" | EISDIR => "Is a directory"
  | ENOTEMPTY => "Directory not empty" | EINVAL => "Invalid argument"
  | ELOOP => "Too many levels of symbolic links" | EBUSY => "Device or resource busy"
  | EFBIG => "File too large"

/-- `io::Error::last_os_error` after a call that set this number. -/
def toIoError (e : Errno) : IoError :=
  ⟨e.kind, e.strerror ++ " (os error " ++ toString e.code ++ ")"⟩

end Errno

/-- The error of a path that cannot be passed to the system. -/
def nulError : IoError := ⟨.invalidInput, "file name contained an unexpected NUL byte"⟩

/-- The error of a size that does not fit the system's signed file offset. -/
def offsetError : IoError :=
  ⟨.invalidInput, "out of range integral type conversion attempted"⟩

/-! ### Paths -/

/-- An absolute path of plain names, and whether it is spelled with a trailing slash. -/
structure PathBuf where
  names    : List Name
  trailing : Bool := false
  deriving DecidableEq, Repr

namespace PathBuf

/-- `Path::join` with a relative path of plain names; joining the empty path only adds
    a trailing slash. -/
def join (p : PathBuf) (rel : List Name) : PathBuf :=
  if rel = [] then { p with trailing := true } else ⟨p.names ++ rel, false⟩

/-- `Path::parent`. -/
def parent (p : PathBuf) : Option PathBuf :=
  if p.names = [] then none else some ⟨p.names.dropLast, false⟩

/-- The components the kernel walks; a trailing slash asks for a directory. -/
def todo (p : PathBuf) : List Comp :=
  p.names.map .name ++ if p.trailing then [.cur] else []

/-- Whether some byte of the path is NUL. -/
def hasNul (p : PathBuf) : Bool := p.names.any (·.contains 0)

end PathBuf

/-- `MAXSYMLINKS`. -/
def maxLinks : Nat := 40

/-- The location a path leads to, following links in every component. -/
def resolve (t : Tree) (p : PathBuf) : Except Errno Loc :=
  (walk t.shape maxLinks [] p.todo).map Prod.fst

/-- The directory a path's last name is looked up in, and that name.  `atRoot` is the
    error of the path `/`, which has no last name. -/
def parentOf (t : Tree) (p : PathBuf) (atRoot : Errno) : Except Errno (Loc × Name) :=
  match p.names.getLast? with
  | none   => .error atRoot
  | some x => do
    let (d, _) ← walk t.shape maxLinks [] (p.names.dropLast.map .name)
    if t.shape d = some .dir then pure (d, x) else throw .ENOTDIR

/-! ### The system at one moment -/

/-- The figures of `statvfs(3)` that are used here. -/
structure Statvfs where
  frsize : UInt64
  bsize  : UInt64
  blocks : UInt64
  bavail : UInt64

/-- What the system adds to a call: the time, the attributes of new objects, block
    allocation, the largest file offset, and the figures of the file system. -/
structure Os where
  now         : Time
  filePerm    : UInt32
  dirPerm     : UInt32
  dirSize     : UInt64
  blocks      : UInt64 → Nat → UInt64
  maxBytes    : Nat
  maxBytes_lt : maxBytes < 2 ^ 63
  statvfs     : Except Errno Statvfs

namespace Os

/-- A system with ordinary settings whose clock stands at `now`. -/
def atTime (now : Time) : Os where
  now
  filePerm := 0o644
  dirPerm := 0o755
  dirSize := 4096
  blocks := fun _ size => UInt64.ofNat ((size + 4095) / 4096 * 8)
  maxBytes := 2 ^ 43
  maxBytes_lt := by decide
  statvfs := .ok ⟨4096, 4096, 1024, 512⟩

/-- The attributes of an object created now. -/
def newAttr (os : Os) (perm : UInt32) : Attr :=
  { perm, atime := os.now, mtime := os.now, ctime := os.now, btime := some os.now, blocks := 0 }

/-- Modification: both the contents and the status changed now. -/
def modified (os : Os) (a : Attr) : Attr := { a with mtime := os.now, ctime := os.now }

/-- A change of status alone. -/
def changed (os : Os) (a : Attr) : Attr := { a with ctime := os.now }

end Os

/-- Stamp the directory `d` as modified. -/
def Tree.touch (t : Tree) (os : Os) (d : Loc) : Tree := t.setAttr d os.modified

/-- New time stamps change neither shapes nor objects. -/
@[simp] theorem Tree.tag_touch {t : Tree} (os : Os) (d : Loc) : (t.touch os d).tag = t.tag :=
  tag_setAttr _ _

/-- New time stamps change no shape. -/
@[simp] theorem Tree.shape_touch {t : Tree} (os : Os) (d : Loc) :
    (t.touch os d).shape = t.shape := shape_setAttr _ _

/-- Only the entry that is stamped changes. -/
theorem Tree.look_touch_of_ne {t : Tree} {os : Os} {d q : Loc} (h : q ≠ d) :
    (t.touch os d).look q = t.look q := look_setAttr_of_ne h

namespace Fs

variable {os : Os} {t t' : Tree} {p : PathBuf}

/-- A call that only reads. -/
def query {α : Type} (p : PathBuf) (f : Tree → Except Errno α) : EStateM IoError Tree α :=
  observe fun t => if p.hasNul then .error nulError else (f t).mapError Errno.toIoError

/-- A call that takes effect or fails and changes nothing. -/
def effect (p : PathBuf) (f : Tree → Except Errno Tree) : EStateM IoError Tree Unit :=
  attempt fun t =>
    if p.hasNul then .error nulError
    else ((f t).map (fun t' => ((), t'))).mapError Errno.toIoError

/-- A query succeeds with what it finds, and changes nothing. -/
theorem query_eq_ok {α : Type} {f : Tree → Except Errno α} {a : α} :
    query p f t = .ok a t' ↔ p.hasNul = false ∧ f t = .ok a ∧ t' = t := by
  unfold query
  rw [observe_eq_ok]
  cases hn : p.hasNul <;> cases hf : f t <;> simp [Except.mapError]

/-- An effect succeeds with the tree that it leaves. -/
theorem effect_eq_ok {f : Tree → Except Errno Tree} {u : Unit} :
    effect p f t = .ok u t' ↔ p.hasNul = false ∧ f t = .ok t' := by
  unfold effect
  rw [attempt_eq_ok]
  cases hn : p.hasNul <;> cases hf : f t <;> simp [Except.mapError, Except.map]

/-- An effect that fails changes nothing. -/
theorem effect_error {f : Tree → Except Errno Tree} {e : IoError}
    (h : effect p f t = .error e t') : t' = t := by
  unfold effect at h
  exact eq_of_attempt_error h

/-- An effect fails with the error of the system. -/
theorem effect_of_error {f : Tree → Except Errno Tree} {e : Errno} (hnul : p.hasNul = false)
    (h : f t = .error e) : effect p f t = .error e.toIoError t := by
  unfold effect attempt
  simp only [hnul, h]
  rfl

/-- A call on the entry that a path names. -/
def atEntry {α : Type} (t : Tree) (p : PathBuf) (atRoot : Errno)
    (f : Loc → Name → Except Errno α) : Except Errno α :=
  match parentOf t p atRoot with
  | .error e   => .error e
  | .ok (d, x) => f d x

/-- A call on an entry that has to exist. -/
def existing {α : Type} (t : Tree) (q : Loc) (f : Entry → Except Errno α) : Except Errno α :=
  match t.look q with
  | none   => .error .ENOENT
  | some e => f e

/-! ### Reading the tree -/

/-- `fs::canonicalize`. -/
def canonicalize (p : PathBuf) : EStateM IoError Tree Loc := query p (resolve · p)

/-- `fs::metadata`: the entry the path leads to. -/
def metadata (p : PathBuf) : EStateM IoError Tree Entry :=
  query p fun t => do
    let q ← resolve t p
    existing t q .ok

/-- `fs::read_dir`, run to its end: the names it lists. -/
def readDir (p : PathBuf) : EStateM IoError Tree (List Name) :=
  query p fun t => do
    let q ← resolve t p
    if t.shape q ≠ some .dir then .error .ENOTDIR
    else .ok ((t.children q).filterMap (·.loc.getLast?))

/-- `Path::exists`, `Path::is_dir` and `Path::is_file` ask `metadata` and take every
    error for "no". -/
def found (p : PathBuf) (ok : Entry → Bool) : EStateM IoError Tree Bool := fun t =>
  match metadata p t with
  | .ok e _    => .ok (ok e) t
  -- also when the metadata cannot be read
  | .error _ _ => .ok false t

/-- `Path::exists`. -/
def pathExists (p : PathBuf) : EStateM IoError Tree Bool := found p (fun _ => true)

/-- `Path::is_dir`. -/
def isDir (p : PathBuf) : EStateM IoError Tree Bool := found p (·.shape = .dir)

/-- `Path::is_file`. -/
def isFile (p : PathBuf) : EStateM IoError Tree Bool := found p (·.shape = .file)

/-! ### Changing entries -/

/-- `unlink(2)`. -/
def unlink (os : Os) (p : PathBuf) (t : Tree) : Except Errno Tree :=
  atEntry t p .EISDIR fun d x => existing t (d ++ [x]) fun e =>
    if e.shape = .dir then .error .EISDIR
    -- a trailing slash asks for a directory
    else if p.trailing then .error .ENOTDIR
    else .ok ((t.prune (d ++ [x])).touch os d)

/-- `rmdir(2)`. -/
def rmdir (os : Os) (p : PathBuf) (t : Tree) : Except Errno Tree :=
  atEntry t p .EBUSY fun d x => existing t (d ++ [x]) fun e =>
    if e.shape ≠ .dir then .error .ENOTDIR
    else if t.children (d ++ [x]) ≠ [] then .error .ENOTEMPTY
    else .ok ((t.prune (d ++ [x])).touch os d)

/-- `mkdir(2)`. -/
def mkdir (os : Os) (p : PathBuf) (t : Tree) : Except Errno Tree :=
  atEntry t p .EEXIST fun d x =>
    if t.look (d ++ [x]) ≠ none then .error .EEXIST
    else .ok ((t.insert d x (os.newAttr os.dirPerm) (.dir os.dirSize)).touch os d)

/-- `open(2)` with `O_CREAT | O_EXCL`. -/
def openExcl (os : Os) (p : PathBuf) (t : Tree) : Except Errno Tree :=
  atEntry t p .EEXIST fun d x =>
    -- `O_CREAT` with a trailing slash, whatever is there
    if p.trailing then .error .EISDIR
    -- `O_EXCL` does not follow a link, not even a dangling one
    else if t.look (d ++ [x]) ≠ none then .error .EEXIST
    else .ok ((t.insert d x (os.newAttr os.filePerm) (.file [])).touch os d)

/-- Whether `rename(2)` may put an entry `e` in the place of another. -/
def replaces (t : Tree) (e e' : Entry) : Except Errno Unit :=
  if e.shape = .dir then
    if e'.shape ≠ .dir then .error .ENOTDIR
    -- only an empty directory gives way to a directory
    else if t.children e'.loc ≠ [] then .error .ENOTEMPTY
    else .ok ()
  else if e'.shape = .dir then .error .EISDIR
  else .ok ()

/-- The locations `rename(2)` would move from and to, when it is permitted. -/
def renamePlan (old new : PathBuf) (t : Tree) : Except Errno (Loc × Loc) :=
  atEntry t old .EBUSY fun d x => atEntry t new .EBUSY fun d' x' =>
    let src := d ++ [x]
    let dst := d' ++ [x']
    existing t src fun e =>
      if e.shape ≠ .dir ∧ (old.trailing ∨ new.trailing) then .error .ENOTDIR
      -- two paths of one entry: success without a change
      else if src = dst then .ok (src, dst)
      -- a directory into itself, or onto one above it
      else if src <+: dst then .error .EINVAL
      else if dst <+: src then .error .ENOTEMPTY
      else match t.look dst with
        | none    => .ok (src, dst)
        | some e' => (replaces t e e').map fun () => (src, dst)

/-- The tree after `rename(2)` from `src` to `dst`; two names of one entry change
    nothing. -/
def renamed (os : Os) (src dst : Loc) (t : Tree) : Tree :=
  if src = dst then t
  else
    let moved := ((t.prune dst).move src dst).setAttr dst os.changed
    (moved.touch os src.dropLast).touch os dst.dropLast

/-- `fs::remove_file`. -/
def removeFile (os : Os) (p : PathBuf) : EStateM IoError Tree Unit := effect p (unlink os p)

/-- `fs::remove_dir`. -/
def removeDir (os : Os) (p : PathBuf) : EStateM IoError Tree Unit := effect p (rmdir os p)

/-- `fs::create_dir`. -/
def createDir (os : Os) (p : PathBuf) : EStateM IoError Tree Unit := effect p (mkdir os p)

/-- `OpenOptions::new().write(true).create_new(true).open`. -/
def createNew (os : Os) (p : PathBuf) : EStateM IoError Tree Unit := effect p (openExcl os p)

/-- `fs::rename`. -/
def rename (os : Os) (old new : PathBuf) : EStateM IoError Tree Unit :=
  attempt fun t =>
    if old.hasNul ∨ new.hasNul then .error nulError
    else ((renamePlan old new t).map
      (fun r => ((), renamed os r.1 r.2 t))).mapError Errno.toIoError

/-- `lstat(2)`: the entry a path names, or with a trailing slash what that leads to. -/
def lstat (p : PathBuf) (t : Tree) : Except Errno Entry :=
  if p.trailing ∨ p.names = [] then do
    let q ← resolve t p
    existing t q .ok
  else atEntry t p .ENOENT fun d x => existing t (d ++ [x]) .ok

/-- The tree once every entry below the directory at `q` is removed. -/
def emptied (os : Os) (q : Loc) (t : Tree) : Tree :=
  if t.children q = [] then t else (t.clear q).touch os q

/-- `rmdir(2)`, where a missing entry counts as removed. -/
def rmdirIfThere (os : Os) (p : PathBuf) (t : Tree) : Except Errno Tree :=
  match rmdir os p t with
  | .error .ENOENT => .ok t
  | outcome        => outcome

/-- `fs::remove_dir_all`.  With a trailing slash the path of a link is that of the
    directory behind it, which is emptied before the removal meets the link. -/
def removeDirAll (os : Os) (p : PathBuf) : EStateM IoError Tree Unit := do
  let e ← query p (lstat p)
  match e.shape with
  | .symlink _ => effect p (unlink os p)
  | .file      => throw Errno.ENOTDIR.toIoError
  -- the entries go through the open directory; for itself the path is walked once more
  | .dir       => fun t => effect p (rmdirIfThere os p) (emptied os e.loc t)

/-! ### Open files -/

/-- An open file: the object it is open on and the offset. -/
structure File where
  loc : Loc
  pos : Nat
  deriving DecidableEq, Repr

/-- `File::open`. -/
def openRead (p : PathBuf) : EStateM IoError Tree File :=
  query p fun t => (resolve t p).map fun q => ⟨q, 0⟩

/-- `OpenOptions::open` with write access to an existing file. -/
def openWrite (p : PathBuf) : EStateM IoError Tree File :=
  query p fun t => do
    let q ← resolve t p
    if t.shape q = some .dir then .error .EISDIR
    else .ok ⟨q, 0⟩

/-- The bytes of the regular file at a location. -/
def dataAt (t : Tree) (q : Loc) : Option (List UInt8) :=
  match (t.look q).map Entry.body with
  | some (.file data) => some data
  | _                 => none

/-- `Seek::seek` with `SeekFrom::Start`. -/
def seekStart (os : Os) (f : File) (offset : Nat) : EStateM IoError Tree File :=
  if offset ≤ os.maxBytes then pure { f with pos := offset }
  else throw Errno.EINVAL.toIoError

/-- `Seek::seek` with `SeekFrom::End(0)`. -/
def seekEnd (f : File) : EStateM IoError Tree File :=
  observe fun t => match dataAt t f.loc with
    | some data => .ok { f with pos := data.length }
    | none      => .error Errno.EINVAL.toIoError

/-- `Read::read` into a buffer of `length` bytes: all that is available, up to that. -/
def read (f : File) (length : Nat) : EStateM IoError Tree (List UInt8) :=
  observe fun t => match dataAt t f.loc with
    | some data => .ok ((data.drop f.pos).take length)
    | none      => .error Errno.EISDIR.toIoError

/-- Contents after writing `data` at offset `pos`: a gap is filled with zeros. -/
def overwrite (old : List UInt8) (pos : Nat) (data : List UInt8) : List UInt8 :=
  -- the kept front, the gap, the new bytes, and what lies behind them
  old.take pos ++ List.replicate (pos - old.length) 0 ++ data ++ old.drop (pos + data.length)

/-- Contents after setting the length to `size`. -/
def resize (old : List UInt8) (size : Nat) : List UInt8 :=
  old.take size ++ List.replicate (size - old.length) 0

/-- New contents for the file at `q`, written now. -/
def store (os : Os) (q : Loc) (data : List UInt8) (t : Tree) : Tree :=
  t.setData q data fun a => { os.modified a with blocks := os.blocks a.blocks data.length }

/-- `Write::write_all`.  Writing nothing makes no call; a write past the size limit
    stores what fits and then fails. -/
def writeAll (os : Os) (f : File) (data : List UInt8) : EStateM IoError Tree Unit := fun t =>
  if data = [] then .ok () t
  else match dataAt t f.loc with
    | none     => .error Errno.EINVAL.toIoError t
    | some old =>
      if f.pos + data.length ≤ os.maxBytes then
        .ok () (store os f.loc (overwrite old f.pos data) t)
      -- the first `write(2)` is short, the second fails
      else if f.pos < os.maxBytes then
        .error Errno.EFBIG.toIoError
          (store os f.loc (overwrite old f.pos (data.take (os.maxBytes - f.pos))) t)
      else .error Errno.EFBIG.toIoError t

/-- `File::set_len`. -/
def setLen (os : Os) (f : File) (size : Nat) : EStateM IoError Tree Unit :=
  attempt fun t =>
    -- the length does not fit in the `off_t` of `ftruncate(2)`
    if 2 ^ 63 ≤ size then .error offsetError
    else if os.maxBytes < size then .error Errno.EFBIG.toIoError
    else match dataAt t f.loc with
      | none     => .error Errno.EINVAL.toIoError
      | some old => .ok ((), store os f.loc (resize old size) t)

/-- `Write::flush` and `File::sync_all` change nothing. -/
def sync (_ : File) : EStateM IoError Tree Unit := pure ()

/-! ### Changing attributes -/

/-- `fs::set_permissions`: the kernel keeps the twelve permission bits of the mode. -/
def setPermissions (os : Os) (p : PathBuf) (mode : UInt32) : EStateM IoError Tree Unit :=
  effect p fun t => do
    let q ← resolve t p
    .ok (t.setAttr q fun a => { a with perm := mode &&& 0o7777, ctime := os.now })

/-- The two values of `tv_nsec` with a meaning of their own. -/
def utimeNow : Nat := 2 ^ 30 - 1

@[inherit_doc utimeNow]
def utimeOmit : Nat := 2 ^ 30 - 2

/-- The time `utimensat(2)` stores for a requested one. -/
def stampTime (os : Os) (old new : Time) : Time :=
  if new.nanos = utimeNow then os.now else if new.nanos = utimeOmit then old else new

/-- Whether `utimensat(2)` takes a requested time. -/
def validTime (new : Time) : Bool :=
  new.nanos < 10 ^ 9 ∨ new.nanos = utimeNow ∨ new.nanos = utimeOmit

/-- `filetime::set_file_times`. -/
def setFileTimes (os : Os) (p : PathBuf) (atime mtime : Time) : EStateM IoError Tree Unit :=
  effect p fun t => do
    if ¬ (validTime atime ∧ validTime mtime) then .error .EINVAL
    -- nothing to set: the kernel does not even look at the path
    else if atime.nanos = utimeOmit ∧ mtime.nanos = utimeOmit then .ok t
    else
      let q ← resolve t p
      .ok (t.setAttr q fun a =>
        { a with atime := stampTime os a.atime atime, mtime := stampTime os a.mtime mtime,
                 ctime := os.now })

end Fs

end Posix
