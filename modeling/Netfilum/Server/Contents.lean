import Netfilum.Posix.Contents
import Netfilum.Server.Resolve

namespace Netfilum

open Posix Program Rust

/-!
# What requests do to the contents of a file

Reading, writing and setting the length, inverted: the bytes of the file before and after,
and what the response says about them.

* `readFile_eq_ok`, `writeFile_eq_ok`, `setLen_eq_ok` — one lemma for each request.
* `dataAt_writeFile` — the bytes after a write, also after one that failed.
-/

variable {srv : RpcServer} {os : Os} {t t' : Tree} {relative : String} {path : PathBuf}
  {q : Loc} {content : List UInt8}

/-- The data at a place are those of the file there. -/
theorem dataAt_eq_some_iff :
    Fs.dataAt t q = some content ↔ ∃ e, t.look q = some e ∧ e.body = .file content := by
  unfold Fs.dataAt
  cases t.look q with
  | none => simp
  | some e =>
    rw [Option.map_some]
    cases hb : e.body with
    | file bytes => simp [hb]
    | dir size => simp [hb]
    | symlink target => simp [hb]

/-- Only regular files have contents. -/
theorem shape_of_dataAt (h : Fs.dataAt t q = some content) : t.shape q = some .file := by
  obtain ⟨e, he, hb⟩ := dataAt_eq_some_iff.mp h
  rw [Tree.shape_of_look he, Entry.shape, hb]
  rfl

/-- Every regular file has some. -/
theorem dataAt_of_shape (h : t.shape q = some .file) :
    ∃ content, Fs.dataAt t q = some content := by
  obtain ⟨e, he, hs⟩ := Tree.shape_eq_some_iff.mp h
  unfold Entry.shape Body.shape at hs
  cases hb : e.body with
  | file content => exact ⟨content, dataAt_eq_some_iff.mpr ⟨e, he, hb⟩⟩
  | dir size => rw [hb] at hs; cases hs
  | symlink target => rw [hb] at hs; cases hs

/-- What was stored is what the file holds. -/
theorem dataAt_store (h : Fs.dataAt t q = some content) (bytes : List UInt8) :
    Fs.dataAt (Fs.store os q bytes t) q = some bytes := by
  obtain ⟨e, he, hb⟩ := dataAt_eq_some_iff.mp h
  have hs : e.shape = .file := by rw [Entry.shape, hb]; rfl
  exact dataAt_eq_some_iff.mpr ⟨_, Tree.look_setData_self he hs, rfl⟩

/-- The attributes of a file tell its length. -/
theorem lenOf_file {e : Entry} (h : e.body = .file content) :
    (attrOf e).size = UInt64.ofNat content.length := by
  show lenOf e = _
  unfold lenOf
  rw [h]

namespace RpcServer

/-- The file that a checked path leads to, with its attributes. -/
structure Holds (srv : RpcServer) (t : Tree) (relative : String) (q : Loc) (content : List UInt8)
    (attr : FileAttr) : Prop where
  existing : ∃ path, srv.Existing t relative path q
  entry    : ∃ e, t.look q = some e ∧ e.body = .file content ∧ attrOf e = attr

/-- `read_file` returns a part of the file's contents. -/
theorem readFile_eq_ok {offset : UInt64} {length : UInt32} {bytes : List UInt8}
    (h : srv.readFile os relative offset length t = .ok bytes t') :
    ∃ path q content, srv.Existing t relative path q ∧ Fs.dataAt t q = some content ∧
      bytes = (content.drop offset.toNat).take length.toNat ∧ t' = t := by
  obtain ⟨path, t1, hpath, h1⟩ := bind_eq_ok.mp h
  obtain ⟨⟨q, hex⟩, rfl⟩ := resolveExisting_eq_ok.mp hpath
  obtain ⟨f, t2, hopen, h2⟩ := bind_eq_ok.mp h1
  obtain ⟨-, hres, -, rfl⟩ := Fs.openRead_eq_ok.mp (io_eq_ok.mp hopen)
  rw [hex.resolves] at hres
  cases hres
  obtain ⟨f', t3, hseek, h3⟩ := bind_eq_ok.mp h2
  obtain ⟨hf', rfl⟩ : f' = { f with pos := offset.toNat } ∧ t3 = t2 := by
    have hs := io_eq_ok.mp hseek
    unfold Fs.seekStart at hs
    split at hs
    · cases hs
      exact ⟨rfl, rfl⟩
    · cases hs
  subst hf'
  obtain ⟨hread, rfl⟩ := observe_eq_ok.mp (io_eq_ok.mp h3)
  dsimp only at hread
  cases hd : Fs.dataAt t' f.loc with
  | none => rw [hd] at hread; cases hread
  | some content =>
    rw [hd] at hread
    cases hread
    exact ⟨path, f.loc, content, hex, hd, rfl, rfl⟩

/-- Where a write goes. -/
def writePos (content : List UInt8) (offset : UInt64) (toEof : Bool) : Nat :=
  if toEof then content.length else offset.toNat

/-- The position is where the write begins. -/
theorem seekFor_eq_ok {f f' : Fs.File} {offset : UInt64} {toEof : Bool}
    (hd : Fs.dataAt t f.loc = some content) (h : seekFor os f offset toEof t = .ok f' t') :
    f' = ⟨f.loc, writePos content offset toEof⟩ ∧ t' = t := by
  unfold seekFor at h
  unfold writePos
  cases toEof with
  | true =>
    obtain ⟨hseek, rfl⟩ := observe_eq_ok.mp (io_eq_ok.mp h)
    rw [hd] at hseek
    cases hseek
    exact ⟨rfl, rfl⟩
  | false =>
    have hs := io_eq_ok.mp h
    unfold Fs.seekStart at hs
    split at hs
    · cases hs
      exact ⟨rfl, rfl⟩
    · cases hs

/-- The place to write to is found, unless it lies past the system's limit. -/
theorem seekFor_cases (os : Os) (offset : UInt64) (toEof : Bool)
    (hd : Fs.dataAt t q = some content) :
    seekFor os ⟨q, 0⟩ offset toEof t = .ok ⟨q, writePos content offset toEof⟩ t ∨
      ∃ e, seekFor os ⟨q, 0⟩ offset toEof t = .error e t ∧
        os.maxBytes < writePos content offset toEof := by
  unfold seekFor writePos
  cases toEof with
  | true => exact .inl (io_eq_ok.mpr (observe_eq_ok.mpr ⟨by rw [hd]; rfl, rfl⟩))
  | false =>
    by_cases hle : offset.toNat ≤ os.maxBytes
    · exact .inl (io_eq_ok.mpr (by rw [Fs.seekStart, if_pos hle]; rfl))
    · refine .inr ⟨_, mapError_of_error (e := Errno.EINVAL.toIoError) ?_, Nat.lt_of_not_le hle⟩
      rw [Fs.seekStart, if_neg hle]
      rfl

/-- The contents after a write. -/
theorem writeAll_eq_ok {f : Fs.File} {data : List UInt8} {u : Unit}
    (hd : Fs.dataAt t f.loc = some content) (h : Fs.writeAll os f data t = .ok u t') :
    Fs.dataAt t' f.loc = some (if data = [] then content else Fs.overwrite content f.pos data) ∧
      (data ≠ [] → f.pos + data.length ≤ os.maxBytes) := by
  unfold Fs.writeAll at h
  rw [hd] at h
  dsimp only at h
  split at h
  · rename_i hnil
    cases h
    rw [if_pos hnil]
    exact ⟨hd, fun hne => absurd hnil hne⟩
  · rename_i hne
    split at h
    · rename_i hfits
      cases h
      rw [if_neg hne]
      exact ⟨dataAt_store hd _, fun _ => hfits⟩
    · split at h <;> cases h

/-- Reading the attributes of a file at the end of a request. -/
theorem Existing.holds {attr : FileAttr} {t'' : Tree} (hex : srv.Existing t relative path q)
    (hshape : t'.shape = t.shape) (hd : Fs.dataAt t' q = some content)
    (h : attrForPath path t' = .ok attr t'') : srv.Holds t'' relative q content attr := by
  obtain ⟨⟨q', e, hl, he, rfl⟩, rfl⟩ := attrForPath_eq_ok.mp h
  have hres : resolve t'' path = .ok q := by rw [resolve_congr hshape, hex.resolves]
  obtain rfl := hl.unique ⟨hex.nul, hres⟩
  obtain ⟨e', he', hb⟩ := dataAt_eq_some_iff.mp hd
  rw [he] at he'
  cases he'
  exact ⟨⟨path, hex.joins, hex.nul, hres, hex.within⟩, e, he, hb, rfl⟩

/-- `write_file` overwrites a part of the file and returns its new attributes. -/
theorem writeFile_eq_ok {offset : UInt64} {data : List UInt8} {toEof : Bool} {r : Response}
    (h : srv.writeFile os relative offset data toEof t = .ok r t') :
    ∃ path q content attr, srv.Existing t relative path q ∧ Fs.dataAt t q = some content ∧
      srv.Holds t' relative q (if data = [] then content
        else Fs.overwrite content (writePos content offset toEof) data) attr ∧
      (data ≠ [] → writePos content offset toEof + data.length ≤ os.maxBytes) ∧
      t'.shape = t.shape ∧ r = .writeResult (UInt32.ofNat data.length) attr := by
  have hstill := (still_writeFile offset data toEof).shape_eq h
  obtain ⟨path, t1, hpath, h1⟩ := bind_eq_ok.mp h
  obtain ⟨⟨q, hex⟩, rfl⟩ := resolveExisting_eq_ok.mp hpath
  obtain ⟨f, t2, hopen, h2⟩ := bind_eq_ok.mp h1
  obtain ⟨-, hres, hfile, -, rfl⟩ := Fs.openWrite_eq_ok.mp (io_eq_ok.mp hopen)
  rw [hex.resolves] at hres
  cases hres
  obtain ⟨content, hd⟩ := dataAt_of_shape hfile
  obtain ⟨f', t3, hseek, h3⟩ := bind_eq_ok.mp h2
  obtain ⟨rfl, rfl⟩ := seekFor_eq_ok hd hseek
  obtain ⟨u, t4, hwrite, h4⟩ := bind_eq_ok.mp h3
  obtain ⟨hd4, hfits⟩ := writeAll_eq_ok (f := ⟨f.loc, writePos content offset toEof⟩) hd
    (io_eq_ok.mp hwrite)
  obtain ⟨u', t5, hsync, h5⟩ := bind_eq_ok.mp h4
  cases hsync
  obtain ⟨attr, t6, hattr, h6⟩ := bind_eq_ok.mp h5
  have hshape : t4.shape = t3.shape := (Fs.still_writeAll _ _).shape_eq (io_eq_ok.mp hwrite)
  have hholds := hex.holds hshape hd4 hattr
  cases h6
  exact ⟨path, f.loc, content, attr, hex, hd, hholds, hfits, hstill, rfl⟩

/-- The part of the data that is written: no file grows past the system's limit. -/
def taken (os : Os) (content : List UInt8) (offset : UInt64) (data : List UInt8) (toEof : Bool) :
    List UInt8 :=
  data.take (os.maxBytes - writePos content offset toEof)

/-- The contents that a write leaves, whether it succeeds or not. -/
def written (os : Os) (content : List UInt8) (offset : UInt64) (data : List UInt8)
    (toEof : Bool) : List UInt8 :=
  if taken os content offset data toEof = [] then content
  else Fs.overwrite content (writePos content offset toEof) (taken os content offset data toEof)

/-- Writing at the position that was sought. -/
theorem dataAt_writeAll (os : Os) (offset : UInt64) (data : List UInt8) (toEof : Bool)
    (hd : Fs.dataAt t q = some content) :
    Fs.dataAt (final (Fs.writeAll os ⟨q, writePos content offset toEof⟩ data t)) q
      = some (written os content offset data toEof) := by
  unfold Fs.writeAll written taken
  by_cases hnil : data = []
  · rw [if_pos hnil, if_pos (by rw [hnil, List.take_nil])]
    exact hd
  · have hlen : 0 < data.length := List.length_pos_iff.mpr hnil
    rw [if_neg hnil, hd]
    dsimp only
    by_cases hfits : writePos content offset toEof + data.length ≤ os.maxBytes
    · rw [if_pos hfits, List.take_of_length_le (by omega), if_neg hnil]
      exact dataAt_store hd _
    · rw [if_neg hfits]
      by_cases hpart : writePos content offset toEof < os.maxBytes
      · -- a part is written before the limit is met
        have hne : data.take (os.maxBytes - writePos content offset toEof) ≠ [] := by
          rw [← List.length_pos_iff, List.length_take]
          omega
        rw [if_pos hpart, if_neg hne]
        exact dataAt_store hd _
      · rw [if_neg hpart, show os.maxBytes - writePos content offset toEof = 0 by omega,
          List.take_zero, if_pos rfl]
        exact hd

/-- **The contents after a write**, also after one that failed. -/
theorem dataAt_writeFile {offset : UInt64} {data : List UInt8} {toEof : Bool}
    (hex : ∃ path, srv.Existing t relative path q) (hd : Fs.dataAt t q = some content) :
    Fs.dataAt (final (srv.writeFile os relative offset data toEof t)) q
      = some (written os content offset data toEof) := by
  obtain ⟨path, hex⟩ := hex
  have hopen : io (Fs.openWrite path) t = .ok ⟨q, 0⟩ t :=
    io_eq_ok.mpr (Fs.openWrite_eq_ok.mpr ⟨hex.nul, hex.resolves, shape_of_dataAt hd, rfl, rfl⟩)
  unfold writeFile
  rw [bind_of_ok (resolveExisting_eq_ok.mpr ⟨⟨q, hex⟩, rfl⟩), bind_of_ok hopen]
  rcases seekFor_cases os offset toEof hd with hseek | ⟨e, hseek, hpast⟩
  · -- behind the write there are only reads
    have hrest : ∀ u : Unit, Quiet (do
        io (Fs.sync ⟨q, writePos content offset toEof⟩)
        let attr ← attrForPath path
        return Response.writeResult (UInt32.ofNat data.length) attr : ServerM Response) := fun _ =>
      .bind (.mapError (.pure _)) fun _ => .bind (quiet_attrForPath path) fun _ => .pure _
    rw [bind_of_ok hseek, Quiet.final_bind hrest]
    have hwrite := dataAt_writeAll os offset data toEof hd
    unfold io mapError
    cases hrun : Fs.writeAll os ⟨q, writePos content offset toEof⟩ data t with
    | ok u t' =>
      rw [hrun] at hwrite
      exact hwrite
    | error e t' =>
      rw [hrun] at hwrite
      exact hwrite
  · rw [bind_of_error hseek, written, taken,
      show os.maxBytes - writePos content offset toEof = 0 by omega, List.take_zero, if_pos rfl]
    exact hd

/-- A change of the allocation size asks for the attributes. -/
theorem setLen_allocation (os : Os) (relative : String) (size : UInt64) :
    srv.setLen os relative size true = srv.statPath relative := rfl

/-- `set_len` resizes the file and returns its new attributes. -/
theorem setLen_eq_ok {size : UInt64} {attr : FileAttr}
    (h : srv.setLen os relative size false t = .ok attr t') :
    ∃ path q content, srv.Existing t relative path q ∧ Fs.dataAt t q = some content ∧
      srv.Holds t' relative q (Fs.resize content size.toNat) attr ∧
      size.toNat ≤ os.maxBytes ∧ t'.shape = t.shape := by
  have hstill := (still_setLen size false).shape_eq h
  obtain ⟨path, t1, hpath, h1⟩ := bind_eq_ok.mp h
  obtain ⟨⟨q, hex⟩, rfl⟩ := resolveExisting_eq_ok.mp hpath
  obtain ⟨u, t2, htrunc, hattr⟩ := bind_eq_ok.mp h1
  rw [if_neg Bool.false_ne_true] at htrunc
  have hshape := (still_truncateFile path size).shape_eq htrunc
  obtain ⟨f, t3, hopen, hset⟩ := bind_eq_ok.mp htrunc
  obtain ⟨-, hres, -, -, rfl⟩ := Fs.openWrite_eq_ok.mp (io_eq_ok.mp hopen)
  rw [hex.resolves] at hres
  cases hres
  have hcall := attempt_eq_ok.mp (io_eq_ok.mp hset)
  obtain ⟨-, hcall⟩ := ite_error_eq_ok.mp hcall
  obtain ⟨hfits, hcall⟩ := ite_error_eq_ok.mp hcall
  cases hd : Fs.dataAt t3 f.loc with
  | none => rw [hd] at hcall; cases hcall
  | some content =>
    rw [hd] at hcall
    cases hcall
    exact ⟨path, f.loc, content, hex, hd, hex.holds hshape (dataAt_store hd _) hattr,
      Nat.le_of_not_lt hfits, hstill⟩

end RpcServer

end Netfilum
