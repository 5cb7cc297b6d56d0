import Netfilum.Client.Link
import Netfilum.Server.Contents

namespace Netfilum

open Posix Program Rust

/-!
# A remote file is an array of bytes

Reads, writes and changes of size through any handles of one file, on the client, against
the operations on an array of bytes.

* `ContentCall.apply` — what a call does to the array.
* `ContentCall.Reports` — the call returns what the array says it should.
* `Mirrors` — the handles lead to a file that holds the array; every call that does not fail
  keeps it (`step_refines`).
* `contents_refine` — along every run of such calls, each returns what the array says.
-/

/-- A call on a handle of the file: `read` into a buffer, `write` without constrained I/O,
    `set_file_size` without `set_allocation_size`. -/
inductive ContentCall where
  | read (handle : Nat) (buffer : List UInt8) (offset : UInt64)
  | write (handle : Nat) (buffer : List UInt8) (offset : UInt64) (writeToEof : Bool)
  | setFileSize (handle : Nat) (newSize : UInt64)

/-- What a call returns. -/
inductive Returned where
  | read (buffer : List UInt8) (count : UInt32)
  | write (count : UInt32) (fileInfo : Option FileInfo)
  | setFileSize (fileInfo : FileInfo)

variable {Buf : Type}

namespace ContentCall

def handle : ContentCall → Nat
  | .read handle .. | .write handle .. | .setFileSize handle _ => handle

/-- The callback of a call. -/
def run (fs : RpcFsContext Tree Buf) : ContentCall → ClientM Tree Buf Returned
  | .read handle buffer offset =>
    (fun (buffer, count) => .read buffer count) <$> fs.read handle buffer offset
  | .write handle buffer offset writeToEof =>
    (fun (count, fileInfo) => .write count fileInfo) <$>
      fs.write handle buffer offset writeToEof false
  | .setFileSize handle newSize => .setFileSize <$> fs.setFileSize handle newSize false

/-- What the call does to an array of bytes. -/
def apply (c : Content) : ContentCall → Content
  | .read .. => c
  | .write _ buffer offset writeToEof =>
    c.write (if writeToEof then c.size else offset.toNat) buffer
  | .setFileSize _ newSize => c.resize newSize.toNat

/-- The buffer of a read has a length of 32 bits. -/
def Short : ContentCall → Prop
  | .read _ buffer _ => buffer.length < 2 ^ 32
  | _                => True

instance : DecidablePred Short
  | .read _ buffer _ => inferInstanceAs (Decidable (buffer.length < 2 ^ 32))
  | .write .. | .setFileSize .. => isTrue trivial

/-- The call panicked when it converted a time of the file. -/
def TimeOverflow (q : Loc) (result : EStateM.Result Stop (World Tree Buf) Returned) : Prop :=
  ∃ message e, outcome result = .error (.panic message) ∧ (final result).net.look q = some e ∧
    fillFileInfo (attrOf e) = .error message

/-- The call returned what the array `c` says: a read fills its buffer with the bytes from
    `offset` on, a write takes the whole buffer, and the size reported is the array's. -/
def Reports (c : Content) (q : Loc) (result : EStateM.Result Stop (World Tree Buf) Returned) :
    ContentCall → Prop
  | .read _ buffer offset =>
    let bytes := c.read offset.toNat buffer.length
    ∃ count, outcome result = .ok (.read (bytes ++ buffer.drop bytes.length) count) ∧
      count.toNat = bytes.length
  | .write handle buffer offset writeToEof =>
    (∃ count fileInfo, outcome result = .ok (.write count (some fileInfo)) ∧
      count.toNat = buffer.length ∧
      fileInfo.fileSize.toNat = (apply c (.write handle buffer offset writeToEof)).size) ∨
    TimeOverflow q result
  | .setFileSize handle newSize =>
    (∃ fileInfo, outcome result = .ok (.setFileSize fileInfo) ∧
      fileInfo.fileSize.toNat = (apply c (.setFileSize handle newSize)).size) ∨
    TimeOverflow q result

end ContentCall

/-! ### The file and the array -/

/-- The handles lead to the file at `q`, and it holds the bytes of `c`. -/
structure Mirrors (srv : RpcServer) (q : Loc) (handles : Nat → Prop) (w : World Tree Buf)
    (c : Content) : Prop where
  leads   : ∀ h, handles h → ∃ path, srv.Joins (w.contexts h).path path ∧ Fs.Leads w.net path q
  content : Fs.dataAt w.net q = some c.toList
  size_lt : c.size < 2 ^ 63

variable {fs : RpcFsContext Tree Buf} {srv : RpcServer} {os : Os} {q : Loc}
  {handles : Nat → Prop} {w : World Tree Buf} {c : Content}

/-- A request through one of the handles is about the file. -/
theorem Mirrors.loc_eq {handle : Nat} {path : PathBuf} {q' : Loc}
    (h : Mirrors srv q handles w c) (hh : handles handle)
    (hex : srv.Existing w.net (w.contexts handle).path path q') : q' = q := by
  obtain ⟨path', hjoins, hl⟩ := h.leads handle hh
  exact hex.loc_eq hjoins hl

/-- The file has other contents, and nothing was moved. -/
theorem Mirrors.update {t' : Tree} {c' : Content} (h : Mirrors srv q handles w c)
    (hshape : t'.shape = w.net.shape) (hcontent : Fs.dataAt t' q = some c'.toList)
    (hsize : c'.size < 2 ^ 63) : Mirrors srv q handles { w with net := t' } c' where
  leads i hi := by
    obtain ⟨path, hjoins, hnul, hres⟩ := h.leads i hi
    exact ⟨path, hjoins, hnul, by rw [resolve_congr hshape]; exact hres⟩
  content := hcontent
  size_lt := hsize

/-- The size that is reported is the size of the array. -/
theorem fileSize_eq {attr : FileAttr} {fileInfo : FileInfo} {e : Entry}
    (h : fillFileInfo attr = .ok fileInfo) (hb : e.body = .file c.toList) (he : attrOf e = attr)
    (hsize : c.size < 2 ^ 63) : fileInfo.fileSize.toNat = c.size := by
  obtain ⟨-, -, -, hinfo, -⟩ := fillFileInfo_eq_ok h
  rw [hinfo, ← he, lenOf_file hb, Content.length_toList]
  exact UInt64.toNat_ofNat_of_lt' (show c.size < 2 ^ 64 by omega)

/-! ### One call -/

/-- The call failed, or it reported and left what the array says. -/
def Refined (srv : RpcServer) (q : Loc) (handles : Nat → Prop) (c : Content) (call : ContentCall)
    (result : EStateM.Result Stop (World Tree Buf) Returned) : Prop :=
  (∃ e, outcome result = .error (.err e)) ∨
    call.Reports c q result ∧ Mirrors srv q handles (final result) (call.apply c)

/-- A `read` returns a part of the contents. -/
theorem read_refines (h : Mirrors srv q handles w c) {handle : Nat} (hh : handles handle)
    {buffer : List UInt8} (hlen : buffer.length < 2 ^ 32) (offset : UInt64) :
    Refined srv q handles c (.read handle buffer offset)
      ((ContentCall.read handle buffer offset).run (fs.connected srv os) w) := by
  have hu32 : (UInt32.ofNat buffer.length).toNat = buffer.length :=
    UInt32.toNat_ofNat_of_lt' hlen
  rw [ContentCall.run, map_apply]
  unfold RpcFsContext.read
  rw [bind_of_ok (pathOf_apply handle w)]
  rcases sendDirect_connected fs srv os
    (.read (w.contexts handle).path offset (UInt32.ofNat buffer.length)) w with
    ⟨response, t', -, hd, hsend⟩ | ⟨e, t', -, hsend⟩
  · -- the server answers with the bytes of the file
    obtain ⟨bytes, hread, rfl⟩ := map_eq_ok.mp hd
    obtain ⟨path, q', content, hex, hdata, hbytes, rfl⟩ := RpcServer.readFile_eq_ok hread
    obtain rfl := h.loc_eq hh hex
    rw [h.content] at hdata
    cases hdata
    rw [hu32, ← Content.read_eq] at hbytes
    subst hbytes
    -- the answer is no longer than the buffer
    have hle := c.length_read_le offset.toNat buffer.length
    rw [bind_of_ok hsend]
    dsimp only
    rw [if_neg (by omega)]
    exact .inr ⟨⟨_, rfl, UInt32.toNat_ofNat_of_lt' (show _ < 2 ^ 32 by omega)⟩, h⟩
  · rw [bind_of_error hsend]
    exact .inl ⟨.io e, rfl⟩

/-- Filling in the file information after the file was changed. -/
theorem checked_fillFileInfo {attr : FileAttr} {t' : Tree} {c' : Content} {e : Entry}
    (hb : e.body = .file c'.toList) (hattr : attrOf e = attr) (hsize : c'.size < 2 ^ 63)
    (w : World Tree Buf) :
    (∃ fileInfo, checked (fillFileInfo attr) { w with net := t' }
        = .ok fileInfo { w with net := t' } ∧ fileInfo.fileSize.toNat = c'.size) ∨
      ∃ message, checked (fillFileInfo attr) { w with net := t' }
        = .error (.panic message) { w with net := t' } ∧
          fillFileInfo (attrOf e) = .error message := by
  cases hinfo : fillFileInfo attr with
  | ok fileInfo => exact .inl ⟨fileInfo, rfl, fileSize_eq hinfo hb hattr hsize⟩
  | error message => exact .inr ⟨message, rfl, by rw [hattr, hinfo]⟩

/-- A `write` overwrites a part of the contents. -/
theorem write_refines (h : Mirrors srv q handles w c) {handle : Nat} (hh : handles handle)
    (buffer : List UInt8) (offset : UInt64) (toEof : Bool) :
    Refined srv q handles c (.write handle buffer offset toEof)
      ((ContentCall.write handle buffer offset toEof).run (fs.connected srv os) w) := by
  rw [ContentCall.run, map_apply]
  unfold RpcFsContext.write
  rw [if_neg Bool.false_ne_true]
  unfold RpcFsContext.writePayload
  rw [bind_of_ok (pathOf_apply handle w)]
  rcases sendDirect_connected fs srv os
    (.write (w.contexts handle).path offset buffer toEof) w with
    ⟨response, t', hfits, hd, hsend⟩ | ⟨e, t', -, hsend⟩
  · obtain ⟨path, q', content, attr, hex, hdata, hholds, hmax, hshape, rfl⟩ :=
      RpcServer.writeFile_eq_ok hd
    obtain rfl := h.loc_eq hh hex
    rw [h.content] at hdata
    cases hdata
    obtain ⟨e, he, hb, hattr⟩ := hholds.entry
    -- the offset is that of the end if the client asks for it
    have hpos : RpcServer.writePos c.toList offset toEof
        = if toEof then c.size else offset.toNat := by
      unfold RpcServer.writePos
      rw [Content.length_toList]
    rw [hpos] at hb hmax
    rw [← Content.toList_write] at hb
    -- a length stays one that the system has room for
    have hsize : (c.write (if toEof then c.size else offset.toNat) buffer).size < 2 ^ 63 := by
      have hc := h.size_lt
      have hos := os.maxBytes_lt
      unfold Content.write
      split
      · exact hc
      · rename_i hne
        have hfit := hmax hne
        exact Nat.max_lt.mpr ⟨hc, by omega⟩
    have hupdate := h.update hshape (dataAt_eq_some_iff.mpr ⟨e, he, hb⟩) hsize
    rw [bind_of_ok hsend]
    dsimp only
    -- the answer is converted, or the conversion panics; the bytes are there either way
    rcases checked_fillFileInfo hb hattr hsize w with
      ⟨fileInfo, hrun, hinfo⟩ | ⟨message, hrun, hinfo⟩
    · rw [bind_of_ok hrun]
      have hcount := UInt32.toNat_ofNat_of_lt' (length_lt_of_fits hfits)
      exact .inr ⟨.inl ⟨_, fileInfo, rfl, hcount, hinfo⟩, hupdate⟩
    · rw [bind_of_error hrun]
      exact .inr ⟨.inr ⟨message, e, rfl, he, hinfo⟩, hupdate⟩
  · rw [bind_of_error hsend]
    exact .inl ⟨.io e, rfl⟩

/-- A `set_file_size` resizes the contents. -/
theorem setFileSize_refines (h : Mirrors srv q handles w c) {handle : Nat} (hh : handles handle)
    (newSize : UInt64) :
    Refined srv q handles c (.setFileSize handle newSize)
      ((ContentCall.setFileSize handle newSize).run (fs.connected srv os) w) := by
  rw [ContentCall.run, map_apply]
  unfold RpcFsContext.setFileSize
  rw [bind_of_ok (pathOf_apply handle w)]
  rcases sendDirect_connected fs srv os
    (.setLen (w.contexts handle).path newSize false) w with
    ⟨response, t', -, hd, hsend⟩ | ⟨e, t', -, hsend⟩
  · obtain ⟨attr, hset, rfl⟩ := map_eq_ok.mp hd
    obtain ⟨path, q', content, hex, hdata, hholds, hmax, hshape⟩ := RpcServer.setLen_eq_ok hset
    obtain rfl := h.loc_eq hh hex
    rw [h.content] at hdata
    cases hdata
    obtain ⟨e, he, hb, hattr⟩ := hholds.entry
    rw [← Content.toList_resize] at hb
    -- the system made the file no longer than it can
    have hsize : (c.resize newSize.toNat).size < 2 ^ 63 := Nat.lt_of_le_of_lt hmax os.maxBytes_lt
    have hupdate := h.update hshape (dataAt_eq_some_iff.mpr ⟨e, he, hb⟩) hsize
    rw [bind_of_ok hsend]
    dsimp only
    rcases checked_fillFileInfo hb hattr hsize w with
      ⟨fileInfo, hrun, hinfo⟩ | ⟨message, hrun, hinfo⟩
    · rw [hrun]
      exact .inr ⟨.inl ⟨fileInfo, rfl, hinfo⟩, hupdate⟩
    · rw [hrun]
      exact .inr ⟨.inr ⟨message, e, rfl, he, hinfo⟩, hupdate⟩
  · rw [bind_of_error hsend]
    exact .inl ⟨.io e, rfl⟩

/-- **One call** through a handle of the file fails, or returns what the array says and
    leaves the file as the array is then. -/
theorem step_refines (fs : RpcFsContext Tree Buf) (os : Os) (h : Mirrors srv q handles w c)
    (call : ContentCall) (hh : handles call.handle) (hshort : call.Short) :
    Refined srv q handles c call (call.run (fs.connected srv os) w) := by
  cases call with
  | read handle buffer offset => exact read_refines h hh hshort offset
  | write handle buffer offset toEof => exact write_refines h hh buffer offset toEof
  | setFileSize handle newSize => exact setFileSize_refines h hh newSize

/-! ### Runs -/

/-- No call of the run fails.  The system may be another one at each call. -/
def Succeeds (fs : RpcFsContext Tree Buf) (srv : RpcServer) :
    World Tree Buf → List (Os × ContentCall) → Prop
  | _, []                   => True
  | w, (os, call) :: calls =>
    let result := call.run (fs.connected srv os) w
    (¬ ∃ e, outcome result = .error (.err e)) ∧ Succeeds fs srv (final result) calls

/-- Every call of the run returns what the array says that the calls before it left. -/
def Follows (fs : RpcFsContext Tree Buf) (srv : RpcServer) (q : Loc) :
    Content → World Tree Buf → List (Os × ContentCall) → Prop
  | _, _, []                  => True
  | c, w, (os, call) :: calls =>
    let result := call.run (fs.connected srv os) w
    call.Reports c q result ∧ Follows fs srv q (call.apply c) (final result) calls

/-- In every run the contents are those of the abstract file. -/
theorem follows_of_mirrors (h : Mirrors srv q handles w c) (calls : List (Os × ContentCall))
    (hh : ∀ call ∈ calls, handles call.2.handle ∧ call.2.Short) (hok : Succeeds fs srv w calls) :
    Follows fs srv q c w calls := by
  induction calls generalizing w c with
  | nil => trivial
  | cons call calls ih =>
    obtain ⟨os, call⟩ := call
    obtain ⟨hhandle, hshort⟩ := hh _ List.mem_cons_self
    obtain ⟨hnot, hok⟩ := hok
    -- the invariant goes from one call to the next
    rcases step_refines fs os h call hhandle hshort with hfail | ⟨hrep, hmirrors⟩
    · exact absurd hfail hnot
    · exact ⟨hrep, ih hmirrors (fun call hmem => hh call (List.mem_cons_of_mem _ hmem)) hok⟩

/-- **A remote file is an array of bytes.**  In every run of reads, writes and changes of
    size through handles of one file, none of which fails, every call returns what the
    operations on an array of bytes give that holds the file's contents at first. -/
theorem contents_refine (fs : RpcFsContext Tree Buf) (srv : RpcServer) (q : Loc)
    (content : List UInt8) (w : World Tree Buf) (calls : List (Os × ContentCall))
    (hcontent : Fs.dataAt w.net q = some content) (hsize : content.length < 2 ^ 63)
    (hhandles : ∀ call ∈ calls, ∃ path, srv.Joins (w.contexts call.2.handle).path path ∧
      Fs.Leads w.net path q)
    (hshort : ∀ call ∈ calls, call.2.Short) (hok : Succeeds fs srv w calls) :
    Follows fs srv q (.ofList content) w calls := by
  have hmirrors : Mirrors srv q
      (fun h => ∃ path, srv.Joins (w.contexts h).path path ∧ Fs.Leads w.net path q) w
      (.ofList content) :=
    ⟨fun _ hh => hh, by rw [Content.toList_ofList, hcontent], hsize⟩
  exact follows_of_mirrors hmirrors calls
    (fun call hmem => ⟨hhandles call hmem, hshort call hmem⟩) hok

/-! ### A short run and a long buffer -/

/-- A write past the end through one handle, and a read through another. -/
def shortRun : List (Os × ContentCall) :=
  [(.atTime ⟨1, 0⟩, .write 0 [9] 5 false), (.atTime ⟨2, 0⟩, .read 1 (List.replicate 8 0) 1)]

/-- A write behind the end, and a read through another handle. -/
theorem contents_refine_short :
    Follows plainFs .serverAtR (["r", "f"].map Utf8.encode) (.ofList [1, 2, 3]) openOnFile
      shortRun := by
  have hok : Succeeds plainFs .serverAtR openOnFile shortRun := by
    refine ⟨?_, ?_, trivial⟩
    · rintro ⟨e, he⟩
      cases he
    · rintro ⟨e, he⟩
      cases he
  exact contents_refine _ _ _ _ _ _ (by decide) (by decide)
    (fun _ _ => openOnFile_leads) (by decide) hok

/-- A read into a buffer of 2^32 bytes asks for none, and returns none. -/
theorem read_long {buffer : List UInt8} (hlen : buffer.length = 2 ^ 32) :
    outcome ((ContentCall.read 0 buffer 0).run (plainFs.connected .serverAtR (.atTime ⟨1, 0⟩))
      openOnFile) = .ok (.read buffer 0) := by
  -- the length of the buffer does not fit in the 32 bits of the request
  have hzero : UInt32.ofNat buffer.length = 0 := by rw [hlen]; rfl
  have hsend : (plainFs.connected .serverAtR (.atTime ⟨1, 0⟩)).sendDirect
      (.read (openOnFile.contexts 0).path 0 0) openOnFile = .ok (.data []) openOnFile := rfl
  rw [ContentCall.run, map_apply]
  unfold RpcFsContext.read
  rw [bind_of_ok (pathOf_apply 0 openOnFile), hzero, bind_of_ok hsend]
  dsimp only
  rw [if_neg (show ¬ buffer.length < ([] : List UInt8).length from Nat.not_lt_zero _),
    List.nil_append, List.length_nil, List.drop_zero, pure_apply]
  rfl

/-- A buffer of 2³² bytes is asked for as one of none. -/
theorem long_not_follows {buffer : List UInt8} (hlen : buffer.length = 2 ^ 32) :
    Succeeds plainFs .serverAtR openOnFile [(.atTime ⟨1, 0⟩, .read 0 buffer 0)] ∧
      ¬ Follows plainFs .serverAtR (["r", "f"].map Utf8.encode) (.ofList [1, 2, 3]) openOnFile
        [(.atTime ⟨1, 0⟩, .read 0 buffer 0)] := by
  constructor
  · refine ⟨?_, trivial⟩
    rintro ⟨e, he⟩
    rw [read_long hlen] at he
    cases he
  · rintro ⟨⟨count, hout, hcount⟩, -⟩
    rw [read_long hlen] at hout
    injection hout with hout
    injection hout with _ hzero
    rw [← hzero, Content.read_eq, Content.toList_ofList, hlen,
      List.take_of_length_le (by decide)] at hcount
    cases hcount

/-- The read succeeds and returns none of the three bytes of the file. -/
theorem long_read_returns_nothing :
    Succeeds plainFs .serverAtR openOnFile
        [(.atTime ⟨1, 0⟩, .read 0 (List.replicate (2 ^ 32) 0) 0)] ∧
      ¬ Follows plainFs .serverAtR (["r", "f"].map Utf8.encode) (.ofList [1, 2, 3]) openOnFile
        [(.atTime ⟨1, 0⟩, .read 0 (List.replicate (2 ^ 32) 0) 0)] :=
  long_not_follows List.length_replicate

end Netfilum
