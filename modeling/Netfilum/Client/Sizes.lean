import Netfilum.Client.Link
import Netfilum.Server.Contents

namespace Netfilum

open Posix Program Rust

/-!
# Sizes that are reported

What `write` and `set_file_size` report about the size of a file and the space allocated for
it, along every run of such calls on one file.

* `SizeRules` — the size reported is the file's, the allocation covers it, and a change of
    the allocation size changes nothing.
* `sizes_follow` — every call of a run keeps these rules.
-/

/-- What `run_mount` declares with `sector_size`. -/
def sectorSize : Nat := 4096

/-- What `run_mount` declares with `sectors_per_allocation_unit`. -/
def sectorsPerAllocationUnit : Nat := 1

/-- The allocation unit of the volume. -/
def allocationUnit : Nat := sectorSize * sectorsPerAllocationUnit

/-- A call that writes to a file or sets one of its sizes. -/
inductive SizeCall where
  | write (handle : Nat) (buffer : List UInt8) (offset : UInt64) (writeToEof constrainedIo : Bool)
  | setFileSize (handle : Nat) (newSize : UInt64) (setAllocationSize : Bool)

variable {Buf : Type}

namespace SizeCall

def handle : SizeCall → Nat
  | .write handle .. | .setFileSize handle .. => handle

/-- The callback of a call, and the file information that it fills in. -/
def run (fs : RpcFsContext Tree Buf) : SizeCall → ClientM Tree Buf (Option FileInfo)
  | .write handle buffer offset writeToEof constrainedIo =>
    Prod.snd <$> fs.write handle buffer offset writeToEof constrainedIo
  | .setFileSize handle newSize setAllocationSize =>
    some <$> fs.setFileSize handle newSize setAllocationSize

end SizeCall

/-- Whole allocation units are allocated for an entry, and enough for its size. -/
def Covered (e : Entry) : Prop := e.attr.blocks.toNat % 8 = 0 ∧ lenOf e ≤ e.attr.blocks * 512

/-- What a call on the file at `q` leaves and reports. -/
structure SizeRules (q : Loc) (w : World Tree Buf) (call : SizeCall)
    (result : EStateM.Result Stop (World Tree Buf) (Option FileInfo)) : Prop where
  size       : ∀ fileInfo, outcome result = .ok (some fileInfo) →
    ∃ content, Fs.dataAt (final result).net q = some content ∧
      fileInfo.fileSize = UInt64.ofNat content.length
  covers     : ∀ fileInfo, outcome result = .ok (some fileInfo) →
    fileInfo.fileSize ≤ fileInfo.allocationSize
  units      : ∀ fileInfo e, outcome result = .ok (some fileInfo) →
    (final result).net.look q = some e → Covered e → allocationUnit ∣ fileInfo.allocationSize.toNat
  allocation : ∀ handle newSize, call = .setFileSize handle newSize true →
    (final result).net = w.net
  resize     : ∀ handle newSize fileInfo, call = .setFileSize handle newSize false →
    outcome result = .ok (some fileInfo) → fileInfo.fileSize = newSize

/-- The rules hold at every call of a run.  The system may be another one at each. -/
def SizesFollow (fs : RpcFsContext Tree Buf) (srv : RpcServer) (q : Loc) :
    World Tree Buf → List (Os × SizeCall) → Prop
  | _, []                   => True
  | w, (os, call) :: calls  =>
    let result := call.run (fs.connected srv os) w
    SizeRules q w call result ∧ SizesFollow fs srv q (final result) calls

variable {fs : RpcFsContext Tree Buf} {srv : RpcServer} {os : Os} {q : Loc} {handle : Nat}
  {w w' : World Tree Buf}

/-! ### What is reported -/

/-- Sizes in whole blocks of 512 bytes, eight at a time, are whole allocation units. -/
theorem allocationUnit_dvd {blocks : UInt64} (h : blocks.toNat % 8 = 0) :
    allocationUnit ∣ (blocks * 512).toNat := by
  refine Nat.dvd_of_mod_eq_zero ?_
  show (blocks * 512).toNat % (4096 * 1) = 0
  rw [UInt64.toNat_mul, show (512 : UInt64).toNat = 512 from rfl]
  omega

/-- The information filled in from the attributes of a file. -/
theorem reported_of_fill {e : Entry} {content : List UInt8} {info : FileInfo}
    (hb : e.body = .file content) (h : fillFileInfo (attrOf e) = .ok info) :
    info.fileSize = UInt64.ofNat content.length ∧ info.fileSize ≤ info.allocationSize ∧
      (Covered e → allocationUnit ∣ info.allocationSize.toNat) := by
  obtain ⟨-, -, -, hsize, halloc⟩ := fillFileInfo_eq_ok h
  have hlen : lenOf e = UInt64.ofNat content.length := lenOf_file hb
  -- `max` of the two sizes, as the definition of `max` has it
  have hmax : info.allocationSize
      = if e.attr.blocks * 512 ≤ lenOf e then lenOf e else e.attr.blocks * 512 := halloc
  have hsize' : info.fileSize = lenOf e := hsize
  refine ⟨hsize'.trans hlen, ?_, fun ⟨hunits, hle⟩ => ?_⟩
  · rw [hsize', hmax]
    split
    · exact UInt64.le_refl _
    · rename_i hlt
      exact UInt64.le_of_lt (UInt64.not_le.mp hlt)
  · -- the allocation already covers the size, so it is what is reported
    have hall : info.allocationSize = e.attr.blocks * 512 := by
      rw [hmax]
      split
      · rename_i hge
        exact UInt64.le_antisymm hle hge
      · rfl
    rw [hall]
    exact allocationUnit_dvd hunits

/-! ### What stays -/

/-- The handles are what they were, and no entry of the tree came, went or moved. -/
def Stays (w w' : World Tree Buf) : Prop := w'.contexts = w.contexts ∧ w'.net.tag = w.net.tag

/-- Nothing changes. -/
theorem Stays.refl (w : World Tree Buf) : Stays w w := ⟨rfl, rfl⟩

/-- Handles and entries are kept in steps. -/
theorem Stays.trans {w w' w'' : World Tree Buf} (h : Stays w w') (h' : Stays w' w'') :
    Stays w w'' := ⟨h'.1.trans h.1, h'.2.trans h.2⟩

/-- Two steps keep handles and entries if both do. -/
theorem stays_bind {α β : Type} {x : ClientM Tree Buf α} {f : α → ClientM Tree Buf β}
    (hx : Respects Stays x w) (hf : ∀ a w', x w = .ok a w' → Respects Stays (f a) w') :
    Respects Stays (x >>= f) w := by
  refine .bind ?_ hx hf
  exact Stays.trans

/-- A request that keeps shapes on the server keeps them here. -/
theorem stays_sendDirect (request : Request) (h : Still (srv.dispatch os request))
    (w : World Tree Buf) : Respects Stays ((fs.connected srv os).sendDirect request) w := by
  refine ⟨RpcFsContext.sendDirect_contexts _ request w, ?_⟩
  rw [net_sendDirect]
  split
  · exact h w.net
  · rfl

/-- Reading the path of a handle keeps handles and entries. -/
theorem stays_pathOf (handle : Nat) (w : World Tree Buf) : Respects Stays (pathOf handle) w :=
  Stays.refl w

/-- A check keeps handles and entries. -/
theorem stays_checked {α : Type} (x : Checked α) (w : World Tree Buf) :
    Respects Stays (checked x) w := .observe Stays.refl _ w

/-- Asking for attributes keeps handles and entries. -/
theorem stays_fetchAttr (path : String) (w : World Tree Buf) :
    Respects Stays ((fs.connected srv os).fetchAttr path) w := by
  have hquiet : final (srv.dispatch os (.stat path) w.net) = w.net :=
    Quiet.map RpcServer.quiet_statPath w.net
  have hnet := final_send_exchange srv os (.stat path) w.net
  rw [hquiet, ite_self] at hnet
  unfold Respects
  rw [RpcFsContext.fetchAttr_apply, show (fs.connected srv os).exchange = srv.exchange os from rfl]
  cases hsend : send (srv.exchange os) (.stat path) w.net with
  | error e net =>
    rw [hsend] at hnet
    exact ⟨rfl, congrArg Tree.tag hnet⟩
  | ok response net =>
    rw [hsend] at hnet
    cases response <;> exact ⟨rfl, congrArg Tree.tag hnet⟩

/-- Writing a payload keeps handles and entries. -/
theorem stays_writePayload (handle : Nat) (payload : List UInt8) (offset : UInt64) (toEof : Bool)
    (w : World Tree Buf) :
    Respects Stays ((fs.connected srv os).writePayload handle payload offset toEof) w := by
  refine stays_bind (stays_pathOf handle w) fun path w₁ _ => ?_
  refine stays_bind (stays_sendDirect (.write path offset payload toEof)
    (RpcServer.still_writeFile offset payload toEof) w₁) fun response w₂ _ => ?_
  cases response with
  | writeResult written attr =>
    exact stays_bind (stays_checked _ w₂) fun _ w₃ _ => Stays.refl w₃
  | attr _ | dirEntries _ | data _ | volumeInfo _ | empty => exact Stays.refl w₂

/-- A write, however it ends, moves nothing. -/
theorem stays_write (handle : Nat) (buffer : List UInt8) (offset : UInt64)
    (toEof constrained : Bool) (w : World Tree Buf) :
    Respects Stays ((fs.connected srv os).write handle buffer offset toEof constrained) w := by
  unfold RpcFsContext.write
  cases constrained with
  | false => exact stays_writePayload handle buffer offset toEof w
  | true =>
    refine stays_bind (stays_pathOf handle w) fun path w₁ _ => ?_
    refine stays_bind (stays_fetchAttr path w₁) fun attr w₂ _ => ?_
    -- at or past the end nothing more is sent
    by_cases hend : attr.size ≤ offset
    · rw [if_pos hend]
      exact Stays.refl w₂
    · rw [if_neg hend]
      exact stays_writePayload handle _ offset toEof w₂

/-- A change of size, however it ends, moves nothing. -/
theorem stays_setFileSize (handle : Nat) (newSize : UInt64) (allocation : Bool)
    (w : World Tree Buf) :
    Respects Stays ((fs.connected srv os).setFileSize handle newSize allocation) w := by
  refine stays_bind (stays_pathOf handle w) fun path w₁ _ => ?_
  refine stays_bind (stays_sendDirect (.setLen path newSize allocation)
    (.map (RpcServer.still_setLen newSize allocation)) w₁) fun response w₂ _ => ?_
  cases response with
  | attr attr => exact stays_checked _ w₂
  | writeResult _ _ | dirEntries _ | data _ | volumeInfo _ | empty => exact Stays.refl w₂

/-- Every call keeps handles and entries. -/
theorem stays_run (call : SizeCall) (w : World Tree Buf) :
    Respects Stays (call.run (fs.connected srv os)) w := by
  cases call with
  | write handle buffer offset toEof constrained =>
    exact .map (stays_write handle buffer offset toEof constrained w)
  | setFileSize handle newSize allocation =>
    exact .map (stays_setFileSize handle newSize allocation w)

/-- The handles lead to the regular file at `q`. -/
structure OnFile (srv : RpcServer) (q : Loc) (handles : Nat → Prop) (w : World Tree Buf) :
    Prop where
  leads : ∀ h, handles h → ∃ path, srv.Joins (w.contexts h).path path ∧ Fs.Leads w.net path q
  file  : w.net.shape q = some .file

variable {handles : Nat → Prop}

/-- The handles stay on the file. -/
theorem OnFile.stays (h : OnFile srv q handles w) (hstays : Stays w w') :
    OnFile srv q handles w' := by
  obtain ⟨hctx, htag⟩ := hstays
  have hshape : w'.net.shape = w.net.shape := Tree.shape_congr htag
  refine ⟨fun k hk => ?_, by rw [hshape]; exact h.file⟩
  obtain ⟨path, hjoins, hnul, hres⟩ := h.leads k hk
  exact ⟨path, by rw [hctx]; exact hjoins, hnul, by rw [resolve_congr hshape]; exact hres⟩

/-! ### One call -/

/-- What was filled in describes the file. -/
def Describes (q : Loc) (t : Tree) (info : FileInfo) : Prop :=
  ∃ e content, t.look q = some e ∧ e.body = .file content ∧ fillFileInfo (attrOf e) = .ok info

/-- A request through one of the handles is about the file. -/
theorem OnFile.loc_eq (h : OnFile srv q handles w) (hh : handles handle) {path : PathBuf} {q' : Loc}
    (hex : srv.Existing w.net (w.contexts handle).path path q') : q' = q := by
  obtain ⟨path', hjoins, hl⟩ := h.leads handle hh
  exact hex.loc_eq hjoins hl

/-- What it answers describes the file. -/
theorem OnFile.describes (h : OnFile srv q handles w) (hh : handles handle) {t' : Tree} {q' : Loc}
    {content : List UInt8} {attr : FileAttr} {info : FileInfo} {path : PathBuf}
    (hex : srv.Existing w.net (w.contexts handle).path path q')
    (hholds : srv.Holds t' (w.contexts handle).path q' content attr)
    (hinfo : fillFileInfo attr = .ok info) : Describes q t' info := by
  obtain rfl := h.loc_eq hh hex
  obtain ⟨e, he, hb, rfl⟩ := hholds.entry
  exact ⟨e, content, he, hb, hinfo⟩

/-- What a write reports describes the file. -/
theorem write_describes (h : OnFile srv q handles w) (hh : handles handle) {buffer : List UInt8}
    {offset : UInt64} {toEof constrained : Bool} {count : UInt32} {info : FileInfo}
    (hok : (fs.connected srv os).write handle buffer offset toEof constrained w
      = .ok (count, some info) w') : Describes q w'.net info := by
  -- both kinds of write end with the same request
  have hpayload : ∀ payload, (fs.connected srv os).writePayload handle payload offset toEof w
      = .ok (count, some info) w' → Describes q w'.net info := by
    intro payload hrun
    obtain ⟨t', attr, info', rfl, hwrite, hinfo, hsome⟩ := writePayload_eq_ok hrun
    cases hsome
    obtain ⟨path, q', content, attr', hex, -, hholds, -, -, heq⟩ := RpcServer.writeFile_eq_ok hwrite
    cases heq
    exact h.describes hh hex hholds hinfo
  cases constrained with
  | false => exact hpayload buffer hok
  | true =>
    unfold RpcFsContext.write at hok
    rw [if_pos rfl, bind_of_ok (pathOf_apply handle w)] at hok
    obtain ⟨attr, w₁, hfetch, hrest⟩ := bind_eq_ok.mp hok
    obtain ⟨rfl, -⟩ := fetchAttr_eq_ok.mp hfetch
    split at hrest
    · cases hrest
    · exact hpayload _ hrest

/-- What a change of size reports describes the file. -/
theorem setFileSize_describes (h : OnFile srv q handles w) (hh : handles handle)
    {newSize : UInt64} {allocation : Bool} {info : FileInfo}
    (hok : (fs.connected srv os).setFileSize handle newSize allocation w = .ok info w') :
    Describes q w'.net info ∧ (allocation = false → info.fileSize = newSize) := by
  obtain ⟨t', attr, rfl, hset, hinfo⟩ := setFileSize_eq_ok hok
  cases allocation with
  | true =>
    rw [RpcServer.setLen_allocation] at hset
    obtain ⟨⟨path, q', e, hex, he, rfl⟩, rfl⟩ := RpcServer.statPath_eq_ok.mp hset
    -- the tree is the same, so the file is still there
    obtain rfl := h.loc_eq hh hex
    obtain ⟨content, hd⟩ := dataAt_of_shape h.file
    obtain ⟨e', he', hb⟩ := dataAt_eq_some_iff.mp hd
    rw [he] at he'
    cases he'
    exact ⟨⟨e, content, he, hb, hinfo⟩, fun hfalse => by cases hfalse⟩
  | false =>
    obtain ⟨path, q', content, hex, -, hholds, -⟩ := RpcServer.setLen_eq_ok hset
    refine ⟨h.describes hh hex hholds hinfo, fun _ => ?_⟩
    obtain ⟨e, -, hb, rfl⟩ := hholds.entry
    obtain ⟨hsize, -⟩ := reported_of_fill hb hinfo
    -- the file was cut or filled up to the new size
    rw [hsize, Fs.length_resize, UInt64.ofNat_toNat]

/-- A change of the allocation size leaves the tree as it is, whether it succeeds or not. -/
theorem net_setFileSize_allocation (fs : RpcFsContext Tree Buf) (srv : RpcServer) (os : Os)
    (handle : Nat) (newSize : UInt64) (w : World Tree Buf) :
    (final ((fs.connected srv os).setFileSize handle newSize true w)).net = w.net := by
  -- the server only answers with the attributes
  have hstat : Quiet (srv.setLen os (w.contexts handle).path newSize true) := by
    rw [RpcServer.setLen_allocation]
    exact RpcServer.quiet_statPath
  have hquiet : final (srv.dispatch os (.setLen (w.contexts handle).path newSize true) w.net)
      = w.net := Quiet.map hstat w.net
  have hnet := net_sendDirect fs srv os (.setLen (w.contexts handle).path newSize true) w
  rw [hquiet, ite_self] at hnet
  unfold RpcFsContext.setFileSize
  rw [bind_of_ok (pathOf_apply handle w), bind_apply]
  cases hsend : (fs.connected srv os).sendDirect
      (.setLen (w.contexts handle).path newSize true) w with
  | error stop w₁ =>
    rw [hsend] at hnet
    exact hnet
  | ok response w₁ =>
    rw [hsend] at hnet
    cases response with
    | attr attr =>
      have hchecked : Quiet (checked (fillFileInfo attr) : ClientM Tree Buf FileInfo) := .observe _
      exact (congrArg World.net (hchecked w₁)).trans hnet
    | writeResult _ _ | dirEntries _ | data _ | volumeInfo _ | empty => exact hnet

/-- What a call reports is what `fill_file_info` makes of the file. -/
theorem SizeRules.of_describes {call : SizeCall}
    {result : EStateM.Result Stop (World Tree Buf) (Option FileInfo)}
    (h : ∀ info, outcome result = .ok (some info) → Describes q (final result).net info)
    (hallocation : ∀ handle newSize, call = .setFileSize handle newSize true →
      (final result).net = w.net)
    (hresize : ∀ handle newSize info, call = .setFileSize handle newSize false →
      outcome result = .ok (some info) → info.fileSize = newSize) :
    SizeRules q w call result := by
  refine ⟨fun info hok => ?_, fun info hok => ?_, fun info e hok he hcovered => ?_, hallocation,
    hresize⟩
  · obtain ⟨e, content, he, hb, hinfo⟩ := h info hok
    exact ⟨content, dataAt_eq_some_iff.mpr ⟨e, he, hb⟩, (reported_of_fill hb hinfo).1⟩
  · obtain ⟨e, content, -, hb, hinfo⟩ := h info hok
    exact (reported_of_fill hb hinfo).2.1
  · obtain ⟨e', content, he', hb, hinfo⟩ := h info hok
    rw [he] at he'
    cases he'
    exact (reported_of_fill hb hinfo).2.2 hcovered

/-- Every call keeps the rules. -/
theorem rules_run (fs : RpcFsContext Tree Buf) (os : Os) (h : OnFile srv q handles w)
    (call : SizeCall) (hh : handles call.handle) :
    SizeRules q w call (call.run (fs.connected srv os) w) := by
  cases call with
  | write handle buffer offset toEof constrained =>
    refine .of_describes (fun info hok => ?_) (fun _ _ heq => by cases heq)
      fun _ _ _ heq => by cases heq
    obtain ⟨⟨count, fileInfo⟩, hwrite, hsome⟩ := map_eq_ok.mp (eq_ok_of_outcome hok)
    cases hsome
    exact write_describes h hh hwrite
  | setFileSize handle newSize allocation =>
    refine .of_describes (fun info hok => ?_) (fun _ _ heq => ?_) fun _ _ info heq hok => ?_
    · obtain ⟨info', hset, hsome⟩ := map_eq_ok.mp (eq_ok_of_outcome hok)
      cases hsome
      exact (setFileSize_describes h hh hset).1
    · cases heq
      exact (congrArg World.net (final_map _ _ _)).trans
        (net_setFileSize_allocation fs srv os handle newSize w)
    · cases heq
      obtain ⟨info', hset, hsome⟩ := map_eq_ok.mp (eq_ok_of_outcome hok)
      cases hsome
      exact (setFileSize_describes h hh hset).2 rfl

/-! ### Runs -/

/-- In every run every call keeps the rules. -/
theorem sizes_of_onFile (h : OnFile srv q handles w) (calls : List (Os × SizeCall))
    (hh : ∀ call ∈ calls, handles call.2.handle) : SizesFollow fs srv q w calls := by
  induction calls generalizing w with
  | nil => trivial
  | cons call calls ih =>
    obtain ⟨os, call⟩ := call
    refine ⟨rules_run fs os h call (hh _ List.mem_cons_self), ih (h.stays (stays_run call w)) ?_⟩
    exact fun call hmem => hh call (List.mem_cons_of_mem _ hmem)

/-- **Sizes.**  In every run of writes and changes of size through handles of one regular file,
    what is reported is the size of the file and an allocation that covers it, in whole units
    where the file's is; a change of the allocation size changes nothing, and a change of the
    file size sets it. -/
theorem sizes_follow (fs : RpcFsContext Tree Buf) (srv : RpcServer) (q : Loc)
    (w : World Tree Buf) (calls : List (Os × SizeCall)) (hfile : w.net.shape q = some .file)
    (hhandles : ∀ call ∈ calls, ∃ path, srv.Joins (w.contexts call.2.handle).path path ∧
      Fs.Leads w.net path q) : SizesFollow fs srv q w calls := by
  have honfile : OnFile srv q (fun h => ∃ path, srv.Joins (w.contexts h).path path ∧
      Fs.Leads w.net path q) w := ⟨fun _ hh => hh, hfile⟩
  exact sizes_of_onFile honfile calls hhandles

/-- A write past the end, two changes of size and a constrained write, through two handles. -/
def sizeRun : List (Os × SizeCall) :=
  [(.atTime ⟨1, 0⟩, .write 0 [9] 5 false false), (.atTime ⟨2, 0⟩, .setFileSize 1 2 true),
    (.atTime ⟨3, 0⟩, .setFileSize 0 7 false), (.atTime ⟨4, 0⟩, .write 1 [1, 2] 6 false true)]

/-- The rules are kept in the run. -/
theorem sizes_follow_f :
    SizesFollow plainFs .serverAtR (["r", "f"].map Utf8.encode) openOnFile sizeRun :=
  sizes_follow plainFs .serverAtR _ openOnFile sizeRun (by decide) fun _ _ => openOnFile_leads

/-- The file `f` has three bytes and no blocks: setting its allocation size to 0 does not cut it
    off, and an allocation of three bytes is reported. -/
theorem allocation_not_applied :
    ∃ fileInfo, outcome ((plainFs.connected .serverAtR (.atTime ⟨1, 0⟩)).setFileSize 0 0 true
        openOnFile) = .ok fileInfo ∧
      fileInfo.fileSize ≠ 0 ∧ ¬ allocationUnit ∣ fileInfo.allocationSize.toNat :=
  ⟨_, rfl, by decide, by decide⟩

end Netfilum
